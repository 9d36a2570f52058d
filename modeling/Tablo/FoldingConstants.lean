import Tablo.FoldingEval
import Mathlib.Data.List.TakeWhile

/-! The constants among expressions, when folding keeps the meaning of an expression, and what the
folder and the machine make of two constants. -/

namespace Tablo.Folding

open BinaryOp

variable {B O K S : Type} (op : BinaryOp) {n : Int} (ds : Doubles)

/-! ### Constants -/

def Literal.Plain : Literal → Prop
  | .int _ | .bool _ => True
  | .string s => 0 ∉ s
  | .double _ | .bigint _ | .nil => False

/-- Accepted by the type checker, over plain literals and casts that change nothing. -/
def Covered : Expr K → Prop
  | .literal c => c.Plain
  | .leaf _ _ => True
  | .binary op left right => Covered left ∧ Covered right ∧ binaryAccepted op left.kind right.kind
  | .unary op operand => Covered operand ∧ unaryAccepted op operand.kind
  | .cast target value => Covered value ∧ isNoopPrimitiveCast value.kind target = true

def InInt64 (n : Int) : Prop := -9223372036854775808 ≤ n ∧ n ≤ 9223372036854775807

instance (n : Int) : Decidable (InInt64 n) := inferInstanceAs (Decidable (_ ∧ _))

def Defined (a b : Int) : Prop :=
  match op with
  | .plus => InInt64 (a + b)
  | .minus => InInt64 (a - b)
  | .star => InInt64 (a * b)
  | .slash | .percent => b ≠ 0 → InInt64 (a.tdiv b)
  | _ => True

def constantInt (n : Int) : Option Literal := if InInt64 n then some (.int (Int64.ofInt n)) else none

def constantOf (a b : Literal) : Option Literal :=
  match a, b with
  | .int a, .int b =>
    match op with
    | .plus => constantInt (a.toInt + b.toInt)
    | .minus => constantInt (a.toInt - b.toInt)
    | .star => constantInt (a.toInt * b.toInt)
    | .slash => if b = 0 then none else constantInt (a.toInt.tdiv b.toInt)
    | .percent => if b = 0 then none else constantInt (a.toInt.tmod b.toInt)
    | .bitAnd => some (.int (a &&& b))
    | .bitOr => some (.int (a ||| b))
    | .bitXor => some (.int (a ^^^ b))
    | .eqEq => some (.bool (a == b))
    | .bangEq => some (.bool (a != b))
    | .lt => some (.bool (a < b))
    | .ltEq => some (.bool (a ≤ b))
    | .gt => some (.bool (b < a))
    | .gtEq => some (.bool (b ≤ a))
    | .and | .or => none
  | .string a, .string b =>
    match op with
    | .plus => some (.string (a ++ b))
    | .eqEq => some (.bool (a == b))
    | .bangEq => some (.bool (a != b))
    | _ => none
  | a, b =>
    match op with
    | .eqEq => some (.bool (a == b))
    | .bangEq => some (.bool (a != b))
    | _ => none

inductive Side where
  | left
  | right
  | value (c : Literal)
  deriving DecidableEq

def side (left right : Kind) (l r : Option Literal) : Option Side :=
  match op with
  | .plus =>
    if left = .int ∧ right = .int then
      if r = some (.int 0) then some .left else if l = some (.int 0) then some .right else none
    else if l = some (.string []) ∧ right = .string then some .right
    else if r = some (.string []) ∧ left = .string then some .left
    else none
  | .minus => if left = .int ∧ right = .int ∧ r = some (.int 0) then some .left else none
  | .star =>
    if left = .int ∧ right = .int then
      if r = some (.int 1) then some .left else if l = some (.int 1) then some .right else none
    else none
  | .slash => if left = .int ∧ right = .int ∧ r = some (.int 1) then some .left else none
  | .and =>
    if left = .bool ∧ right = .bool then
      if l = some (.bool false) then some (.value (.bool false))
      else if l = some (.bool true) then some .right
      else if r = some (.bool true) then some .left
      else none
    else none
  | .or =>
    if left = .bool ∧ right = .bool then
      if l = some (.bool true) then some (.value (.bool true))
      else if l = some (.bool false) then some .right
      else if r = some (.bool false) then some .left
      else none
    else none
  | _ => none

def constantUnary (op : UnaryOp) : Literal → Option Literal
  | .bool b => if op = .not then some (.bool !b) else none
  | .int n =>
    match op with
    | .minus => constantInt (-n.toInt)
    | .bitNot => some (.int (~~~n))
    | .not => none
  | .string _ | .double _ | .bigint _ | .nil => none

def constant : Expr K → Option Literal
  | .literal c => some c
  | .leaf _ _ => none
  | .binary op left right =>
    match side op left.kind right.kind (constant left) (constant right) with
    | some .left => constant left
    | some .right => constant right
    | some (.value c) => some c
    | none =>
      match constant left, constant right with
      | some a, some b => constantOf op a b
      | _, _ => none
  | .unary op operand => (constant operand).bind (constantUnary op)
  | .cast _ value => constant value

def InRange : Expr K → Prop
  | .literal _ | .leaf _ _ => True
  | .binary op left right =>
    InRange left ∧ InRange right ∧ (side op left.kind right.kind (constant left) (constant right) = none →
        ∀ a b, constant left = some (.int a) → constant right = some (.int b) → Defined op a.toInt b.toInt)
  | .unary op operand =>
    InRange operand ∧ (op = .minus → ∀ a, constant operand = some (.int a) → InInt64 (-a.toInt))
  | .cast _ value => InRange value

/-! ### Values that pass an identity -/

def IsInt (v : Value B O) : Prop := ∃ n, v = .int n

def IsBool (v : Value B O) : Prop := ∃ b, v = .bool b

def IsShort (host : Host B O) (v : Value B O) : Prop :=
  ∃ s, v = .string s ∧ 0 ∉ s ∧ s.length ≤ host.maxStringLength

def PassesLeft (host : Host B O) (op : BinaryOp) (left : Kind) (v : Value B O) : Prop :=
  match op with
  | .plus => if left = .int then IsInt v else IsShort host v
  | .and | .or => IsBool v
  | _ => IsInt v

/-- Likewise for a right operand; `true && x` and `false || x` return any value of `x`. -/
def PassesRight (host : Host B O) (op : BinaryOp) (right : Kind) (v : Value B O) : Prop :=
  match op with
  | .plus => if right = .int then IsInt v else IsShort host v
  | .and | .or => True
  | _ => IsInt v

def Short (host : Host B O) : Literal → Literal → Prop
  | .string a, .string b => a.length + b.length ≤ host.maxStringLength
  | _, _ => True

/-- In the given state, every operand an identity keeps has a value of its type, and no
concatenation of constants exceeds the limit. Operands that are not evaluated do not count, and a
constant that fails may be dropped before an operand that fails in the same way. -/
def Kept (host : Host B O) (run : K → S → Outcome B O S) : Expr K → S → Prop
  | .literal _, _ | .leaf _ _, _ => True
  | .binary op left right, s =>
    match side op left.kind right.kind (constant left) (constant right) with
    | some .left =>
      Kept host run left s ∧ ∀ v s', eval host run left s = (.ok v, s') →
        PassesLeft host op left.kind v ∧ (shortCircuit op v = none → Kept host run right s')
    | some .right =>
      (Kept host run left s ∨ eval host run right s = (.error tooLong, s)) ∧ Kept host run right s ∧
        ∀ v s', eval host run right s = (.ok v, s') → PassesRight host op right.kind v
    | some (.value _) => Kept host run left s
    | none =>
      ∀ a b, constant left = some a → constant right = some b → constantOf op a b ≠ none →
        Kept host run left s ∧ Kept host run right s ∧ (op = .plus → Short host a b)
  | .unary op operand, s =>
    (constant operand).bind (constantUnary op) ≠ none → Kept host run operand s
  | .cast _ value, s => Kept host run value s

/-- Folding evaluates no undefined operation, and the folded expression has the same value or error
and the same effects. -/
def FoldCorrect (host : Host B O) (run : K → S → Outcome B O S) (e : Expr K) (s : S) : Prop :=
  ∃ folded, foldExpressionRecursive host.doubles e = .ok folded ∧ eval host run (folded.getD e) s = eval host run e s

/-! ### Integers -/

theorem inInt64_toInt (a : Int64) : InInt64 a.toInt := by
  have hle := a.le_toInt
  have hlt := a.toInt_lt
  rw [InInt64]
  omega

theorem int64Of_pos (h : InInt64 n) : int64Of n = .ok (Int64.ofInt n) := if_pos h

theorem int64Of_neg (h : ¬ InInt64 n) : int64Of n = .error .intOverflow := if_neg h

theorem int64Of_toInt (a : Int64) : int64Of a.toInt = .ok a := by
  rw [int64Of_pos (inInt64_toInt a), Int64.ofInt_toInt]

theorem constantInt_pos (h : InInt64 n) : constantInt n = some (.int (Int64.ofInt n)) := if_pos h

theorem toInt_ne_zero {b : Int64} (hb : b ≠ 0) : b.toInt ≠ 0 := by
  intro h
  apply hb
  apply Int64.toInt_inj.mp
  rw [h]
  rfl

theorem inInt64_tmod (a b : Int64) (hb : b ≠ 0) : InInt64 (a.toInt.tmod b.toInt) := by
  have hle := b.le_toInt
  have hlt := b.toInt_lt
  have hne := toInt_ne_zero hb
  have habs := Int.natAbs_tmod a.toInt b.toInt
  have hmod := Nat.mod_lt a.toInt.natAbs (show 0 < b.toInt.natAbs by omega)
  rw [InInt64]
  omega

/-! ### Two literals -/

def BinaryOp.IsArithmetic : Prop := op ∈ [.plus, .minus, .star, .slash, .percent]

def DefinedOn (a b : Literal) : Prop :=
  ∀ x y, a = .int x → b = .int y → Defined op x.toInt y.toInt

variable {op : BinaryOp} {x y : Int64} {a b c : Literal}

theorem foldArithmeticInt_defined (hop : op.IsArithmetic) (h : Defined op x.toInt y.toInt) :
    foldArithmeticInt op x y = .ok (constantOf op (.int x) (.int y)) := by
  cases op with
  | plus | minus | star =>
    simp only [foldArithmeticInt, cAdd, cSub, cMul, int64Of_pos h, constantOf, constantInt_pos h]
    rfl
  | slash =>
    simp only [foldArithmeticInt, constantOf]
    split_ifs with hy
    · rfl
    · have hq := h (toInt_ne_zero hy)
      simp only [cDiv, int64Of_pos hq, constantInt_pos hq]
      rfl
  | percent =>
    simp only [foldArithmeticInt, constantOf]
    split_ifs with hy
    · rfl
    · have hq := h (toInt_ne_zero hy)
      have hr := inInt64_tmod x y hy
      simp only [cMod, cDiv, int64Of_pos hq, int64Of_pos hr, constantInt_pos hr]
      rfl
  | and | or | bitAnd | bitOr | bitXor | eqEq | bangEq | lt | ltEq | gt | gtEq => simp [IsArithmetic] at hop

theorem foldArithmeticInt_undefined (h : ¬ Defined op x.toInt y.toInt) :
    foldArithmeticInt op x y = .error .intOverflow := by
  cases op with
  | plus | minus | star =>
    simp only [foldArithmeticInt, cAdd, cSub, cMul, int64Of_neg h]
    rfl
  | slash | percent =>
    have hy : y ≠ 0 := fun hy => h fun hne => absurd (by rw [hy]; rfl) hne
    have hq : ¬ InInt64 (x.toInt.tdiv y.toInt) := fun hq => h fun _ => hq
    simp only [foldArithmeticInt, if_neg hy, cMod, cDiv, int64Of_neg hq]
    rfl
  | and | or | bitAnd | bitOr | bitXor | eqEq | bangEq | lt | ltEq | gt | gtEq => exact absurd trivial h

theorem foldLiterals_arithmetic (hop : op.IsArithmetic) (x y : Int64) :
    foldLiterals ds op (.int x) (.int y) = foldArithmeticInt op x y := by
  cases op <;> first | rfl | simp [IsArithmetic] at hop

theorem isArithmetic_of_not_defined {a b : Int} (h : ¬ Defined op a b) : op.IsArithmetic := by
  cases op <;> first | exact absurd trivial h | simp [IsArithmetic]

theorem foldLiterals_undefined (h : ¬ Defined op x.toInt y.toInt) :
    foldLiterals ds op (.int x) (.int y) = .error .intOverflow := by
  rw [foldLiterals_arithmetic ds (isArithmetic_of_not_defined h)]
  exact foldArithmeticInt_undefined h

theorem foldLiterals_ints (hand : op ≠ .and) (hor : op ≠ .or) (h : Defined op x.toInt y.toInt) :
    foldLiterals ds op (.int x) (.int y) = .ok (constantOf op (.int x) (.int y)) := by
  by_cases hop : op.IsArithmetic
  · rw [foldLiterals_arithmetic ds hop]
    exact foldArithmeticInt_defined hop h
  · cases op with
    | plus | minus | star | slash | percent => exact absurd (by simp [IsArithmetic]) hop
    | and => exact absurd rfl hand
    | or => exact absurd rfl hor
    | bitAnd | bitOr | bitXor | eqEq | bangEq | lt | ltEq | gt | gtEq => rfl

theorem foldLiterals_defined (ha : a.Plain) (hb : b.Plain)
    (haccepted : binaryAccepted op a.kind b.kind) (hand : op ≠ .and) (hor : op ≠ .or) (hdef : DefinedOn op a b) :
    foldLiterals ds op a b = .ok (constantOf op a b) := by
  cases a with
  | double | bigint | nil => cases ha
  | int x =>
    cases b with
    | double | bigint | nil => cases hb
    | int y => exact foldLiterals_ints ds hand hor (hdef x y rfl rfl)
    | bool y | string t => cases op <;> first | rfl | simp [binaryAccepted, Literal.kind] at haccepted
  | bool x =>
    cases b with
    | double | bigint | nil => cases hb
    | int y | bool y | string y =>
      cases op <;> cases x <;> cases y <;>
        first | rfl | contradiction | simp [binaryAccepted, Literal.kind] at haccepted
  | string s =>
    cases b with
    | double | bigint | nil => cases hb
    | int | bool | string => cases op <;> rfl

/-! ### Constants in the machine -/

theorem takeWhile_of_plain {s : List UInt8} (h : 0 ∉ s) : s.takeWhile (· ≠ 0) = s := by
  rw [List.takeWhile_eq_self_iff]
  intro x hx
  have hne : x ≠ 0 := fun hzero => h (hzero ▸ hx)
  simp [hne]

theorem concat_of_le {host : Host B O} {a b : List UInt8} (ha : 0 ∉ a) (hb : 0 ∉ b)
    (hle : a.length + b.length ≤ host.maxStringLength) : concat host a b = .ok (.string (a ++ b)) := by
  have hab : 0 ∉ a ++ b := by simp [ha, hb]
  rw [concat, if_neg (by omega), takeWhile_of_plain hab]

theorem concat_of_gt {host : Host B O} {a b : List UInt8} (hgt : host.maxStringLength < a.length + b.length) :
    concat host a b = .error tooLong := if_pos hgt

theorem constantInt_eq_some (h : constantInt n = some c) : InInt64 n ∧ c = .int (Int64.ofInt n) := by
  by_cases hn : InInt64 n
  · rw [constantInt_pos hn] at h
    exact ⟨hn, (Option.some.inj h).symm⟩
  · rw [constantInt, if_neg hn] at h
    cases h

theorem opInt_constant (hop : op.IsArithmetic) (hdef : Defined op x.toInt y.toInt)
    (hc : constantOf op (.int x) (.int y) = some c) :
    ∃ n, c = .int n ∧ opInt op (.int x) (.int y) = (.ok (.int n) : Except Fault (Value B O)) := by
  cases op with
  | plus | minus | star =>
    obtain ⟨hn, rfl⟩ := constantInt_eq_some hc
    exact ⟨_, rfl, by simp only [opInt, arithmeticInt, cAdd, cSub, cMul, int64Of_pos hn, ofInt]⟩
  | slash =>
    simp only [constantOf] at hc
    split_ifs at hc with hy
    obtain ⟨hn, rfl⟩ := constantInt_eq_some hc
    exact ⟨_, rfl, by simp only [opInt, arithmeticInt, if_neg hy, cDiv, int64Of_pos hn, ofInt]⟩
  | percent =>
    simp only [constantOf] at hc
    split_ifs at hc with hy
    obtain ⟨hn, rfl⟩ := constantInt_eq_some hc
    have hq := hdef (toInt_ne_zero hy)
    refine ⟨_, rfl, ?_⟩
    simp only [opInt, arithmeticInt, if_neg hy, cMod, cDiv, int64Of_pos hq, int64Of_pos hn]
    rfl
  | and | or | bitAnd | bitOr | bitXor | eqEq | bangEq | lt | ltEq | gt | gtEq => simp [IsArithmetic] at hop

theorem binaryOp_int (host : Host B O) (hop : op.IsArithmetic) (a b : Value B O) :
    binaryOp host op .int .int a b = opInt op a b := by
  cases op <;> first | rfl | simp [IsArithmetic] at hop

theorem binaryOp_constant (host : Host B O) (ha : a.Plain) (hb : b.Plain)
    (hdef : DefinedOn op a b) (hc : constantOf op a b = some c) : c.Plain ∧ ((op = .plus → Short host a b) →
        binaryOp host op a.kind b.kind (a.value host) (b.value host) = .ok (c.value host)) ∧
      (¬ (op = .plus → Short host a b) →
        binaryOp host op a.kind b.kind (a.value host) (b.value host) = .error tooLong) := by
  cases a with
  | double | bigint | nil => cases ha
  | int x =>
    cases b with
    | double | bigint | nil => cases hb
    | int y =>
      refine ⟨?_, ?_, fun hno => absurd (fun _ => trivial) hno⟩
      · by_cases hop : op.IsArithmetic
        · obtain ⟨n, rfl, -⟩ := opInt_constant (B := B) (O := O) hop (hdef x y rfl rfl) hc
          trivial
        · cases op <;> first | (cases hc <;> trivial) | exact absurd (by simp [IsArithmetic]) hop
      · intro _
        by_cases hop : op.IsArithmetic
        · obtain ⟨n, rfl, hrun⟩ := opInt_constant hop (hdef x y rfl rfl) hc
          exact (binaryOp_int host hop _ _).trans hrun
        · cases op <;> first | (cases hc <;> rfl) | exact absurd (by simp [IsArithmetic]) hop
    | bool y | string t =>
      cases op <;> cases hc <;> exact ⟨trivial, fun _ => rfl, fun hno => absurd (fun _ => trivial) hno⟩
  | bool x =>
    cases b with
    | double | bigint | nil => cases hb
    | int y | bool y | string y =>
      cases op <;> cases hc <;> cases x <;> cases y <;>
        exact ⟨trivial, fun _ => rfl, fun hno => absurd (fun _ => trivial) hno⟩
  | string s =>
    cases b with
    | double | bigint | nil => cases hb
    | int y | bool y =>
      cases op <;> cases hc <;> exact ⟨trivial, fun _ => rfl, fun hno => absurd (fun _ => trivial) hno⟩
    | string t =>
      have heq : valueEquals host (.string s) (.string t) = (s == t) := by
        rw [valueEquals, takeWhile_of_plain ha, takeWhile_of_plain hb]
      cases op with
      | plus =>
        cases hc
        refine ⟨?_, fun hshort => concat_of_le ha hb (hshort rfl), fun hno => concat_of_gt ?_⟩
        · simpa [Literal.Plain] using ⟨ha, hb⟩
        · by_contra hle
          exact hno fun _ => Nat.le_of_not_lt hle
      | eqEq =>
        cases hc
        exact ⟨trivial, fun _ => congrArg (fun q => Except.ok (Value.bool q)) heq, fun hno => absurd (fun h => by cases h) hno⟩
      | bangEq =>
        cases hc
        exact ⟨trivial, fun _ => congrArg (fun q => Except.ok (Value.bool !q)) heq, fun hno => absurd (fun h => by cases h) hno⟩
      | minus | star | slash | percent | and | or | bitAnd | bitOr | bitXor | lt | ltEq | gt | gtEq => cases hc

theorem constantOf_kind (hc : constantOf op a b = some c) : c.kind = binaryKind op a.kind b.kind := by
  cases a with
  | int x =>
    cases b with
    | int y =>
      cases op with
      | plus | minus | star =>
        obtain ⟨-, rfl⟩ := constantInt_eq_some hc
        rfl
      | slash | percent =>
        simp only [constantOf] at hc
        split_ifs at hc
        obtain ⟨-, rfl⟩ := constantInt_eq_some hc
        rfl
      | and | or | bitAnd | bitOr | bitXor | eqEq | bangEq | lt | ltEq | gt | gtEq => cases hc <;> rfl
    | bool | string | double | bigint | nil => cases op <;> cases hc <;> rfl
  | bool x | string s | double d | bigint t | nil => cases b <;> cases op <;> cases hc <;> rfl

end Tablo.Folding
