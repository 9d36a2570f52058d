import Tablo.FoldingConstants

/-! The identities of the folder: which operand each one keeps, and what the operator it drops does to
the value of that operand. -/

namespace Tablo.Folding

variable {B O K S : Type} {v : Value B O} {host : Host B O} {op : BinaryOp} {kl kr : Kind} {c d : Literal}

/-! ### Folded operands -/

/-- `f` is what `e` folds to: of the same kind, and the literal that `e` is, if any. -/
structure FoldsTo (e f : Expr K) : Prop where
  kind_eq : f.kind = e.kind
  literal_iff : ∀ c, f = .literal c ↔ constant e = some c
  plain : ∀ c, constant e = some c → c.Plain

section FoldsTo

variable {e f : Expr K} (h : FoldsTo e f)

include h

theorem FoldsTo.kind_literal (hc : constant e = some c) : e.kind = c.kind := by
  rw [← h.kind_eq, (h.literal_iff c).mpr hc]
  rfl

theorem FoldsTo.isInt_iff (n : Int64) : f.isInt n = true ↔ constant e = some (.int n) := by
  rw [← h.literal_iff]
  cases f with
  | literal c => cases c <;> simp [Expr.isInt]
  | leaf | binary | unary | cast => simp [Expr.isInt]

theorem FoldsTo.isBool_iff (b : Bool) : f.isBool b = true ↔ constant e = some (.bool b) := by
  rw [← h.literal_iff]
  cases f with
  | literal c => cases c <;> simp [Expr.isBool]
  | leaf | binary | unary | cast => simp [Expr.isBool]

theorem FoldsTo.isEmptyString_iff : f.isEmptyString = true ↔ constant e = some (.string []) := by
  rw [← h.literal_iff]
  cases f with
  | literal c => cases c <;> simp [Expr.isEmptyString]
  | leaf | binary | unary | cast => simp [Expr.isEmptyString]

theorem FoldsTo.isDouble (p : UInt64 → Bool) : f.isDouble p = false := by
  cases f with
  | literal c =>
    have hplain := h.plain c ((h.literal_iff c).mp rfl)
    cases c with
    | double d => cases hplain
    | int | bool | string | bigint | nil => rfl
  | leaf | binary | unary | cast => rfl

end FoldsTo

def Side.pick (left right : Expr K) : Side → Expr K
  | .left => left
  | .right => right
  | .value c => .literal c

theorem foldIdentity_eq (ds : Doubles) (op : BinaryOp) {l r fl fr : Expr K} (hl : FoldsTo l fl) (hr : FoldsTo r fr) :
    foldIdentity ds op fl fr = (side op l.kind r.kind (constant l) (constant r)).map (Side.pick fl fr) := by
  have hld := hl.isDouble
  have hrd := hr.isDouble
  cases op with
  | plus =>
    simp only [foldIdentity, side, hl.kind_eq, hr.kind_eq, hl.isInt_iff, hr.isInt_iff, hl.isEmptyString_iff,
      hr.isEmptyString_iff, hld]
    split_ifs <;> first | rfl | simp_all
  | minus | star | slash =>
    simp only [foldIdentity, side, hl.kind_eq, hr.kind_eq, hl.isInt_iff, hr.isInt_iff, hrd]
    split_ifs <;> first | rfl | simp_all
  | and | or =>
    simp only [foldIdentity, side, hl.kind_eq, hr.kind_eq, hl.isBool_iff, hr.isBool_iff]
    split_ifs <;> rfl
  | percent | bitAnd | bitOr | bitXor | eqEq | bangEq | lt | ltEq | gt | gtEq => rfl

/-! ### Layers -/

/-- The string the machine returns is cut at a zero byte that the folded one still has. -/
def Cut (v : Value B O) (x : Except Fault (Value B O)) : Prop :=
  ∃ t u, x = .ok (.string t) ∧ v = .string u ∧ 0 ∉ t ∧ 0 ∈ u

def Spoils (v : Value B O) (x : Except Fault (Value B O)) : Prop := (∃ e, x = .error e) ∨ Cut v x

def after (host : Host B O) (op : BinaryOp) (left right : Kind) (a : Value B O) (b : Value B O) :
    Except Fault (Value B O) :=
  (shortCircuit op a).getD (binaryOp host op left right a b)

theorem opInt_not_int (h : ¬ IsInt v) (w : Value B O) :
    (∃ e, opInt op v w = .error e) ∧ ∃ e, opInt op w v = .error e := by
  cases v with
  | int n => exact absurd ⟨n, rfl⟩ h
  | nil | bool | string | double | bigint | object =>
    refine ⟨⟨_, rfl⟩, ?_⟩
    cases w <;> exact ⟨_, rfl⟩

theorem concat_not_short (h : ¬ IsShort host v) : Spoils v (vmComputeArithmeticOp host .plus v (.string [])) ∧
    Spoils v (vmComputeArithmeticOp host .plus (.string []) v) := by
  cases v with
  | string s =>
    change Spoils _ (concat host s []) ∧ Spoils _ (concat host [] s)
    by_cases hle : s.length ≤ host.maxStringLength
    · have hzero : 0 ∈ s := by
        by_contra hz
        exact h ⟨s, rfl, hz, hle⟩
      have hnot : ∀ t : List UInt8, 0 ∉ t.takeWhile (· ≠ 0) := by
        intro t ht
        simpa using List.mem_takeWhile_imp ht
      constructor
      · rw [concat, if_neg (by simpa using hle)]
        exact .inr ⟨_, s, rfl, rfl, hnot _, hzero⟩
      · rw [concat, if_neg (by simpa using hle)]
        exact .inr ⟨_, s, rfl, rfl, hnot _, hzero⟩
    · constructor <;> exact .inl ⟨_, concat_of_gt (by simpa using hle)⟩
  | nil | int | bool | double | bigint | object => exact ⟨.inl ⟨_, rfl⟩, .inl ⟨_, rfl⟩⟩

theorem opInt_neutral_right (n : Int64) : opInt .plus (.int n) (.int 0) = (.ok (.int n) : Except Fault (Value B O)) ∧
      opInt .minus (.int n) (.int 0) = (.ok (.int n) : Except Fault (Value B O)) ∧
      opInt .star (.int n) (.int 1) = (.ok (.int n) : Except Fault (Value B O)) ∧
      opInt .slash (.int n) (.int 1) = (.ok (.int n) : Except Fault (Value B O)) := by
  have hone : (1 : Int64).toInt = 1 := rfl
  have hne : (1 : Int64) ≠ 0 := by decide
  simp [opInt, arithmeticInt, cAdd, cSub, cMul, cDiv, int64Of_toInt, ofInt, hone]

theorem opInt_neutral_left (n : Int64) : opInt .plus (.int 0) (.int n) = (.ok (.int n) : Except Fault (Value B O)) ∧
      opInt .star (.int 1) (.int n) = (.ok (.int n) : Except Fault (Value B O)) := by
  have hone : (1 : Int64).toInt = 1 := rfl
  simp [opInt, arithmeticInt, cAdd, cMul, int64Of_toInt, ofInt]

theorem concat_short (h : IsShort host v) : vmComputeArithmeticOp host .plus v (.string []) = .ok v ∧
      vmComputeArithmeticOp host .plus (.string []) v = .ok v := by
  obtain ⟨s, rfl, hzero, hle⟩ := h
  have hnil : (0 : UInt8) ∉ ([] : List UInt8) := List.not_mem_nil
  constructor
  · refine (concat_of_le hzero hnil (by simpa using hle)).trans ?_
    rw [List.append_nil]
  · exact concat_of_le hnil hzero (by simpa using hle)

inductive LeftRule : BinaryOp → Kind → Kind → Literal → Prop
  | plus : LeftRule .plus .int .int (.int 0)
  | minus : LeftRule .minus .int .int (.int 0)
  | star : LeftRule .star .int .int (.int 1)
  | slash : LeftRule .slash .int .int (.int 1)
  | concat : LeftRule .plus .string .string (.string [])
  | and : LeftRule .and .bool .bool (.bool true)
  | or : LeftRule .or .bool .bool (.bool false)

inductive RightRule : BinaryOp → Kind → Kind → Literal → Prop
  | plus : RightRule .plus .int .int (.int 0)
  | star : RightRule .star .int .int (.int 1)
  | concat : RightRule .plus .string .string (.string [])
  | and : RightRule .and .bool .bool (.bool true)
  | or : RightRule .or .bool .bool (.bool false)

variable {cl cr : Option Literal}

def Side.Follows (op : BinaryOp) (kl kr : Kind) (cl cr : Option Literal) : Side → Prop
  | .left => ∃ c, cr = some c ∧ LeftRule op kl kr c
  | .right => ∃ c, cl = some c ∧ RightRule op kl kr c
  | .value d => kl = .bool ∧ cl = some d ∧ ((op = .and ∧ d = .bool false) ∨ (op = .or ∧ d = .bool true))

theorem side_follows (hl : ∀ c, cl = some c → kl = c.kind) (hr : ∀ c, cr = some c → kr = c.kind) {x : Side}
    (h : side op kl kr cl cr = some x) : x.Follows op kl kr cl cr := by
  cases op with
  | plus =>
    simp only [side] at h
    split_ifs at h with hint hzero hzero hleft hright <;> cases h
    · obtain ⟨rfl, rfl⟩ := hint
      exact ⟨_, hzero, .plus⟩
    · obtain ⟨rfl, rfl⟩ := hint
      exact ⟨_, hzero, .plus⟩
    · obtain ⟨hempty, rfl⟩ := hleft
      obtain rfl := hl _ hempty
      exact ⟨_, hempty, .concat⟩
    · obtain ⟨hempty, rfl⟩ := hright
      obtain rfl := hr _ hempty
      exact ⟨_, hempty, .concat⟩
  | minus =>
    simp only [side] at h
    split_ifs at h with hint
    cases h
    obtain ⟨rfl, rfl, hzero⟩ := hint
    exact ⟨_, hzero, .minus⟩
  | star =>
    simp only [side] at h
    split_ifs at h with hint hone hone <;> cases h <;> obtain ⟨rfl, rfl⟩ := hint <;> exact ⟨_, hone, .star⟩
  | slash =>
    simp only [side] at h
    split_ifs at h with hint
    cases h
    obtain ⟨rfl, rfl, hone⟩ := hint
    exact ⟨_, hone, .slash⟩
  | and =>
    simp only [side] at h
    split_ifs at h with hbool hfalse htrue htrue <;> cases h <;> obtain ⟨rfl, rfl⟩ := hbool
    · exact ⟨rfl, hfalse, .inl ⟨rfl, rfl⟩⟩
    · exact ⟨_, htrue, .and⟩
    · exact ⟨_, htrue, .and⟩
  | or =>
    simp only [side] at h
    split_ifs at h with hbool htrue hfalse hfalse <;> cases h <;> obtain ⟨rfl, rfl⟩ := hbool
    · exact ⟨rfl, htrue, .inr ⟨rfl, rfl⟩⟩
    · exact ⟨_, hfalse, .or⟩
    · exact ⟨_, hfalse, .or⟩
  | percent | bitAnd | bitOr | bitXor | eqEq | bangEq | lt | ltEq | gt | gtEq => cases h

theorem LeftRule.result (host : Host B O) (h : LeftRule op kl kr c) (v : Value B O) :
    (PassesLeft host op kl v → after host op kl kr v (c.value host) = .ok v) ∧
      (¬ PassesLeft host op kl v → Spoils v (after host op kl kr v (c.value host))) := by
  cases h with
  | plus | minus | star | slash =>
    refine ⟨?_, fun hno => .inl (opInt_not_int hno _).1⟩
    rintro ⟨n, rfl⟩
    obtain ⟨hplus, hminus, hstar, hslash⟩ := opInt_neutral_right n
    assumption
  | concat => exact ⟨fun hv => (concat_short hv).1, fun hno => (concat_not_short hno).1⟩
  | and | or =>
    constructor
    · rintro ⟨b, rfl⟩
      cases b <;> rfl
    · intro hno
      cases v with
      | bool b => exact absurd ⟨b, rfl⟩ hno
      | nil | int | string | double | bigint | object => exact .inl ⟨_, rfl⟩

theorem RightRule.result (host : Host B O) (h : RightRule op kl kr c) : shortCircuit op (c.value host) = none ∧ ∀ v,
      (PassesRight host op kr v → binaryOp host op kl kr (c.value host) v = .ok v) ∧
      (¬ PassesRight host op kr v → Spoils v (binaryOp host op kl kr (c.value host) v)) := by
  refine ⟨by cases h <;> rfl, fun v => ?_⟩
  cases h with
  | plus | star =>
    refine ⟨?_, fun hno => .inl (opInt_not_int hno _).2⟩
    rintro ⟨n, rfl⟩
    obtain ⟨hplus, hstar⟩ := opInt_neutral_left n
    assumption
  | concat => exact ⟨fun hv => (concat_short hv).2, fun hno => (concat_not_short hno).2⟩
  | and | or => exact ⟨fun _ => rfl, fun hno => absurd trivial hno⟩

theorem not_isShort_constant (hplain : c.Plain) (hkind : c.kind = .string)
    (h : ¬ IsShort host (c.value host)) : ∃ s, c = .string s ∧ host.maxStringLength < s.length := by
  cases c with
  | string s =>
    refine ⟨s, rfl, ?_⟩
    by_contra hle
    exact h ⟨s, rfl, hplain, Nat.le_of_not_lt hle⟩
  | int | bool | double | bigint | nil => cases hkind

theorem isInt_constant (host : Host B O) (hkind : c.kind = .int) : IsInt (c.value host) := by
  cases c with
  | int n => exact ⟨n, rfl⟩
  | string | bool | double | bigint | nil => cases hkind

theorem isBool_constant (host : Host B O) (hkind : c.kind = .bool) : IsBool (c.value host) := by
  cases c with
  | bool b => exact ⟨b, rfl⟩
  | string | int | double | bigint | nil => cases hkind

theorem LeftRule.constant (host : Host B O) (h : LeftRule op d.kind kr c)
    (hplain : d.Plain) (hno : ¬ PassesLeft host op d.kind (d.value host)) :
    after host op d.kind kr (d.value host) (c.value host) = .error tooLong := by
  generalize hk : d.kind = kl at h hno
  cases h with
  | plus | minus | star | slash => exact absurd (isInt_constant host hk) hno
  | and | or => exact absurd (isBool_constant host hk) hno
  | concat =>
    obtain ⟨s, rfl, hlt⟩ := not_isShort_constant hplain hk hno
    exact concat_of_gt (by simpa using hlt)

theorem RightRule.constant (host : Host B O)
    (h : RightRule op kl d.kind c) (hplain : d.Plain) (hno : ¬ PassesRight host op d.kind (d.value host)) :
    binaryOp host op kl d.kind (c.value host) (d.value host) = .error tooLong := by
  generalize hk : d.kind = kr at h hno
  cases h with
  | plus | star => exact absurd (isInt_constant host hk) hno
  | and | or => exact absurd trivial hno
  | concat =>
    obtain ⟨s, rfl, hlt⟩ := not_isShort_constant hplain hk hno
    exact concat_of_gt (by simpa using hlt)

theorem LeftRule.kind_eq (h : LeftRule op kl kr c) : binaryKind op kl kr = kl := by
  cases h <;> rfl

theorem RightRule.kind_eq (h : RightRule op kl kr c) : binaryKind op kl kr = kr := by
  cases h <;> rfl

end Tablo.Folding
