import Tablo.BigintArith
import Mathlib.Data.Int.Bitwise

/-! The bitwise operations of `bigint.c`, on a window of two's complement limbs. -/

namespace Tablo.Bigint

open List Nat

variable (x a b : ObjBigInt) (op : BigIntBitOp)

def bigintAbsLimbAt (index : Nat) : Nat := x.limbs.getD index 0

/-- `~` on a `uint32_t`. -/
def not32 (limb : Nat) : Nat := limbBase - 1 - limb

def bigintTwosComplementLimbAt (index carry : Nat) : Nat × Nat :=
  let limb := bigintAbsLimbAt x index
  if x.sign ≥ 0 then (limb, carry) else ((not32 limb + carry) % limbBase, (not32 limb + carry) / limbBase)

def negateLoop : Nat → List Nat → List Nat
  | _, [] => []
  | carry, x :: limbs => (not32 x + carry) % limbBase :: negateLoop ((not32 x + carry) / limbBase) limbs

def bigintFromTwosComplementLimbs (limbs : List Nat) : ObjBigInt :=
  if limbs = [] then bigintFromLimbs 0 []
  else if limbs.getLastD 0 &&& 0x80000000 = 0 then bigintFromLimbs 1 limbs
  else bigintFromLimbs (-1) (negateLoop 1 limbs)

inductive BigIntBitOp where
  | and
  | or
  | xor
  deriving DecidableEq, Repr

def BigIntBitOp.apply (x y : Nat) : BigIntBitOp → Nat
  | .and => x &&& y
  | .or => x ||| y
  | .xor => x ^^^ y

def bitwiseLoop (a b : ObjBigInt) (op : BigIntBitOp) : List Nat → Nat → Nat → List Nat
  | [], _, _ => []
  | i :: rest, carryA, carryB =>
    let la := bigintTwosComplementLimbAt a i carryA
    let lb := bigintTwosComplementLimbAt b i carryB
    op.apply la.1 lb.1 :: bitwiseLoop a b op rest la.2 lb.2

def startCarry : Nat := if x.sign < 0 then 1 else 0

def bigintBitwiseBinaryOp : ObjBigInt :=
  let outCount := (if a.limbs.length > b.limbs.length then a.limbs.length else b.limbs.length) + 1
  bigintFromTwosComplementLimbs (bitwiseLoop a b op (range outCount) (startCarry a) (startCarry b))

def objBigintBitAnd : ObjBigInt := bigintBitwiseBinaryOp a b .and

def objBigintBitOr : ObjBigInt := bigintBitwiseBinaryOp a b .or

def objBigintBitXor : ObjBigInt := bigintBitwiseBinaryOp a b .xor

def notLoop (a : ObjBigInt) : List Nat → Nat → List Nat
  | [], _ => []
  | i :: rest, carry =>
    let limb := bigintTwosComplementLimbAt a i carry
    not32 limb.1 :: notLoop a rest limb.2

def objBigintBitNot (a : ObjBigInt) : ObjBigInt :=
  bigintFromTwosComplementLimbs (notLoop a (range (a.limbs.length + 1)) (startCarry a))

/-! ### Bits of limbs -/

variable {l : List Nat} {x : ObjBigInt} {n : Nat}

theorem limbBase_pow (n : Nat) : limbBase ^ n = 2 ^ (32 * n) := (pow_mul 2 32 n).symm

theorem magnitude_lt_two_pow (hl : IsLimbs l) : magnitude l < 2 ^ (32 * l.length) :=
  limbBase_pow l.length ▸ magnitude_lt hl

theorem testBit_limb {y : Nat} (hy : y < limbBase) (l : List Nat) (i : Nat) :
    (magnitude (y :: l)).testBit i = if i < 32 then y.testBit i else (magnitude l).testBit (i - 32) := by
  rw [magnitude_cons, Nat.add_comm]
  exact testBit_two_pow_mul_add (i := 32) (magnitude l) hy i

theorem magnitude_negateLoop (hl : IsLimbs l) {carry : Nat} (hc : carry ≤ 1) :
    IsLimbs (negateLoop carry l) ∧ (negateLoop carry l).length = l.length ∧
      ∃ out, magnitude (negateLoop carry l) + limbBase ^ l.length * out + magnitude l + 1 = limbBase ^ l.length + carry := by
  induction l generalizing carry with
  | nil => exact ⟨isLimbs_nil, rfl, carry, by simp [negateLoop, Nat.add_comm]⟩
  | cons x l ih =>
    obtain ⟨hx, hl⟩ := isLimbs_cons.mp hl
    have hc' : (not32 x + carry) / limbBase ≤ 1 := by
      simp only [not32, limbBase]
      omega
    obtain ⟨hlimbs, hlen, out, hsum⟩ := ih hl hc'
    refine ⟨isLimbs_cons.mpr ⟨mod_lt _ (by decide), hlimbs⟩, congrArg (· + 1) hlen, out, ?_⟩
    rw [negateLoop, magnitude_cons, magnitude_cons, length_cons, pow_succ', Nat.mul_assoc]
    simp only [not32, limbBase] at hx hsum ⊢
    omega

theorem magnitude_negated (hl : IsLimbs l) (h0 : magnitude l ≠ 0) :
    magnitude (negateLoop 1 l) = 2 ^ (32 * l.length) - magnitude l := by
  obtain ⟨-, -, out, hsum⟩ := magnitude_negateLoop hl le_rfl
  rw [limbBase_pow] at hsum
  cases out with
  | zero => omega
  | succ out =>
    rw [mul_succ] at hsum
    omega

theorem testBit_neg_sub {m w : Nat} (hm : m < 2 ^ w) (i : Nat) :
    (-((2 ^ w - m : Nat) : Int)).testBit i = !(decide (i < w) && !m.testBit i) := by
  rw [← testBit_two_pow_sub_succ hm]
  obtain ⟨k, hk⟩ : ∃ k, 2 ^ w - m = k + 1 := ⟨2 ^ w - m - 1, by omega⟩
  rw [hk, show 2 ^ w - (m + 1) = k by omega]
  rfl

theorem top_clear_iff (hl : IsLimbs l) (hlen : l.length = n + 1) :
    l.getLastD 0 &&& 0x80000000 = 0 ↔ (magnitude l).testBit (32 * n + 31) = false := by
  obtain ⟨r, t, rfl⟩ := (eq_nil_or_concat' l).resolve_left (by rintro rfl; cases hlen)
  obtain ⟨hr, -⟩ := isLimbs_append.mp hl
  obtain rfl : r.length = n := by simpa using hlen
  rw [getLastD_concat, show 0x80000000 = 2 ^ 31 from rfl, and_two_pow, magnitude_append, magnitude_singleton,
    limbBase_pow, Nat.add_comm, testBit_two_pow_mul_add t (magnitude_lt_two_pow hr), if_neg (by omega),
    Nat.add_sub_cancel_left]
  cases t.testBit 31 <;> decide

/-- A number in normal form with these bits, of which all from some point on are its sign. -/
def HasBits (r : ObjBigInt) (bits : Nat → Bool) (neg : Bool) : Prop :=
  r.Normal ∧ (∀ i, r.value.testBit i = bits i) ∧ decide (r.value < 0) = neg

theorem hasBits_fromTwos {g : Nat → Bool} {sign : Bool} (hl : IsLimbs l) (hlen : l.length = n + 1)
    (hbits : ∀ i, (magnitude l).testBit i = (decide (i < 32 * (n + 1)) && g i)) (hsign : ∀ i, 32 * n ≤ i → g i = sign) :
    HasBits (bigintFromTwosComplementLimbs l) g sign := by
  have htop : (magnitude l).testBit (32 * n + 31) = sign := by
    rw [hbits, hsign _ (by omega), decide_eq_true (by omega), Bool.true_and]
  have hbeyond (i : Nat) (hi : ¬ i < 32 * (n + 1)) : g i = sign := hsign i (by omega)
  have hlt := magnitude_lt_two_pow hl
  rw [hlen] at hlt
  rw [HasBits, bigintFromTwosComplementLimbs, if_neg (by rintro rfl; cases hlen)]
  cases sign with
  | false =>
    rw [if_pos ((top_clear_iff hl hlen).mpr htop)]
    obtain ⟨hnormal, hval⟩ := computes_fromLimbs hl (.inl rfl)
    rw [Int.one_mul] at hval
    rw [hval]
    refine ⟨hnormal, fun i => (hbits i).trans ?_, decide_eq_false (by omega)⟩
    by_cases hi : i < 32 * (n + 1)
    · simp [hi]
    · simp [hbeyond i hi]
  | true =>
    rw [if_neg (mt (top_clear_iff hl hlen).mp (by rw [htop]; decide))]
    have h0 : magnitude l ≠ 0 := fun h => by simp [h] at htop
    obtain ⟨hnormal, hval⟩ := computes_fromLimbs (magnitude_negateLoop hl le_rfl).1 (.inr rfl)
    rw [magnitude_negated hl h0, hlen, Int.neg_mul, Int.one_mul] at hval
    rw [hval]
    refine ⟨hnormal, fun i => (testBit_neg_sub hlt i).trans ?_, decide_eq_true (by omega)⟩
    rw [hbits]
    by_cases hi : i < 32 * (n + 1)
    · simp [hi]
    · simp [hbeyond i hi]

/-! ### The limbs of a number -/

def lane (x : ObjBigInt) : List Nat → Nat → List Nat
  | [], _ => []
  | i :: rest, carry =>
    let limb := bigintTwosComplementLimbAt x i carry
    limb.1 :: lane x rest limb.2

theorem lane_of_nonneg (h : x.sign ≥ 0) (is : List Nat) (carry : Nat) :
    lane x is carry = is.map (bigintAbsLimbAt x) := by
  induction is generalizing carry with
  | nil => rfl
  | cons i is ih => rw [lane, bigintTwosComplementLimbAt, if_pos h, ih, map_cons]

theorem lane_of_neg (h : ¬ x.sign ≥ 0) (is : List Nat) (carry : Nat) :
    lane x is carry = negateLoop carry (is.map (bigintAbsLimbAt x)) := by
  induction is generalizing carry with
  | nil => rfl
  | cons i is ih => rw [lane, bigintTwosComplementLimbAt, if_neg h, ih, map_cons, negateLoop]

theorem bitwiseLoop_eq (is : List Nat) (ca cb : Nat) :
    bitwiseLoop a b op is ca cb = zipWith op.apply (lane a is ca) (lane b is cb) := by
  induction is generalizing ca cb with
  | nil => rfl
  | cons i is ih => rw [bitwiseLoop, ih, lane, lane, zipWith_cons_cons]

theorem map_absLimbAt (l : List Nat) (hn : l.length ≤ n) :
    (range n).map (l.getD · 0) = l ++ replicate (n - l.length) 0 := by
  apply ext_getElem
  · simp [hn]
  · intro i _ _
    simp only [getElem_map, getElem_range, getElem_append, getElem_replicate]
    split_ifs with hi
    · exact getD_eq_getElem l 0 hi
    · exact getD_eq_default _ _ (Nat.le_of_not_lt hi)

theorem testBit_beyond (hx : x.Normal) {i : Nat} (hi : 32 * x.limbs.length ≤ i) :
    x.value.testBit i = decide (x.value < 0) := by
  have hlt := (magnitude_lt_two_pow hx.limbs_lt).trans_le (Nat.pow_le_pow_right (by decide) hi)
  rw [hx.magnitude_eq] at hlt
  cases hv : x.value with
  | ofNat m =>
    rw [hv] at hlt
    exact testBit_lt_two_pow hlt
  | negSucc m =>
    rw [hv] at hlt
    rw [decide_eq_true (Int.negSucc_lt_zero m)]
    exact congrArg not (testBit_lt_two_pow ((lt_succ_self m).trans hlt))

/-- A window over all limbs of a number has its bits. -/
theorem lane_bits (hx : x.Normal) (hn : x.limbs.length ≤ n) :
    IsLimbs (lane x (range n) (startCarry x)) ∧ (lane x (range n) (startCarry x)).length = n ∧
      ∀ i, (magnitude (lane x (range n) (startCarry x))).testBit i = (decide (i < 32 * n) && x.value.testBit i) := by
  have hpad : (range n).map (bigintAbsLimbAt x) = x.limbs ++ replicate (n - x.limbs.length) 0 := map_absLimbAt _ hn
  have hlimbs : IsLimbs ((range n).map (bigintAbsLimbAt x)) :=
    hpad ▸ isLimbs_append.mpr ⟨hx.limbs_lt, isLimbs_replicate_zero _⟩
  have hlen : ((range n).map (bigintAbsLimbAt x)).length = n := by simp
  have hmag : magnitude ((range n).map (bigintAbsLimbAt x)) = x.value.natAbs := by
    rw [hpad, magnitude_append, magnitude_replicate_zero, Nat.mul_zero, Nat.add_zero, hx.magnitude_eq]
  have hlt := magnitude_lt_two_pow hlimbs
  rw [startCarry]
  split_ifs with hs
  · have hneg := hx.sign_neg_iff.mp hs
    obtain ⟨hlimbs', hlen', -⟩ := magnitude_negateLoop hlimbs le_rfl
    rw [lane_of_neg (Int.not_le.mpr hs)]
    refine ⟨hlimbs', hlen'.trans hlen, fun i => ?_⟩
    rw [magnitude_negated hlimbs (by omega), hlen, hmag]
    obtain ⟨m, hm⟩ := Int.eq_negSucc_of_lt_zero hneg
    rw [hmag, hlen, hm] at hlt
    rw [hm]
    exact testBit_two_pow_sub_succ ((lt_succ_self m).trans hlt) i
  · have hpos := Int.not_lt.mp (mt hx.sign_neg_iff.mpr hs)
    rw [lane_of_nonneg (Int.not_lt.mp hs)]
    refine ⟨hlimbs, hlen, fun i => ?_⟩
    obtain ⟨m, hm⟩ := Int.eq_ofNat_of_zero_le hpos
    rw [hmag, hlen, hm] at hlt
    rw [hmag, hm]
    by_cases hi : i < 32 * n
    · rw [decide_eq_true hi]
      rfl
    · rw [decide_eq_false hi]
      exact testBit_lt_two_pow (hlt.trans_le (Nat.pow_le_pow_right (by decide) (Nat.not_lt.mp hi)))

/-! ### Limb by limb -/

def BigIntBitOp.onBits : BigIntBitOp → Bool → Bool → Bool
  | .and => Bool.and
  | .or => Bool.or
  | .xor => Bool.xor

theorem zipWith_bits {S T : List Nat} (hS : IsLimbs S) (hT : IsLimbs T)
    (hlen : S.length = T.length) : IsLimbs (zipWith op.apply S T) ∧ ∀ i,
      (magnitude (zipWith op.apply S T)).testBit i = op.onBits ((magnitude S).testBit i) ((magnitude T).testBit i) := by
  have hf : op.onBits false false = false := by cases op <;> rfl
  induction S generalizing T with
  | nil => 
    obtain rfl := length_eq_zero_iff.mp hlen.symm
    exact ⟨isLimbs_nil, fun i => by simp [hf]⟩
  | cons x S ih =>
    cases T with
    | nil => cases hlen
    | cons y T =>
      obtain ⟨hx, hS⟩ := isLimbs_cons.mp hS
      obtain ⟨hy, hT⟩ := isLimbs_cons.mp hT
      obtain ⟨hrest, heq⟩ := ih hS hT (Nat.succ.inj hlen)
      have hop : op.apply x y = bitwise op.onBits x y := by cases op <;> rfl
      have hlt : op.apply x y < 2 ^ 32 := hop ▸ bitwise_lt_two_pow hx hy
      refine ⟨isLimbs_cons.mpr ⟨hlt, hrest⟩, fun i => ?_⟩
      rw [zipWith_cons_cons, testBit_limb hlt, testBit_limb hx, testBit_limb hy, heq, hop, testBit_bitwise hf]
      split_ifs <;> rfl

theorem magnitude_map_not32 (hl : IsLimbs l) :
    IsLimbs (l.map not32) ∧ magnitude (l.map not32) = limbBase ^ l.length - (magnitude l + 1) := by
  induction l with
  | nil => exact ⟨isLimbs_nil, rfl⟩
  | cons x l ih =>
    obtain ⟨hx, hl⟩ := isLimbs_cons.mp hl
    obtain ⟨hlimbs, hval⟩ := ih hl
    have hlt := magnitude_lt hl
    rw [map_cons, magnitude_cons, magnitude_cons, hval, isLimbs_cons, length_cons, not32]
    simp only [limbBase] at hx hlt ⊢
    exact ⟨⟨by omega, hlimbs⟩, by omega⟩

theorem notLoop_eq (a : ObjBigInt) (is : List Nat) (carry : Nat) :
    notLoop a is carry = (lane a is carry).map not32 := by
  induction is generalizing carry with
  | nil => rfl
  | cons i is ih => rw [notLoop, ih, lane, map_cons]

theorem hasBits_bitNot (hx : x.Normal) :
    HasBits (objBigintBitNot x) (fun i => !x.value.testBit i) (!decide (x.value < 0)) := by
  obtain ⟨hlimbs, hlen, hbits⟩ := lane_bits hx (le_succ x.limbs.length)
  obtain ⟨hlimbs', hmag⟩ := magnitude_map_not32 hlimbs
  have hlt := magnitude_lt_two_pow hlimbs
  rw [objBigintBitNot, notLoop_eq]
  refine hasBits_fromTwos hlimbs' (by rw [length_map, hlen]) (fun i => ?_) fun i hi => by rw [testBit_beyond hx hi]
  rw [hmag, limbBase_pow, testBit_two_pow_sub_succ hlt, hbits, hlen]
  by_cases hi : i < 32 * (x.limbs.length + 1) <;> simp [hi]

theorem eq_of_testBit_eq {v w : Int} (hsign : decide (v < 0) = decide (w < 0)) (h : ∀ i, v.testBit i = w.testBit i) :
    v = w := by
  cases v with
  | ofNat m =>
    cases w with
    | ofNat n => exact congrArg Int.ofNat (Nat.eq_of_testBit_eq h)
    | negSucc n =>
      simp at hsign
      omega
  | negSucc m =>
    cases w with
    | ofNat n =>
      simp at hsign
      omega
    | negSucc n => exact congrArg Int.negSucc (Nat.eq_of_testBit_eq fun i => Bool.not_inj (h i))

def CombinesBits (op : ObjBigInt → ObjBigInt → ObjBigInt) (f : Bool → Bool → Bool) (a b : ObjBigInt) : Prop :=
  HasBits (op a b) (fun i => f (a.value.testBit i) (b.value.testBit i)) (f (decide (a.value < 0)) (decide (b.value < 0)))

theorem combinesBits {a b : ObjBigInt} (ha : a.Normal) (hb : b.Normal) (op : BigIntBitOp) :
    CombinesBits (bigintBitwiseBinaryOp · · op) op.onBits a b := by
  rw [CombinesBits, bigintBitwiseBinaryOp]
  generalize hn : (if a.limbs.length > b.limbs.length then a.limbs.length else b.limbs.length) = n
  have hle : a.limbs.length ≤ n ∧ b.limbs.length ≤ n := by
    rw [← hn]
    split_ifs <;> omega
  obtain ⟨hlimbsA, hlenA, hbitsA⟩ := lane_bits ha (le_succ_of_le hle.1)
  obtain ⟨hlimbsB, hlenB, hbitsB⟩ := lane_bits hb (le_succ_of_le hle.2)
  obtain ⟨hlimbs, hbits⟩ := zipWith_bits op hlimbsA hlimbsB (hlenA.trans hlenB.symm)
  rw [bitwiseLoop_eq]
  refine hasBits_fromTwos hlimbs (by rw [length_zipWith, hlenA, hlenB, Nat.min_self]) (fun i => ?_) fun i hi => ?_
  · rw [hbits, hbitsA, hbitsB]
    have hf : op.onBits false false = false := by cases op <;> rfl
    by_cases hi : i < 32 * (n + 1) <;> simp [hi, hf]
  · rw [testBit_beyond ha (by omega), testBit_beyond hb (by omega)]

theorem bigint_bitwise_exact (a b : NormalBigInt) :
    CombinesBits objBigintBitAnd Bool.and a.toObjBigInt b.toObjBigInt ∧
    CombinesBits objBigintBitOr Bool.or a.toObjBigInt b.toObjBigInt ∧
    CombinesBits objBigintBitXor Bool.xor a.toObjBigInt b.toObjBigInt ∧
    HasBits (objBigintBitNot a.toObjBigInt) (fun i => !a.value.testBit i) (!decide (a.value < 0)) ∧
    (objBigintBitNot a.toObjBigInt).value = -a.value - 1 := by
  have hnot := hasBits_bitNot a.normal
  refine ⟨combinesBits a.normal b.normal .and, combinesBits a.normal b.normal .or, combinesBits a.normal b.normal .xor,
    hnot, ?_⟩
  obtain ⟨-, hbits, hsign⟩ := hnot
  have hlnot : -a.value - 1 = Int.lnot a.value := by
    cases a.value with
    | ofNat m =>
      rw [Int.lnot, Int.ofNat_eq_natCast]
      omega
    | negSucc m =>
      rw [Int.lnot]
      omega
  apply eq_of_testBit_eq
  · rw [hsign, ← decide_not, decide_eq_decide]
    omega
  · intro i
    rw [hbits, hlnot, Int.testBit_lnot]

end Tablo.Bigint
