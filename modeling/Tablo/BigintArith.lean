import Tablo.BigintInplace
import Tablo.ModPowCorrect

/-! Sum, difference, product, negation and order of big integers, and their
conversion from and to 64-bit integers. -/

namespace Tablo.Bigint

open Int

open Globals (objBigintMulSmallInplace objBigintMulSmallInplace_spec)

def objBigintSub (a b : ObjBigInt) : ObjBigInt := objBigintAdd a { b with sign := -b.sign }

def objBigintCompare (a b : ObjBigInt) : Int :=
  if a.sign ≠ b.sign then (if a.sign < b.sign then -1 else 1)
  else if a.sign = 0 then 0
  else
    let cmp := bigintCompareAbsLimbs a.limbs b.limbs
    if a.sign < 0 then -cmp else cmp

def wordLimbs : Nat → Nat → List Nat
  | 0, _ => []
  | n + 1, x => if x = 0 then [] else x % limbBase :: wordLimbs n (x / limbBase)

def objBigintFromInt64 (value : BitVec 64) : ObjBigInt :=
  if value.toInt = 0 then bigintFromLimbs 0 []
  else
    let absVal := if value.toInt < 0 then u64 ((-(value.toInt + 1)).toNat + 1) else value.toInt.toNat
    bigintFromLimbs (if value.toInt < 0 then -1 else 1) (wordLimbs 2 absVal)

def toInt64Loop (limit : Nat) : List Nat → Option Nat
  | [] => some 0
  | x :: xs => do
    let acc ← toInt64Loop limit xs
    if (limit - x) / limbBase < acc then none else some (u64 (acc * limbBase) + x)

def int64Max : Nat := 2 ^ 63 - 1

def objBigintToInt64 (x : ObjBigInt) : Option Int :=
  if x.sign = 0 then some 0
  else do
    let limit := if x.sign < 0 then int64Max + 1 else int64Max
    let acc ← toInt64Loop limit x.limbs
    if x.sign < 0 then some (if acc = limit then -2 ^ 63 else -acc) else some acc

structure Computes (r : ObjBigInt) (v : Int) : Prop where
  normal : r.Normal
  value : r.value = v

theorem computes_zero : Computes (bigintFromLimbs 0 []) 0 := ⟨bigintFromLimbs_normal isLimbs_nil 0, rfl⟩

theorem computes_fromLimbs {l : List Nat} (hl : IsLimbs l) {sign : Int} (hs : sign = 1 ∨ sign = -1) :
    Computes (bigintFromLimbs sign l) (sign * magnitude l) :=
  ⟨(bigintFromLimbs_signed hl hs).1, (bigintFromLimbs_signed hl hs).2⟩

variable {a b x : ObjBigInt}

theorem ObjBigInt.Normal.negated (h : x.Normal) : ({ x with sign := -x.sign } : ObjBigInt).Normal := by
  refine ⟨h.limbs_lt, h.last_ne, ?_⟩
  rcases h.sign_eq with ⟨hs, hl⟩ | ⟨hs, hl⟩
  · exact .inl ⟨by rw [hs]; rfl, hl⟩
  · refine .inr ⟨?_, hl⟩
    rcases hs with hs | hs
    · exact .inr (by rw [hs])
    · exact .inl (by rw [hs]; rfl)

section

variable (ha : a.Normal)

include ha

theorem computes_add (hb : b.Normal) :
    Computes (objBigintAdd a b) (a.value + b.value) := ⟨(objBigintAdd_spec ha hb).1, (objBigintAdd_spec ha hb).2⟩

theorem computes_sub (hb : b.Normal) :
    Computes (objBigintSub a b) (a.value - b.value) := by
  have h := computes_add ha hb.negated
  rw [ObjBigInt.value, ObjBigInt.value, neg_mul] at h
  exact h

theorem computes_mul (hb : b.Normal) :
    Computes (objBigintMul a b) (a.value * b.value) := ⟨(objBigintMul_spec ha hb).1, (objBigintMul_spec ha hb).2⟩

theorem computes_negate : Computes (objBigintNegate a) (-a.value) := by
  rw [objBigintNegate]
  rcases ha.cases with ⟨hs, hv⟩ | ⟨hs, -, -⟩
  · rw [if_pos hs, hv]
    exact ⟨ha, hv⟩
  · have hs0 : a.sign ≠ 0 := by rcases hs with h | h <;> rw [h] <;> decide
    have hneg : -a.sign = 1 ∨ -a.sign = -1 := by omega
    have h := computes_fromLimbs ha.limbs_lt hneg
    rw [if_neg hs0, ObjBigInt.value, ← neg_mul]
    exact h

theorem objBigintCompare_eq (hb : b.Normal) :
    objBigintCompare a b = (a.value - b.value).sign := by
  have hcmp := bigintCompareAbsLimbs_eq ha.limbs_lt hb.limbs_lt ha.last_ne hb.last_ne
  have hsign : ∀ x : Int, x.sign = if x < 0 then -1 else if 0 < x then 1 else 0 := by
    intro x
    rcases lt_trichotomy x 0 with h | h | h
    · rw [sign_eq_neg_one_of_neg h, if_pos h]
    · subst h
      rfl
    · rw [sign_eq_one_of_pos h, if_neg (by omega), if_pos h]
  rw [hsign, objBigintCompare]
  rcases ha.cases with ⟨hsa, hva⟩ | ⟨hsa, hpa, -⟩ <;> rcases hb.cases with ⟨hsb, hvb⟩ | ⟨hsb, hpb, -⟩
  · rw [hva, hvb, hsa, hsb]
    rfl
  · rw [hva, ObjBigInt.value]
    rcases hsb with h | h <;> rw [h] <;> split_ifs <;> omega
  · rw [ObjBigInt.value]
    rcases hsa with h | h <;> rw [h] <;> split_ifs <;> omega
  · rw [ObjBigInt.value, ObjBigInt.value]
    dsimp only
    rcases hsa with h | h <;> rcases hsb with h' | h' <;> rw [h, h'] <;> split_ifs <;>
      first | omega | contradiction

end

/-! ### 64-bit integers -/

theorem wordLimbs_spec {n x : Nat} (h : x < limbBase ^ n) :
    magnitude (wordLimbs n x) = x ∧ IsLimbs (wordLimbs n x) := by
  induction n generalizing x with
  | zero =>
    have hx : x = 0 := by simpa using h
    exact ⟨hx.symm, isLimbs_nil⟩
  | succ n ih =>
    rw [wordLimbs]
    split_ifs with h0
    · exact ⟨h0.symm, isLimbs_nil⟩
    · rw [pow_succ'] at h
      obtain ⟨hmag, hl⟩ := ih (Nat.div_lt_of_lt_mul h)
      refine ⟨?_, isLimbs_cons.mpr ⟨Nat.mod_lt _ (by decide), hl⟩⟩
      rw [magnitude_cons, hmag, Nat.mod_add_div]

theorem computes_fromInt64 (v : BitVec 64) : Computes (objBigintFromInt64 v) v.toInt := by
  have hlo : -2 ^ 63 ≤ v.toInt := BitVec.le_toInt v
  have hhi : v.toInt < 2 ^ 63 := BitVec.toInt_lt
  rw [objBigintFromInt64]
  split_ifs with h0 hneg
  · rw [h0]
    exact computes_zero
  · have hu : u64 ((-(v.toInt + 1)).toNat + 1) = (-v.toInt).toNat := by
      rw [u64]
      omega
    obtain ⟨hmag, hl⟩ := wordLimbs_spec (n := 2) (x := (-v.toInt).toNat) (by simp only [limbBase]; omega)
    have h := @computes_fromLimbs _ hl (-1) (.inr rfl)
    rw [hmag, toNat_of_nonneg (by omega), neg_mul_neg, one_mul] at h
    rwa [hu]
  · obtain ⟨hmag, hl⟩ := wordLimbs_spec (n := 2) (x := v.toInt.toNat) (by simp only [limbBase]; omega)
    have h := @computes_fromLimbs _ hl 1 (.inl rfl)
    rwa [hmag, toNat_of_nonneg (by omega), one_mul] at h

theorem toInt64Loop_eq {limit : Nat} (hlo : limbBase ≤ limit) (hhi : limit < limbBase * limbBase) {l : List Nat}
    (hl : IsLimbs l) : toInt64Loop limit l = if magnitude l ≤ limit then some (magnitude l) else none := by
  induction l with
  | nil => rfl
  | cons x xs ih =>
    have hx := (isLimbs_cons.mp hl).1
    rw [toInt64Loop, ih (isLimbs_cons.mp hl).2, magnitude_cons]
    by_cases hle : magnitude xs ≤ limit
    · have hdiv : (limit - x) / limbBase < magnitude xs ↔ limit < x + limbBase * magnitude xs := by
        rw [Nat.div_lt_iff_lt_mul (by decide), Nat.mul_comm]
        omega
      rw [if_pos hle]
      dsimp only [Option.bind_eq_bind, Option.bind_some]
      split_ifs with h1 h2
      · omega
      · rfl
      · rw [u64_of_lt (by rw [Nat.mul_comm]; omega), Nat.mul_comm, Nat.add_comm]
      · exact absurd (hdiv.mpr (by omega)) h1
    · rw [if_neg hle, if_neg (by simp only [limbBase] at *; omega)]
      rfl

theorem objBigintToInt64_eq (hx : x.Normal) :
    objBigintToInt64 x = if -2 ^ 63 ≤ x.value ∧ x.value ≤ 2 ^ 63 - 1 then some x.value else none := by
  rw [objBigintToInt64]
  rcases hx.cases with ⟨hs, hv⟩ | ⟨hs, hp, -⟩
  · rw [if_pos hs, hv]
    rfl
  have hmax : int64Max = 2 ^ 63 - 1 := rfl
  rw [ObjBigInt.value]
  rcases hs with hs | hs
  · have hloop := @toInt64Loop_eq int64Max (by decide) (by decide) x.limbs hx.limbs_lt
    rw [hs, if_neg (by decide), if_neg (by decide), one_mul]
    dsimp only
    rw [hloop]
    by_cases hle : magnitude x.limbs ≤ int64Max
    · rw [if_pos hle, if_pos (by omega)]
      rfl
    · rw [if_neg hle, if_neg (by omega)]
      rfl
  · have hloop := @toInt64Loop_eq (int64Max + 1) (by decide) (by decide) x.limbs hx.limbs_lt
    rw [hs, if_neg (by decide), if_pos (by decide)]
    dsimp only
    rw [hloop]
    by_cases hle : magnitude x.limbs ≤ int64Max + 1
    · rw [if_pos hle, if_pos (by omega)]
      dsimp only [Option.bind_eq_bind, Option.bind_some]
      rw [if_pos (by decide)]
      split_ifs with htop
      · rw [htop]
        rfl
      · rw [neg_mul, one_mul]
    · rw [if_neg hle, if_neg (by omega)]
      rfl

/-- The operations on big integers are those on the integers, and keep the normal form. -/
theorem bigint_arithmetic_exact (a b : NormalBigInt) (v : BitVec 64) (m : BitVec 32) :
    Computes (objBigintAdd a.toObjBigInt b.toObjBigInt) (a.value + b.value) ∧
    Computes (objBigintSub a.toObjBigInt b.toObjBigInt) (a.value - b.value) ∧
    Computes (objBigintMul a.toObjBigInt b.toObjBigInt) (a.value * b.value) ∧
    Computes (objBigintNegate a.toObjBigInt) (-a.value) ∧
    objBigintCompare a.toObjBigInt b.toObjBigInt = (a.value - b.value).sign ∧
    Computes (objBigintFromInt64 v) v.toInt ∧
    Computes (objBigintMulSmallInplace a.toObjBigInt m.toNat) (a.value * m.toNat) ∧
    objBigintToInt64 a.toObjBigInt = if -2 ^ 63 ≤ a.value ∧ a.value ≤ 2 ^ 63 - 1 then some a.value else none := by
  have hscaled := objBigintMulSmallInplace_spec a.normal m.isLt
  exact ⟨computes_add a.normal b.normal, computes_sub a.normal b.normal, computes_mul a.normal b.normal,
    computes_negate a.normal, objBigintCompare_eq a.normal b.normal, computes_fromInt64 v,
    ⟨hscaled.1, hscaled.2⟩, objBigintToInt64_eq a.normal⟩

end Tablo.Bigint
