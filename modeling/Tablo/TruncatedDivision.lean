import Tablo.BigintDivision
import Mathlib.Tactic.LinearCombination

/-! Division of signed big integers truncates towards zero. -/

namespace Tablo.Bigint

variable {x : ObjBigInt} {l : List Nat} {s : Int}

theorem ObjBigInt.Normal.isNormal (h : x.Normal) : IsNormal x.limbs :=
  ⟨h.limbs_lt, h.last_ne⟩

theorem ObjBigInt.Normal.sign_eq_zero (h : x.Normal) : x.sign = 0 ↔ x.limbs = [] := by
  rcases h.sign_eq with ⟨hs, hl⟩ | ⟨hs, hl⟩
  · simp [hs, hl]
  · rcases hs with hs | hs <;> simp [hs, hl]

theorem ObjBigInt.Normal.value_eq_zero (h : x.Normal) : x.value = 0 ↔ x.sign = 0 := by
  rw [ObjBigInt.value, mul_eq_zero, or_iff_left_iff_imp, h.sign_eq_zero, Nat.cast_eq_zero,
    magnitude_eq_zero h.last_ne]
  exact id

theorem bigintFromLimbs_normal (hl : IsLimbs l) (sign : Int) : (bigintFromLimbs sign l).Normal := by
  unfold bigintFromLimbs
  split_ifs with h0 hs
  · exact ⟨isLimbs_nil, by simp, .inl ⟨rfl, rfl⟩⟩
  · exact ⟨hl.trimmed, trimmed_last_ne l, .inr ⟨.inr rfl, h0⟩⟩
  · exact ⟨hl.trimmed, trimmed_last_ne l, .inr ⟨.inl rfl, h0⟩⟩

theorem bigintFromLimbs_value {sign : Int} (hs : sign = 1 ∨ sign = -1) :
    (bigintFromLimbs (if l = [] then 0 else sign) l).value = sign * magnitude l := by
  unfold bigintFromLimbs
  by_cases h0 : magnitude l = 0
  · rw [if_pos ((trimmed_eq_nil l).mpr h0), h0]
    simp [ObjBigInt.value]
  · have hne : l ≠ [] := by
      rintro rfl
      exact h0 rfl
    rw [if_neg fun h => h0 ((trimmed_eq_nil l).mp h), if_neg hne, ObjBigInt.value, magnitude_trimmed]
    rcases hs with rfl | rfl <;> simp

structure TruncatedLaw (a b : ObjBigInt) (q r : ObjBigInt × Bool) : Prop where
  q_normal : q.1.Normal
  r_normal : r.1.Normal
  q_error : q.2 = true ↔ b.value = 0
  r_error : r.2 = true ↔ b.value = 0
  law : b.value ≠ 0 → a.value = b.value * q.1.value + r.1.value
  lt : b.value ≠ 0 → |r.1.value| < |b.value|
  sign : b.value ≠ 0 → r.1.value = 0 ∨ r.1.value.sign = a.value.sign

theorem signed_law {sa sb : Int} (ha : sa = 1 ∨ sa = -1) (hb : sb = 1 ∨ sb = -1) (ma mb mq mr : Nat) :
    sa * ma = sb * mb * (sa * sb * mq) + sa * mr ↔ ma = mb * mq + mr := by
  have hprod : sb * mb * (sa * sb * mq) + sa * mr = sa * ((mb * mq + mr : Nat) : Int) := by
    have hsb : sb * sb = 1 := by rcases hb with rfl | rfl <;> rfl
    push_cast
    linear_combination sa * mb * mq * hsb
  have hne : sa ≠ 0 := by rcases ha with rfl | rfl <;> decide
  rw [hprod, mul_right_inj' hne, Nat.cast_inj]

theorem signed_abs (hs : s = 1 ∨ s = -1) (m : Nat) : |s * m| = m := by
  rcases hs with rfl | rfl <;> simp

theorem signed_sign {m n : Nat} (hle : m ≤ n) : s * m = 0 ∨ (s * m).sign = (s * n).sign := by
  by_cases h0 : m = 0
  · simp [h0]
  · right
    rw [Int.sign_mul, Int.sign_mul, Int.sign_natCast_of_ne_zero h0, Int.sign_natCast_of_ne_zero (by omega)]

/-- Division and remainder of normal big integers obey the truncated law
exactly when no digit of the long division is clamped too low. -/
theorem objBigint_truncatedLaw_iff (a b : NormalBigInt) :
    TruncatedLaw a.toObjBigInt b.toObjBigInt (objBigintDiv a.toObjBigInt b.toObjBigInt)
        (objBigintMod a.toObjBigInt b.toObjBigInt) ↔
      NoClampedDigit a.limbs b.limbs := by
  have hzero : (bigintFromLimbs 0 []).Normal := bigintFromLimbs_normal isLimbs_nil 0
  have hzv : (bigintFromLimbs 0 []).value = 0 := rfl
  have hb := b.normal
  have ha := a.normal
  rcases hb.sign_eq with ⟨hbs, hbl⟩ | ⟨hbs, hbl⟩
  · have hval : b.value = 0 := hb.value_eq_zero.mpr hbs
    refine iff_of_true ?_ fun h2 => absurd h2 (by simp [hbl])
    simp only [objBigintDiv, objBigintMod, hbs]
    exact ⟨hzero, hzero, by simp [hval], by simp [hval], fun h => absurd hval h,
      fun h => absurd hval h, fun h => absurd hval h⟩
  have hbne : b.sign ≠ 0 := fun h => hbl (hb.sign_eq_zero.mp h)
  have hval : b.value ≠ 0 := fun h => hbne (hb.value_eq_zero.mp h)
  rcases ha.sign_eq with ⟨has, hal⟩ | ⟨has, hal⟩
  · have haval : a.value = 0 := ha.value_eq_zero.mpr has
    refine iff_of_true ?_ (noClampedDigit_of_small hb.isNormal hbl (by simp [hal]))
    simp only [objBigintDiv, objBigintMod, hbne, has, if_true]
    exact ⟨hzero, hzero, by simp [hval], by simp [hval], fun _ => by simp [hzv, haval],
      fun _ => by simp [hzv, hval], fun _ => .inl hzv⟩
  obtain ⟨herr, hql, hrl, hquot, hrem⟩ := bigintDivmodAbsLimbs_spec ha.isNormal hb.isNormal hal hbl
  have hane : a.sign ≠ 0 := fun h => hal (ha.sign_eq_zero.mp h)
  have hab : a.sign * b.sign = 1 ∨ a.sign * b.sign = -1 := by
    rcases has with has | has <;> rcases hbs with hbs | hbs <;> simp [has, hbs]
  have hpos := hb.isNormal.pos hbl
  simp only [objBigintDiv, objBigintMod, hbne, hane, if_false]
  generalize bigintDivmodAbsLimbs a.limbs b.limbs = s at *
  have hqv := bigintFromLimbs_value (l := s.q) hab
  have hrv := bigintFromLimbs_value (l := s.r) has
  have hav : a.value = a.sign * magnitude a.limbs := rfl
  have hbv : b.value = b.sign * magnitude b.limbs := rfl
  constructor
  · intro h
    have hlaw := h.law hval
    have hlt := h.lt hval
    rw [hqv, hrv, hav, hbv, signed_law has hbs] at hlaw
    rw [hrv, hbv, signed_abs has, signed_abs hbs] at hlt
    refine hquot.mp (Nat.div_eq_of_lt_le ?_ ?_).symm
    · rw [Nat.mul_comm]
      omega
    · rw [Nat.add_mul, Nat.mul_comm]
      omega
  · intro h
    have hq := hquot.mpr h
    have hr := hrem h
    refine ⟨bigintFromLimbs_normal hql _, bigintFromLimbs_normal hrl _, by simp [herr, hval],
      by simp [herr, hval], fun _ => ?_, fun _ => ?_, fun _ => ?_⟩
    · rw [hqv, hrv, hav, hbv, signed_law has hbs, hq, hr, Nat.div_add_mod]
    · rw [hrv, hbv, signed_abs has, signed_abs hbs, Nat.cast_lt, hr]
      exact Nat.mod_lt _ hpos
    · rw [hrv, hr]
      exact signed_sign (Nat.mod_le _ _)

def clampedDividend : NormalBigInt :=
  ⟨⟨1, [0, 2147483648, 2147483648]⟩, by constructor <;> simp [IsLimbs, limbBase]⟩

def clampedDivisor : NormalBigInt :=
  ⟨⟨1, [4294967295, 2147483648]⟩, by constructor <;> simp [IsLimbs, limbBase]⟩

/-- The quotient is one too small, so the remainder is not below the divisor. -/
theorem objBigint_truncatedLaw_fails : objBigintDiv clampedDividend.toObjBigInt clampedDivisor.toObjBigInt =
        (⟨1, [4294967294]⟩, false) ∧
      objBigintMod clampedDividend.toObjBigInt clampedDivisor.toObjBigInt = (⟨1, [4294967294, 2147483650]⟩, false) ∧
      ¬ TruncatedLaw clampedDividend.toObjBigInt clampedDivisor.toObjBigInt
      (objBigintDiv clampedDividend.toObjBigInt clampedDivisor.toObjBigInt)
      (objBigintMod clampedDividend.toObjBigInt clampedDivisor.toObjBigInt) := by
  refine ⟨by decide +kernel, by decide +kernel, fun h => ?_⟩
  exact absurd (h.lt (by decide)) (by decide +kernel)

end Tablo.Bigint
