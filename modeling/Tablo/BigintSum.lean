import Tablo.ModPow
import Tablo.TruncatedDivision

/-! Sums of big integers. -/

namespace Tablo.Bigint

theorem addAbsLoop_spec {a b : List Nat} (ha : IsLimbs a) (hb : IsLimbs b) {carry : Nat} (hc : carry ≤ 1) :
    magnitude (addAbsLoop a b carry) = magnitude a + magnitude b + carry ∧ IsLimbs (addAbsLoop a b carry) := by
  fun_induction addAbsLoop a b carry with
  | case1 => exact ⟨rfl, isLimbs_nil⟩
  | case2 carry h0 =>
    have h1 : carry = 1 := by omega
    subst h1
    exact ⟨rfl, by simp [IsLimbs]⟩
  | case3 y ys carry ih =>
    have hy := (isLimbs_cons.mp hb).1
    have hd := Nat.mod_add_div (carry + y) limbBase
    have hle := add_div_le_one (show 0 < limbBase by decide) hy hc
    rw [Nat.zero_add, Nat.add_comm] at hle
    obtain ⟨heq, hl⟩ := ih isLimbs_nil (isLimbs_cons.mp hb).2 hle
    refine ⟨?_, isLimbs_cons.mpr ⟨Nat.mod_lt _ (by decide), hl⟩⟩
    rw [magnitude_cons, heq, magnitude_nil, magnitude_cons]
    simp only [Nat.mul_add]
    omega
  | case4 x xs ys carry ih =>
    have hx := (isLimbs_cons.mp ha).1
    have hy := hb.headD_lt
    have hd := Nat.mod_add_div (carry + x + ys.headD 0) limbBase
    have hle := add_div_le_one hx hy hc
    rw [Nat.add_comm, ← Nat.add_assoc] at hle
    obtain ⟨heq, hl⟩ := ih (isLimbs_cons.mp ha).2 hb.tail hle
    refine ⟨?_, isLimbs_cons.mpr ⟨Nat.mod_lt _ (by decide), hl⟩⟩
    rw [magnitude_cons, heq, magnitude_cons, magnitude_head_tail ys]
    simp only [Nat.mul_add]
    omega

theorem bigintAddAbsLimbs_spec {a b : List Nat} (ha : IsLimbs a) (hb : IsLimbs b) :
    magnitude (bigintAddAbsLimbs a b) = magnitude a + magnitude b ∧ IsLimbs (bigintAddAbsLimbs a b) := by
  obtain ⟨heq, hl⟩ := addAbsLoop_spec ha hb (Nat.zero_le 1)
  exact ⟨by rw [bigintAddAbsLimbs, magnitude_trimmed, heq, Nat.add_zero], hl.trimmed⟩

theorem bigintSubAbsLimbs_spec {a b : List Nat} (ha : IsNormal a) (hb : IsNormal b) (hle : magnitude b ≤ magnitude a) :
    magnitude (bigintSubAbsLimbs a b) = magnitude a - magnitude b ∧ IsLimbs (bigintSubAbsLimbs a b) := by
  obtain ⟨hl, hn, out, hout, heq⟩ := subLoop_spec ha.limbs hb.limbs (ha.length_le hb hle) (Nat.zero_le 1)
  refine ⟨?_, hl.trimmed⟩
  have hlt := magnitude_lt hl
  rw [hn] at hlt
  have hout0 : out = 0 := by
    by_contra h
    have h1 : out = 1 := by omega
    rw [h1] at heq
    omega
  rw [hout0] at heq
  rw [bigintSubAbsLimbs, magnitude_trimmed]
  omega

theorem bigintFromLimbs_signed {l : List Nat} {sign : Int} (hl : IsLimbs l) (hs : sign = 1 ∨ sign = -1) :
    (bigintFromLimbs sign l).Normal ∧ (bigintFromLimbs sign l).value = sign * magnitude l := by
  refine ⟨bigintFromLimbs_normal hl sign, ?_⟩
  by_cases h0 : l = []
  · subst h0
    rcases hs with rfl | rfl <;> rfl
  · have hv := bigintFromLimbs_value (l := l) hs
    rwa [if_neg h0] at hv

theorem ObjBigInt.Normal.cases {x : ObjBigInt} (h : x.Normal) :
    (x.sign = 0 ∧ x.value = 0) ∨ ((x.sign = 1 ∨ x.sign = -1) ∧ 0 < magnitude x.limbs ∧ x.limbs ≠ []) := by
  rcases h.sign_eq with ⟨hs, hl⟩ | ⟨hs, hl⟩
  · exact .inl ⟨hs, h.value_eq_zero.mpr hs⟩
  · exact .inr ⟨hs, h.isNormal.pos hl, hl⟩

theorem objBigintAdd_spec {a b : ObjBigInt} (ha : a.Normal) (hb : b.Normal) :
    (objBigintAdd a b).Normal ∧ (objBigintAdd a b).value = a.value + b.value := by
  rw [objBigintAdd]
  rcases ha.cases with ⟨hsa, hva⟩ | ⟨hsa, hpa, -⟩
  · rw [if_pos hsa, hva, Int.zero_add]
    exact ⟨hb, rfl⟩
  have hsa0 : a.sign ≠ 0 := by rcases hsa with h | h <;> rw [h] <;> decide
  rw [if_neg hsa0]
  rcases hb.cases with ⟨hsb, hvb⟩ | ⟨hsb, hpb, -⟩
  · rw [if_pos hsb, hvb, Int.add_zero]
    exact ⟨ha, rfl⟩
  have hsb0 : b.sign ≠ 0 := by rcases hsb with h | h <;> rw [h] <;> decide
  rw [if_neg hsb0]
  have hva : a.value = a.sign * magnitude a.limbs := rfl
  have hvb : b.value = b.sign * magnitude b.limbs := rfl
  split_ifs with hsame h0 hlt
  · obtain ⟨hmag, hl⟩ := bigintAddAbsLimbs_spec ha.limbs_lt hb.limbs_lt
    have hsum := bigintFromLimbs_signed hl hsa
    rw [hmag, Nat.cast_add, Int.mul_add] at hsum
    rw [hvb, ← hsame]
    exact hsum
  · have heq := (ha.isNormal.compare_zero hb.isNormal).mp h0
    have hneg : b.sign = -a.sign := by omega
    rw [hva, hvb, heq, hneg, Int.neg_mul, Int.add_right_neg]
    exact ⟨bigintFromLimbs_normal isLimbs_nil 0, rfl⟩
  · have hle : magnitude b.limbs ≤ magnitude a.limbs := by
      by_contra h
      have := (ha.isNormal.compare_neg hb.isNormal).mpr (by omega)
      omega
    obtain ⟨hmag, hl⟩ := bigintSubAbsLimbs_spec ha.isNormal hb.isNormal hle
    have hdiff := bigintFromLimbs_signed hl hsa
    have hneg : b.sign = -a.sign := by omega
    rw [hmag, Nat.cast_sub hle, Int.mul_sub] at hdiff
    rw [hvb, hneg, Int.neg_mul]
    exact hdiff
  · have hle : magnitude a.limbs ≤ magnitude b.limbs :=
      ((ha.isNormal.compare_neg hb.isNormal).mp (by omega)).le
    obtain ⟨hmag, hl⟩ := bigintSubAbsLimbs_spec hb.isNormal ha.isNormal hle
    have hdiff := bigintFromLimbs_signed hl hsb
    have hneg : a.sign = -b.sign := by omega
    rw [hmag, Nat.cast_sub hle, Int.mul_sub] at hdiff
    rw [hva, hneg, Int.neg_mul, Int.add_comm]
    exact hdiff

end Tablo.Bigint
