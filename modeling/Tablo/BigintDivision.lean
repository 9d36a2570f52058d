import Tablo.KnuthStep

/-! Normalization, the paths of the absolute division and the truncated
division of signed big integers. -/

namespace Tablo.Bigint

open LongDivision List

structure IsNormal (l : List Nat) : Prop where
  limbs : IsLimbs l
  last_ne : l.getLast? ≠ some 0

variable {l a b : List Nat}

theorem IsNormal.trimmed (h : IsLimbs l) : IsNormal (trimmed l) :=
  ⟨h.trimmed, trimmed_last_ne l⟩

theorem IsNormal.pow_le (h : IsNormal l) (hne : l ≠ []) :
    limbBase ^ (l.length - 1) ≤ magnitude l := pow_le_magnitude h.last_ne hne

theorem IsNormal.pos (h : IsNormal l) (hne : l ≠ []) : 0 < magnitude l :=
  (pow_pos (by decide) _).trans_le (h.pow_le hne)

section

variable (ha : IsNormal a) (hb : IsNormal b)

include ha hb

theorem IsNormal.compare_neg :
    bigintCompareAbsLimbs a b < 0 ↔ magnitude a < magnitude b := by
  rw [bigintCompareAbsLimbs_eq ha.limbs hb.limbs ha.last_ne hb.last_ne]
  split_ifs <;> simp_all

theorem IsNormal.compare_zero :
    bigintCompareAbsLimbs a b = 0 ↔ magnitude a = magnitude b := by
  rw [bigintCompareAbsLimbs_eq ha.limbs hb.limbs ha.last_ne hb.last_ne]
  split_ifs <;> simp <;> omega

theorem IsNormal.length_le
    (hle : magnitude b ≤ magnitude a) : b.length ≤ a.length := by
  by_contra hlt
  have hne : b ≠ [] := length_pos_iff.mp (by omega)
  have hpow := Nat.pow_le_pow_right (show 0 < limbBase by decide) (show a.length ≤ b.length - 1 by omega)
  have ha' := magnitude_lt ha.limbs
  have hb' := hb.pow_le hne
  omega

end

theorem normalizer_lt (b : List Nat) : normalizer b < limbBase := Nat.mod_lt _ (by decide)

section

variable (hb : IsNormal b) (hne : b ≠ [])

include hb hne

theorem topLimb_eq : magnitude b / limbBase ^ (b.length - 1) = b.getD (b.length - 1) 0 :=
  magnitude_div_pow_last hb.limbs (by have := length_pos_iff.mpr hne; omega)

theorem topLimb_pos : 0 < b.getD (b.length - 1) 0 := by
  rw [← topLimb_eq hb hne]
  exact Nat.div_pos (hb.pow_le hne) (pow_pos (by decide) _)

theorem normalizer_eq : normalizer b = limbBase / (b.getD (b.length - 1) 0 + 1) := by
  have ht := topLimb_pos hb hne
  exact Nat.mod_eq_of_lt (Nat.div_lt_self (by decide) (by omega))

theorem normalizer_pos : 0 < normalizer b := by
  have ht := hb.limbs.getD_lt (b.length - 1)
  rw [normalizer_eq hb hne]
  exact Nat.div_pos (by omega) (by omega)

theorem magnitude_mul_normalizer_lt : magnitude b * normalizer b < limbBase ^ b.length := by
  have hlen := length_pos_iff.mpr hne
  have hP : 0 < limbBase ^ (b.length - 1) := pow_pos (by decide) _
  have htop := topLimb_eq hb hne
  have hd := normalizer_pos hb hne
  have hlt : magnitude b < (b.getD (b.length - 1) 0 + 1) * limbBase ^ (b.length - 1) := by
    rw [← Nat.div_lt_iff_lt_mul hP]
    omega
  have hmul : (b.getD (b.length - 1) 0 + 1) * normalizer b ≤ limbBase := by
    rw [normalizer_eq hb hne]
    exact Nat.mul_div_le _ _
  calc magnitude b * normalizer b
      < (b.getD (b.length - 1) 0 + 1) * limbBase ^ (b.length - 1) * normalizer b :=
        mul_lt_mul_of_pos_right hlt hd
    _ = (b.getD (b.length - 1) 0 + 1) * normalizer b * limbBase ^ (b.length - 1) := by ring
    _ ≤ limbBase * limbBase ^ (b.length - 1) := Nat.mul_le_mul_right _ hmul
    _ = limbBase ^ b.length := by rw [← pow_succ', Nat.sub_add_cancel hlen]

theorem half_le_mul_normalizer : limbBase ≤ 2 * (b.getD (b.length - 1) 0 * normalizer b) := by
  have ht := topLimb_pos hb hne
  have hd := normalizer_pos hb hne
  have hdm := Nat.div_add_mod limbBase (b.getD (b.length - 1) 0 + 1)
  have hmod := Nat.mod_lt limbBase (show 0 < b.getD (b.length - 1) 0 + 1 by omega)
  rw [← normalizer_eq hb hne] at hdm
  generalize b.getD (b.length - 1) 0 = t at *
  generalize normalizer b = d at *
  obtain ⟨t', rfl⟩ : ∃ t', t = t' + 1 := ⟨t - 1, by omega⟩
  obtain ⟨d', rfl⟩ : ∃ d', d = d' + 1 := ⟨d - 1, by omega⟩
  have he : (t' + 1) * (d' + 1) = t' * d' + t' + d' + 1 := by ring
  have he' : (t' + 1 + 1) * (d' + 1) = t' * d' + t' + 2 * d' + 2 := by ring
  simp only [limbBase] at *
  omega

theorem normalizedDivisor_spec (h2 : 2 ≤ b.length) : magnitude (normalizedDivisor b) = magnitude b * normalizer b ∧
      (normalizedDivisor b).length = b.length ∧ NormalizedDivisor (normalizedDivisor b) := by
  obtain ⟨hmag, hl, hlen⟩ :=
    bigintMulSmall_spec (normalizer_lt b) (normalizer_pos hb hne) hb.limbs hne
  have hle : b.length ≤ (bigintMulSmall b (normalizer b)).length := by omega
  have hn : (normalizedDivisor b).length = b.length := length_take_of_le hle
  have hval : magnitude (normalizedDivisor b) = magnitude b * normalizer b := by
    have hsplit := magnitude_take_add_drop (bigintMulSmall b (normalizer b)) hle
    have hlt := magnitude_mul_normalizer_lt hb hne
    have hzero : magnitude ((bigintMulSmall b (normalizer b)).drop b.length) = 0 := by
      rw [magnitude_drop hl, hmag]
      exact Nat.div_eq_of_lt hlt
    rw [hzero] at hsplit
    rw [normalizedDivisor]
    omega
  refine ⟨hval, hn, hl.take _, by omega, ?_⟩
  rw [hval, hn]
  refine (half_le_mul_normalizer hb hne).trans (Nat.mul_le_mul_left 2 ?_)
  rw [← topLimb_eq hb hne, Nat.le_div_iff_mul_le (pow_pos (by decide) _), mul_right_comm]
  exact Nat.mul_le_mul_right _ (Nat.div_mul_le_self _ _)

end

theorem normalizedDividend_spec (ha : IsNormal a) (hane : a ≠ []) (hb : IsNormal b)
    (hne : b ≠ []) (hle : b.length ≤ a.length) : magnitude (normalizedDividend a b) = magnitude a * normalizer b ∧
      (normalizedDividend a b).length = a.length + 1 ∧ IsLimbs (normalizedDividend a b) := by
  obtain ⟨hmag, hl, hlen⟩ :=
    bigintMulSmall_spec (normalizer_lt b) (normalizer_pos hb hne) ha.limbs hane
  simp only [normalizedDividend]
  rcases hlen with hlen | hlen
  · have hlong : ¬ (bigintMulSmall a (normalizer b) ++ [0]).length ≤ b.length := by
      simp only [length_append, length_singleton]
      omega
    rw [if_pos hlen, if_neg hlong, magnitude_append, magnitude_singleton, Nat.mul_zero]
    exact ⟨hmag, by simp [hlen], isLimbs_append.mpr ⟨hl, by simp [IsLimbs]⟩⟩
  · rw [if_neg (show ¬ (bigintMulSmall a (normalizer b)).length = a.length by omega),
      if_neg (show ¬ (bigintMulSmall a (normalizer b)).length ≤ b.length by omega)]
    exact ⟨hmag, hlen, hl⟩

def NoClampedDigit (a b : List Nat) : Prop :=
  2 ≤ b.length → NoClamp b.length (magnitude b * normalizer b) (magnitude a * normalizer b) (a.length + 1 - b.length)

instance (a b : List Nat) : Decidable (NoClampedDigit a b) :=
  inferInstanceAs (Decidable (_ → _))

/-- The quotient and remainder of an absolute division, as far as the digits
allow. -/
structure DivmodSpec (a b : List Nat) (s : DivmodResult) : Prop where
  noError : s.divByZero = false
  q_limbs : IsLimbs s.q
  r_limbs : IsLimbs s.r
  quotient : magnitude s.q = magnitude a / magnitude b ↔ NoClampedDigit a b
  remainder : NoClampedDigit a b → magnitude s.r = magnitude a % magnitude b

theorem knuthDivmod_spec (ha : IsNormal a) (hb : IsNormal b) (h2 : 2 ≤ b.length)
    (hle : b.length ≤ a.length) : DivmodSpec a b (knuthDivmod a b) := by
  have hane : a ≠ [] := length_pos_iff.mp (by omega)
  have hne : b ≠ [] := length_pos_iff.mp (by omega)
  have hd := normalizer_pos hb hne
  obtain ⟨hvm, hvn, hv⟩ := normalizedDivisor_spec hb hne h2
  obtain ⟨hum, hun, hu⟩ := normalizedDividend_spec ha hane hb hne hle
  obtain ⟨j, hj⟩ : ∃ j, a.length + 1 - b.length = j := ⟨_, rfl⟩
  have hjn : j + (normalizedDivisor b).length = (normalizedDividend a b).length := by omega
  have htake : (normalizedDividend a b).take (j + (normalizedDivisor b).length) = normalizedDividend a b := by
    rw [hjn, take_length]
  have hX : magnitude a * normalizer b < limbBase ^ j * (magnitude b * normalizer b) := by
    rw [← mul_assoc]
    refine mul_lt_mul_of_pos_right ?_ hd
    calc magnitude a < limbBase ^ a.length := magnitude_lt ha.limbs
      _ = limbBase ^ j * limbBase ^ (b.length - 1) := by
        rw [← pow_add]
        congr 1
        omega
      _ ≤ limbBase ^ j * magnitude b := Nat.mul_le_mul_left _ (hb.pow_le hne)
  obtain ⟨hquot, hrem⟩ := knuthLoop_spec hv hu hjn.le (by rwa [htake, hum, hvm])
  obtain ⟨hl, hn⟩ := knuthLoop_frame hv.limbs hu hjn.le
  have hdig := (knuthLoop_digits (normalizedDivisor b) j (normalizedDividend a b)).1
  have hcond : NoClampedDigit a b ↔ NoClamp b.length (magnitude b * normalizer b) (magnitude a * normalizer b) j := by
    rw [NoClampedDigit, hj]
    exact forall_prop_of_true h2
  rw [htake, hum, hvm, hvn, ← hcond] at hquot hrem
  rw [Nat.mul_div_mul_right _ _ hd] at hquot
  rw [Nat.mul_mod_mul_right, ← hvn] at hrem
  have hcount : (normalizedDividend a b).length - (normalizedDivisor b).length = j := by omega
  obtain ⟨hdq, -, hdl⟩ := bigintDivmodSmall_spec hd (normalizer_lt b).le (hl.take (normalizedDivisor b).length)
  rw [knuthDivmod, hcount]
  refine ⟨rfl, hdig.trimmed, ?_, by simpa only [magnitude_trimmed] using hquot, fun h => ?_⟩
  · split
    · exact (hl.take _).trimmed
    · exact hdl
  · split
    next h1 => rw [magnitude_trimmed, hrem h, h1, mul_one]
    next => rw [hdq, hrem h, Nat.mul_div_cancel _ hd]

theorem noClampedDigit_of_small (hb : IsNormal b) (hne : b ≠ [])
    (hq : magnitude a / magnitude b ≤ smallQLimit) : NoClampedDigit a b := by
  intro _ i _ hbad
  have hd := normalizer_pos hb hne
  have hdigit := quotient_digit (show 0 < limbBase by decide) (mul_pos (hb.pos hne) hd)
    (magnitude a * normalizer b) i
  rw [hbad.2.1, Nat.mul_div_mul_right _ _ hd] at hdigit
  have hle := (Nat.mod_le _ limbBase).trans (Nat.div_le_self (magnitude a / magnitude b) (limbBase ^ i))
  rw [hdigit] at hle
  exact absurd (hle.trans hq) (by decide)

theorem divmodSpec_of_small {s : DivmodResult} (hb : IsNormal b) (hne : b ≠ [])
    (herr : s.divByZero = false) (hql : IsLimbs s.q) (hrl : IsLimbs s.r)
    (heq : magnitude a = magnitude s.q * magnitude b + magnitude s.r)
    (hlt : magnitude s.r < magnitude b) (hq : magnitude s.q ≤ smallQLimit) : DivmodSpec a b s := by
  have hdiv : magnitude a / magnitude b = magnitude s.q :=
    Nat.div_eq_of_lt_le (by omega) (by rw [add_mul]; omega)
  have hmod : magnitude a % magnitude b = magnitude s.r := by
    rw [heq, add_comm, Nat.add_mul_mod_self_right, Nat.mod_eq_of_lt hlt]
  have hno := noClampedDigit_of_small hb hne (hdiv.trans_le hq)
  exact ⟨herr, hql, hrl, iff_of_true hdiv.symm hno, fun _ => hmod.symm⟩

theorem smallQuotientLoop_spec (hb : IsNormal b) (fuel : Nat) {rem : List Nat} (q : Nat)
    (hr : IsNormal rem) :
    let s := smallQuotientLoop b fuel rem q
    IsNormal s.1 ∧ magnitude s.1 + s.2 * magnitude b = magnitude rem + q * magnitude b ∧ s.2 ≤ q + fuel := by
  induction fuel generalizing rem q with
  | zero => exact ⟨hr, rfl, le_refl _⟩
  | succ fuel ih =>
    rw [smallQuotientLoop]
    by_cases hcmp : bigintCompareAbsLimbs rem b < 0
    · rw [if_pos hcmp]
      exact ⟨hr, rfl, by omega⟩
    · rw [if_neg hcmp]
      have hge : magnitude b ≤ magnitude rem := by
        rw [hr.compare_neg hb] at hcmp
        omega
      obtain ⟨hl, hn, out, -, heq⟩ :=
        subLoop_spec hr.limbs hb.limbs (hr.length_le hb hge) (Nat.zero_le 1)
      have hout : out = 0 := by
        by_contra hne
        have hm := Nat.mul_le_mul_left (limbBase ^ rem.length) (Nat.one_le_iff_ne_zero.mpr hne)
        have hlt := magnitude_lt hl
        rw [hn] at hlt
        omega
      obtain ⟨hnorm, hsum, hle⟩ := ih (q + 1) (IsNormal.trimmed hl)
      refine ⟨hnorm, hsum.trans ?_, by omega⟩
      rw [hout] at heq
      rw [magnitude_trimmed, add_mul q 1]
      omega

theorem singleLimb_spec {x : Nat} (hx : x < limbBase) :
    IsLimbs (if x = 0 then [] else [x]) ∧ magnitude (if x = 0 then [] else [x]) = x := by
  split_ifs with h0
  · exact ⟨isLimbs_nil, h0.symm⟩
  · exact ⟨isLimbs_cons.mpr ⟨hx, isLimbs_nil⟩, magnitude_singleton x⟩

theorem smallQuotient_spec (ha : IsNormal a) (hb : IsNormal b) (hne : b ≠ [])
    {s : DivmodResult} (hs : smallQuotient a b = some s) : DivmodSpec a b s := by
  obtain ⟨hnorm, hsum, hle⟩ := smallQuotientLoop_spec hb smallQLimit 0 ha
  rw [smallQuotient] at hs
  generalize smallQuotientLoop b smallQLimit a 0 = t at *
  dsimp only at hs
  obtain ⟨hql, hqm⟩ := singleLimb_spec (show t.2 < limbBase from lt_of_le_of_lt hle (by decide))
  generalize (if t.2 = 0 then [] else [t.2]) = qs at *
  split_ifs at hs with hpath hcmp
  cases hs
  refine divmodSpec_of_small hb hne rfl hql hnorm.limbs ?_ ((hnorm.compare_neg hb).mp hcmp) ?_
  · dsimp only
    rw [hqm]
    omega
  · exact hqm.trans_le (by omega)

theorem bigintDivmodAbsLimbs_spec (ha : IsNormal a) (hb : IsNormal b) (hane : a ≠ [])
    (hne : b ≠ []) : DivmodSpec a b (bigintDivmodAbsLimbs a b) := by
  rw [bigintDivmodAbsLimbs, if_neg hne, if_neg hane]
  by_cases hlt : bigintCompareAbsLimbs a b < 0
  · rw [if_pos hlt]
    rw [ha.compare_neg hb] at hlt
    exact divmodSpec_of_small hb hne rfl isLimbs_nil ha.limbs (by simp) hlt (by simp)
  by_cases heq : bigintCompareAbsLimbs a b = 0
  · rw [if_neg hlt, if_pos heq]
    rw [ha.compare_zero hb] at heq
    exact divmodSpec_of_small hb hne rfl (by simp [IsLimbs]) isLimbs_nil (by simp [heq])
      (by simpa using hb.pos hne) (by simp [smallQLimit])
  rw [if_neg hlt, if_neg heq]
  rw [ha.compare_neg hb] at hlt
  by_cases h1 : b.length = 1
  · obtain ⟨x, rfl⟩ := length_eq_one_iff.mp h1
    have hx := (isLimbs_cons.mp hb.limbs).1
    obtain ⟨hq, hr, hl⟩ := bigintDivmodSmall_spec (d := x) (by simpa using hb.pos hne) hx.le ha.limbs
    have hno : NoClampedDigit a [x] := fun h2 => absurd h2 (by simp)
    have hrlt : (bigintDivmodSmall a x).2 < limbBase :=
      hr.trans_lt ((Nat.mod_lt _ (by simpa using hb.pos hne)).trans hx)
    obtain ⟨hrl, hrm⟩ := singleLimb_spec hrlt
    exact ⟨rfl, hl, hrl, iff_of_true hq hno, fun _ => hrm.trans hr⟩
  · rw [if_neg h1]
    have hlen := length_pos_iff.mpr hne
    cases hs : smallQuotient a b with
    | some s => exact smallQuotient_spec ha hb hne hs
    | none => exact knuthDivmod_spec ha hb (by omega) (ha.length_le hb (by omega))

end Tablo.Bigint
