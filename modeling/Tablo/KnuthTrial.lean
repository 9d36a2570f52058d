import Tablo.BigintLoops
import Tablo.LongDivision

/-! The trial digit of one division step. `v1`, `v2` are the leading divisor
limbs, `u0`, `u1`, `u2` the leading limbs of the partial dividend, `vl` and
`wl` the rest of either below the place value `P`. -/

namespace Tablo.Bigint

open LongDivision Nat

/-- The digit the step stores: the trial digit, less one when the product
does not fit and the divisor is added back. -/
def settledDigit (qhat v W : Nat) : Nat := if W < qhat * v then qhat - 1 else qhat

theorem settledDigit_eq {qhat v W : Nat} (hlo : W < (qhat + 1) * v) (hhi : qhat * v ≤ W + v) :
    settledDigit qhat v W = W / v := by
  unfold settledDigit
  split
  next hlt =>
    cases qhat with
    | zero => simp at hlt
    | succ k =>
      rw [succ_mul] at hhi
      exact (Nat.div_eq_of_lt_le (by simpa using hhi) hlt).symm
  next hge => exact (Nat.div_eq_of_lt_le (by omega) hlo).symm

/-- The first comparison for a clamped digit. Its remainder is the one of the
unclamped digit plus `v1`, shifted in 64 bits. -/
def ClampTest (v1 v2 u1 u2 : Nat) : Prop :=
  (u1 % v1 + v1) % limbBase * limbBase + u2 < (limbBase - 1) * v2

instance (v1 v2 u1 u2 : Nat) : Decidable (ClampTest v1 v2 u1 u2) :=
  inferInstanceAs (Decidable (_ < _))

theorem u64_shift_add {rhat u2 : Nat} (hu2 : u2 < limbBase) :
    u64 (u64 (rhat * limbBase) + u2) = rhat % limbBase * limbBase + u2 := by
  have hs : u64 (rhat * limbBase) = rhat % limbBase * limbBase :=
    mul_mod_mul_right limbBase rhat limbBase
  have hlt : rhat % limbBase * limbBase + u2 < limbBase * limbBase := by
    simp only [limbBase] at *
    omega
  rw [hs, u64_of_lt hlt]

theorem trial_product {qhat v2 : Nat} (hq : qhat < limbBase) (hv2 : v2 < limbBase) : u64 (qhat * v2) = qhat * v2 :=
  u64_of_lt (by simpa using mul_add_lt hq hv2 (show 0 < limbBase by decide))

variable {v1 v2 u1 u2 : Nat}

section

variable (hnorm : limbBase ≤ 2 * v1) (hv2 : v2 < limbBase) (hu2 : u2 < limbBase)

include hnorm hv2 hu2

theorem trialLoop_clamped
    {fuel : Nat} (hf : fuel ≠ 0) : trialLoop v1 v2 u2 fuel (limbBase - 1) (u1 % v1 + v1) =
      if ClampTest v1 v2 u1 u2 then limbBase - 2 else limbBase - 1 := by
  cases fuel with
  | zero => exact absurd rfl hf
  | succ fuel =>
    rw [trialLoop, u64_shift_add hu2, trial_product (by decide) hv2]
    rw [if_pos (show limbBase ≤ u1 % v1 + v1 + v1 by omega)]
    rfl

theorem trialDigit_clamped :
    trialDigit v1 v2 v1 u1 u2 = if ClampTest v1 v2 u1 u2 then limbBase - 2 else limbBase - 1 := by
  have hpos : 0 < v1 := by
    omega
  have hdiv : limbBase ≤ (v1 * limbBase + u1) / v1 := by
    rw [Nat.le_div_iff_mul_le hpos, mul_comm]
    omega
  have hmod : (v1 * limbBase + u1) % v1 = u1 % v1 := mul_add_mod v1 limbBase u1
  have hclamp : limbBase - 1 < (v1 * limbBase + u1) / v1 := lt_of_lt_of_le (by decide) hdiv
  rw [trialDigit, if_pos hclamp, hmod]
  exact trialLoop_clamped hnorm hv2 hu2 (by decide)

end

section Window

variable {P vl u0 wl v W : Nat} (hv : v = (v1 * limbBase + v2) * P + vl)
  (hW : W = ((u0 * limbBase + u1) * limbBase + u2) * P + wl)
  (hvl : vl < P) (hv2 : v2 < limbBase) (hu2 : u2 < limbBase)

include hv hW hvl hv2 hu2

theorem trialLoop_spec (hwl : wl < P) (hv1 : 0 < v1) {fuel qhat rhat : Nat} (hq : qhat < limbBase)
    (hr : rhat < limbBase) (hsum : qhat * v1 + rhat = u0 * limbBase + u1) (hf : limbBase ≤ rhat + fuel * v1)
    (hlo : W < (qhat + 1) * v) :
    W < (trialLoop v1 v2 u2 fuel qhat rhat + 1) * v ∧ trialLoop v1 v2 u2 fuel qhat rhat * v ≤ W + v := by
  subst hv hW
  induction fuel generalizing qhat rhat with
  | zero => omega
  | succ fuel ih =>
    simp only [trialLoop, u64_shift_add hu2, trial_product hq hv2, mod_eq_of_lt hr]
    split
    next ht =>
      have hgt : _ < qhat * ((v1 * limbBase + v2) * P + vl) := lt_of_test_gt hwl hsum ht
      obtain ⟨k, rfl⟩ : ∃ k, qhat = k + 1 := ⟨qhat - 1, by
        rcases Nat.eq_zero_or_pos qhat with h0 | h0
        · simp [h0] at ht
        · omega⟩
      have hsum' : k * v1 + (rhat + v1) = u0 * limbBase + u1 := by
        rw [← hsum, succ_mul]
        omega
      rw [Nat.add_sub_cancel]
      split
      next hbreak =>
        refine ⟨hgt, le_of_test_le hvl hv1 (by omega) ?_⟩
        -- the remainder left the limb range, so the second limb cannot matter
        rw [← hsum']
        have hk : k * v2 ≤ limbBase * limbBase := Nat.mul_le_mul (by omega) (by omega)
        have hR := Nat.mul_le_mul_right limbBase hbreak
        have he : k * (v1 * limbBase + v2) = k * v1 * limbBase + k * v2 := by ring
        rw [add_mul (k * v1)]
        omega
      next hgo =>
        refine ih (by omega) (by omega) hsum' ?_ hgt
        rw [succ_mul] at hf
        omega
    next ht =>
      refine ⟨hlo, le_of_test_le hvl hv1 hq.le ?_⟩
      rw [← hsum]
      have he : qhat * (v1 * limbBase + v2) = qhat * v1 * limbBase + qhat * v2 := by ring
      rw [add_mul (qhat * v1)]
      omega

theorem trialDigit_unclamped (hwl : wl < P) (hv1 : v1 < limbBase) (hu1 : u1 < limbBase) (hu0 : u0 < v1) :
    W < (trialDigit v1 v2 u0 u1 u2 + 1) * v ∧ trialDigit v1 v2 u0 u1 u2 * v ≤ W + v := by
  have hpos : 0 < v1 := by omega
  have hnum : u0 * limbBase + u1 < v1 * limbBase := by
    have hm := Nat.mul_le_mul_right limbBase (succ_le_of_lt hu0)
    rw [succ_mul] at hm
    omega
  have hq : (u0 * limbBase + u1) / v1 < limbBase := Nat.div_lt_of_lt_mul hnum
  have hmod := mod_lt (u0 * limbBase + u1) hpos
  have hsum : (u0 * limbBase + u1) / v1 * v1 + (u0 * limbBase + u1) % v1 = u0 * limbBase + u1 :=
    div_add_mod' _ _
  rw [trialDigit, if_neg (by omega)]
  refine trialLoop_spec hv hW hvl hv2 hu2 hwl hpos hq (by omega) hsum ?_ ?_
  · have := Nat.mul_le_mul_left limbBase hpos
    omega
  · rw [hv, hW]
    exact lt_of_div_eq hpos hwl hu2 rfl

/-- A clamped digit is stored wrong exactly when the true digit is the largest
one and the comparison lowered it. -/
theorem settledDigit_clamped (hnorm : limbBase ≤ 2 * v1) (hu0 : u0 = v1) (hWv : W < limbBase * v) :
    settledDigit (trialDigit v1 v2 u0 u1 u2) v W = W / v ↔ ¬ (W / v = limbBase - 1 ∧ ClampTest v1 v2 u1 u2) := by
  subst hu0
  have hpos : 0 < u0 := by
    omega
  have hlow : (limbBase - 3) * v ≤ W := by
    rw [hv, hW]
    exact le_of_leading_eq hvl hv2 hnorm
  have htop : W < (limbBase - 1 + 1) * v := hWv
  rw [trialDigit_clamped hnorm hv2 hu2]
  by_cases ht : ClampTest u0 v2 u1 u2
  · rw [if_pos ht]
    by_cases hlast : (limbBase - 1) * v ≤ W
    · have hq : W / v = limbBase - 1 := Nat.div_eq_of_lt_le hlast htop
      have hfit : ¬ W < (limbBase - 2) * v := by
        have := Nat.mul_le_mul_right v (show limbBase - 2 ≤ limbBase - 1 by decide)
        omega
      rw [settledDigit, if_neg hfit, hq]
      exact iff_of_false (by decide) fun h => h ⟨rfl, ht⟩
    · have hlt : W < (limbBase - 2 + 1) * v := Nat.lt_of_not_le hlast
      have hle : (limbBase - 2) * v ≤ W + v := by
        have he : (limbBase - 2) * v = (limbBase - 3) * v + v := succ_mul (limbBase - 3) v
        omega
      rw [settledDigit_eq hlt hle]
      refine iff_of_true rfl fun h => hlast ?_
      rw [← h.1]
      exact div_mul_le_self W v
  · rw [if_neg ht]
    refine iff_of_true (settledDigit_eq htop ?_) fun h => ht h.2
    rw [hv, hW]
    refine le_of_test_le hvl hpos (by decide) ?_
    unfold ClampTest at ht
    have he : (limbBase - 1) * (u0 * limbBase + v2) = (limbBase - 1) * u0 * limbBase + (limbBase - 1) * v2 := by
      ring
    have hs : u0 * limbBase = (limbBase - 1) * u0 + u0 := by
      rw [mul_comm u0]
      exact succ_mul (limbBase - 1) u0
    rw [he, hs, add_assoc, add_mul ((limbBase - 1) * u0)]
    -- either the shifted remainder is exact, or the remainder is at least the base
    by_cases hsmall : u0 + u1 < limbBase
    · have hmod : u1 % u0 = u1 := mod_eq_of_lt (by omega)
      rw [hmod, add_comm u1, mod_eq_of_lt hsmall] at ht
      omega
    · have hm : (limbBase - 1) * v2 ≤ limbBase * limbBase := Nat.mul_le_mul (by decide) (by omega)
      have hR := Nat.mul_le_mul_right limbBase (Nat.le_of_not_lt hsmall)
      omega

end Window

/-- At this partial dividend the quotient digit is the largest one, the
leading limbs agree so that the trial digit is clamped, and the comparison
lowers it all the same. -/
def ClampedTooLow (n v W : Nat) : Prop :=
  W / limbBase ^ n = v / limbBase ^ (n - 1) ∧ W / v = limbBase - 1 ∧
    ClampTest (v / limbBase ^ (n - 1)) (v / limbBase ^ (n - 2) % limbBase)
      (W / limbBase ^ (n - 1) % limbBase) (W / limbBase ^ (n - 2) % limbBase)

instance (n v W : Nat) : Decidable (ClampedTooLow n v W) :=
  inferInstanceAs (Decidable (_ ∧ _ ∧ _))

/-- One step of the division stores the right digit unless a clamped trial
digit is lowered. -/
theorem settledDigit_iff {k v W : Nat} (hv : v < limbBase ^ (k + 2))
    (hnorm : limbBase ≤ 2 * (v / limbBase ^ (k + 1))) (hW : W < limbBase * v) :
    settledDigit (trialDigit (v / limbBase ^ (k + 1)) (v / limbBase ^ k % limbBase)
        (W / limbBase ^ (k + 2)) (W / limbBase ^ (k + 1) % limbBase)
        (W / limbBase ^ k % limbBase)) v W = W / v ↔ ¬ ClampedTooLow (k + 2) v W := by
  have hB : 0 < limbBase := by decide
  have hmod : ∀ x, x % limbBase < limbBase := fun x => mod_lt x hB
  have hrest : ∀ x, x % limbBase ^ k < limbBase ^ k := fun x => mod_lt x (pow_pos hB k)
  have hv1 : v / limbBase ^ (k + 1) < limbBase := Nat.div_lt_of_lt_mul (by rwa [← pow_succ])
  have hle : W / limbBase ^ (k + 2) ≤ v / limbBase ^ (k + 1) := by
    rw [show k + 2 = 1 + (k + 1) by omega, pow_add, ← Nat.div_div_eq_div_mul]
    exact Nat.div_le_div_right (Nat.div_lt_of_lt_mul hW).le
  have hvd := leading_two limbBase v k
  have hWd := leading_three limbBase W k
  have hex : ClampedTooLow (k + 2) v W ↔ W / limbBase ^ (k + 2) = v / limbBase ^ (k + 1) ∧
      W / v = limbBase - 1 ∧ ClampTest (v / limbBase ^ (k + 1)) (v / limbBase ^ k % limbBase)
        (W / limbBase ^ (k + 1) % limbBase) (W / limbBase ^ k % limbBase) := Iff.rfl
  rw [hex]
  rcases hle.eq_or_lt with heq | hlt
  · rw [settledDigit_clamped hvd hWd (hrest v) (hmod _) (hmod _) hnorm heq hW]
    simp [heq]
  · have hs := trialDigit_unclamped hvd hWd (hrest v) (hmod _) (hmod _) (hrest W) hv1 (hmod _) hlt
    exact iff_of_true (settledDigit_eq hs.1 hs.2) fun h => hlt.ne h.1

theorem trialLoop_le (v1 v2 u2 fuel qhat rhat : Nat) : trialLoop v1 v2 u2 fuel qhat rhat ≤ qhat := by
  induction fuel generalizing qhat rhat with
  | zero => exact le_refl _
  | succ fuel ih =>
    rw [trialLoop]
    split_ifs with ht hb
    · exact sub_le _ _
    · exact (ih _ _).trans (sub_le _ _)
    · exact le_refl _

theorem trialDigit_lt (v1 v2 u0 u1 u2 : Nat) : trialDigit v1 v2 u0 u1 u2 < limbBase := by
  rw [trialDigit]
  split_ifs with hq
  · exact (trialLoop_le _ _ _ _ _ _).trans_lt (by decide)
  · exact (trialLoop_le _ _ _ _ _ _).trans_lt (by simp only [limbBase] at *; omega)

end Tablo.Bigint
