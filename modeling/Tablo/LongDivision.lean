import Mathlib.Tactic.Linarith
import Mathlib.Tactic.Ring

/-! Schoolbook long division in an arbitrary base. A dividend is consumed one
digit at a time; the partial dividend at a position decides the quotient digit
there. The second half bounds a trial digit taken from the leading digits. -/

namespace LongDivision

open Nat

def partialDividend (B v U j : Nat) : Nat :=
  U / B ^ (j + 1) % v * B + U / B ^ j % B

variable {B j v : Nat}

theorem partialDividend_lt (hB : 0 < B) (hv : 0 < v) (U j : Nat) : partialDividend B v U j < v * B := by
  have hr := mod_lt (U / B ^ (j + 1)) hv
  have hd := mod_lt (U / B ^ j) hB
  have hm : (U / B ^ (j + 1) % v + 1) * B ≤ v * B := Nat.mul_le_mul_right B hr
  rw [add_mul] at hm
  unfold partialDividend
  omega

/-- Bringing down one digit splits the prefix into the part already divided
and the partial dividend. -/
theorem prefix_eq (v U j : Nat) : U / B ^ j = v * (U / B ^ (j + 1) / v * B) + partialDividend B v U j := by
  have hs : U / B ^ (j + 1) = U / B ^ j / B := by rw [pow_succ, Nat.div_div_eq_div_mul]
  have hd := div_add_mod (U / B ^ j) B
  have hv := div_add_mod (U / B ^ (j + 1)) v
  calc U / B ^ j = B * (U / B ^ (j + 1)) + U / B ^ j % B := by rw [hs, hd]
    _ = B * (v * (U / B ^ (j + 1) / v) + U / B ^ (j + 1) % v) + U / B ^ j % B := by rw [hv]
    _ = v * (U / B ^ (j + 1) / v * B) + (U / B ^ (j + 1) % v * B + U / B ^ j % B) := by ring

theorem prefix_div (hv : 0 < v) (U j : Nat) :
    U / B ^ j / v = U / B ^ (j + 1) / v * B + partialDividend B v U j / v := by
  conv_lhs => rw [prefix_eq v U j]
  exact mul_add_div hv _ _

theorem quotient_digit (hB : 0 < B) (hv : 0 < v) (U j : Nat) :
    U / v / B ^ j % B = partialDividend B v U j / v := by
  have hlt : partialDividend B v U j / v < B :=
    Nat.div_lt_of_lt_mul (partialDividend_lt hB hv U j)
  rw [Nat.div_right_comm, prefix_div hv U j, mul_comm _ B, mul_add_mod, mod_eq_of_lt hlt]

/-- Taking a multiple of the divisor off the upper part leaves the partial
dividends below it alone. -/
theorem partialDividend_add (hB : 0 < B) (X q : Nat) {i : Nat} (hij : i < j) :
    partialDividend B v (X + B ^ j * (q * v)) i = partialDividend B v X i := by
  obtain ⟨k, rfl⟩ : ∃ k, j = i + 1 + k := ⟨j - (i + 1), by omega⟩
  have hhigh : (X + B ^ (i + 1 + k) * (q * v)) / B ^ (i + 1) % v = X / B ^ (i + 1) % v := by
    rw [pow_add, mul_assoc, add_mul_div_left _ _ (pow_pos hB _), ← mul_assoc, add_mul_mod_self_right]
  have hlow : (X + B ^ (i + 1 + k) * (q * v)) / B ^ i % B = X / B ^ i % B := by
    rw [add_assoc, pow_add, mul_assoc, add_mul_div_left _ _ (pow_pos hB _), pow_add,
      pow_one, mul_assoc, add_mul_mod_self_left]
  rw [partialDividend, hhigh, hlow, partialDividend]

theorem partialDividend_top {X : Nat} (hB : 0 < B) (hX : X / B ^ j < v * B) :
    partialDividend B v X j = X / B ^ j := by
  have hs : X / B ^ (j + 1) = X / B ^ j / B := by rw [pow_succ, Nat.div_div_eq_div_mul]
  have hlt : X / B ^ j / B < v := (Nat.div_lt_iff_lt_mul hB).mpr hX
  rw [partialDividend, hs, mod_eq_of_lt hlt, div_add_mod']

theorem leading_two (B x k : Nat) : x = (x / B ^ (k + 1) * B + x / B ^ k % B) * B ^ k + x % B ^ k := by
  have hs : x / B ^ (k + 1) = x / B ^ k / B := by rw [pow_succ, Nat.div_div_eq_div_mul]
  rw [hs, div_add_mod', div_add_mod']

theorem leading_three (B x k : Nat) :
    x = ((x / B ^ (k + 2) * B + x / B ^ (k + 1) % B) * B + x / B ^ k % B) * B ^ k + x % B ^ k := by
  have hs : x / B ^ (k + 2) = x / B ^ (k + 1) / B := by
    rw [pow_succ, Nat.div_div_eq_div_mul]
  rw [hs, div_add_mod']
  exact leading_two B x k

variable {B P v1 v2 vl u u1 u2 wl qhat rhat : Nat}

theorem lt_of_div_eq (hv1 : 0 < v1) (hwl : wl < P) (hu2 : u2 < B) (hq : u / v1 = qhat) :
    (u * B + u2) * P + wl < (qhat + 1) * ((v1 * B + v2) * P + vl) := by
  have hlt : u + 1 ≤ (qhat + 1) * v1 := by
    rw [← hq, mul_comm _ v1]
    exact lt_mul_div_succ _ hv1
  calc (u * B + u2) * P + wl
      < (u * B + u2 + 1) * P := by rw [add_mul _ 1]; omega
    _ ≤ ((u + 1) * B) * P := by
      apply Nat.mul_le_mul_right
      rw [add_mul _ 1]
      omega
    _ ≤ ((qhat + 1) * v1 * B) * P := Nat.mul_le_mul_right _ (Nat.mul_le_mul_right _ hlt)
    _ = (qhat + 1) * (v1 * B * P) := by ring
    _ ≤ (qhat + 1) * ((v1 * B + v2) * P + vl) := by
      apply Nat.mul_le_mul_left
      rw [add_mul]
      omega

/-- A trial digit that fails the test against the second divisor digit is too
large. -/
theorem lt_of_test_gt (hwl : wl < P) (hr : qhat * v1 + rhat = u) (ht : rhat * B + u2 < qhat * v2) :
    (u * B + u2) * P + wl < qhat * ((v1 * B + v2) * P + vl) := by
  have hh : u * B + u2 + 1 ≤ qhat * (v1 * B + v2) := by
    rw [← hr]
    have he : qhat * (v1 * B + v2) = qhat * v1 * B + qhat * v2 := by ring
    rw [add_mul]
    omega
  calc (u * B + u2) * P + wl
      < (u * B + u2 + 1) * P := by rw [add_mul _ 1]; omega
    _ ≤ qhat * (v1 * B + v2) * P := Nat.mul_le_mul_right P hh
    _ ≤ qhat * ((v1 * B + v2) * P + vl) := by
      rw [mul_assoc]
      exact Nat.mul_le_mul_left qhat (Nat.le_add_right _ _)

theorem le_of_test_le (hvl : vl < P) (hv1 : 0 < v1) (hq : qhat ≤ B) (ht : qhat * (v1 * B + v2) ≤ u * B + u2) :
    qhat * ((v1 * B + v2) * P + vl) ≤ (u * B + u2) * P + wl + ((v1 * B + v2) * P + vl) := by
  have hb : qhat * vl ≤ B * P := Nat.mul_le_mul hq hvl.le
  have hv : B * P ≤ (v1 * B + v2) * P := by
    apply Nat.mul_le_mul_right
    have := Nat.mul_le_mul_right B hv1
    omega
  have hm := Nat.mul_le_mul_right P ht
  calc qhat * ((v1 * B + v2) * P + vl)
      = qhat * (v1 * B + v2) * P + qhat * vl := by ring
    _ ≤ (u * B + u2) * P + wl + ((v1 * B + v2) * P + vl) := by omega

theorem le_of_leading_eq (hvl : vl < P) (hv2 : v2 < B) (hnorm : B ≤ 2 * v1) :
    (B - 3) * ((v1 * B + v2) * P + vl) ≤ ((v1 * B + u1) * B + u2) * P + wl := by
  have hv : (v1 * B + v2) * P + vl ≤ (v1 + 1) * B * P := by
    have h2 : (v1 * B + v2 + 1) * P ≤ (v1 + 1) * B * P := by
      apply Nat.mul_le_mul_right
      rw [add_mul v1]
      omega
    rw [add_mul _ 1] at h2
    omega
  have hk : (B - 3) * (v1 + 1) ≤ v1 * B := by
    by_cases h3 : B ≤ 3
    · simp [Nat.sub_eq_zero_of_le h3]
    · obtain ⟨k, rfl⟩ : ∃ k, B = k + 3 := ⟨B - 3, by omega⟩
      rw [Nat.add_sub_cancel]
      nlinarith
  calc (B - 3) * ((v1 * B + v2) * P + vl)
      ≤ (B - 3) * ((v1 + 1) * B * P) := Nat.mul_le_mul_left _ hv
    _ = (B - 3) * (v1 + 1) * (B * P) := by ring
    _ ≤ v1 * B * (B * P) := Nat.mul_le_mul_right _ hk
    _ ≤ ((v1 * B + u1) * B + u2) * P + wl := by nlinarith [Nat.zero_le (u1 * B * P), Nat.zero_le (u2 * P)]

end LongDivision
