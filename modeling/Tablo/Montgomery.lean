import Mathlib.Data.Int.ModEq
import Mathlib.Tactic.LinearCombination
import Mathlib.Tactic.Ring

/-! Arithmetic behind Montgomery multiplication: inverting a word by Newton's
iteration, clearing digits by multiples of the modulus, one final subtraction. -/

namespace Montgomery

open Nat

theorem newton {m y : Int} (h : m ∣ y - 1) : m * m ∣ y * (2 - y) - 1 := by
  obtain ⟨q, hq⟩ := h
  refine ⟨-(q * q), ?_⟩
  linear_combination (-(y - 1) - m * q) * hq

variable {B N inv : Nat}

theorem clear_digit (hinv : (N * inv + 1) % B = 0) (t : Nat) : (t + t % B * inv % B * N) % B = 0 := by
  have hm : t + t % B * inv % B * N ≡ t * (N * inv + 1) [MOD B] := by
    calc t + t % B * inv % B * N
        ≡ t + t % B * inv * N [MOD B] := (mod_modEq _ _).mul_right N |>.add_left t
      _ ≡ t + t * inv * N [MOD B] := (((mod_modEq t B).mul_right inv).mul_right N).add_left t
      _ ≡ t * (N * inv + 1) [MOD B] := by rw [show t + t * inv * N = t * (N * inv + 1) by ring]
  have hz : t * (N * inv + 1) ≡ t * 0 [MOD B] := ModEq.mul_left t hinv
  exact (hm.trans hz)

theorem clear_next (hB : 0 < B) (hinv : (N * inv + 1) % B = 0) {i S : Nat} (hi : B ^ i ∣ S) :
    B ^ (i + 1) ∣ S + B ^ i * (S / B ^ i % B * inv % B * N) := by
  obtain ⟨t, rfl⟩ := hi
  rw [Nat.mul_div_cancel_left t (Nat.pow_pos hB), ← Nat.mul_add]
  exact Nat.mul_dvd_mul_left _ (dvd_of_mod_eq_zero (clear_digit hinv t))

variable {T P X M : Nat}

theorem reduced_modEq (h : T * P = X + M * N) : (if N ≤ T then T - N else T) * P ≡ X [MOD N] := by
  have hT : T * P ≡ X [MOD N] := by
    rw [h]
    exact add_mul_modulus_modEq_iff.mpr (ModEq.refl X)
  split
  next hle =>
    refine ModEq.trans ?_ hT
    have heq : T * P = (T - N) * P + P * N := by
      rw [Nat.mul_comm P N, ← Nat.add_mul, Nat.sub_add_cancel hle]
    rw [heq]
    exact (add_mul_modulus_modEq_iff.mpr (ModEq.refl _)).symm
  next => exact hT

theorem reduced_lt (h : T * P = X + M * N) (hM : M < P) (hX : X < P * N) : (if N ≤ T then T - N else T) < N := by
  have hMN : M * N ≤ P * N := Nat.mul_le_mul_right N (Nat.le_of_lt hM)
  have hT : T < 2 * N := by
    refine Nat.lt_of_mul_lt_mul_right (a := P) ?_
    calc T * P = X + M * N := h
      _ < P * N + P * N := by omega
      _ = 2 * N * P := by ring
  split <;> omega

end Montgomery
