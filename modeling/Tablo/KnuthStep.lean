import Tablo.KnuthTrial

/-! Multiply-subtract and add-back on the limbs a division step looks at, the
step itself, and the run over all positions. -/

namespace Tablo.Bigint

open LongDivision List Nat

def window (u : List Nat) (j n : Nat) : List Nat := (u.drop j).take n

variable {u : List Nat} {j n : Nat} {v : List Nat}

theorem window_length (h : j + n ≤ u.length) : (window u j n).length = n := by
  simp only [window, length_take, length_drop]
  omega

theorem IsLimbs.window (h : IsLimbs u) (j n : Nat) : IsLimbs (window u j n) :=
  (h.drop j).take n

theorem magnitude_take_add (u : List Nat) (h : j + n ≤ u.length) :
    magnitude (u.take (j + n)) = magnitude (u.take j) + limbBase ^ j * magnitude (window u j n) := by
  rw [take_add, magnitude_append, length_take_of_le (by omega), window]

theorem magnitude_window_succ (h : j + n + 1 ≤ u.length) : magnitude (window u j (n + 1)) =
      magnitude (window u j n) + limbBase ^ n * u.getD (j + n) 0 := by
  have hn : n < (u.drop j).length := by
    rw [length_drop]
    omega
  have hg : u.getD (j + n) 0 = (u.drop j)[n] := by
    rw [getD_eq_getElem u 0 (by omega), getElem_drop]
  rw [window, window, take_succ_eq_append_getElem hn, magnitude_append, magnitude_singleton,
    length_take_of_le hn.le, hg]

theorem magnitude_div_pow {l : List Nat} (h : IsLimbs l) (i : Nat) :
    magnitude l / limbBase ^ i % limbBase = l.getD i 0 := by
  rw [← magnitude_drop h i]
  by_cases hi : i < l.length
  · rw [drop_eq_getElem_cons hi, magnitude_cons, add_mul_mod_self_left, getD_eq_getElem l 0 hi]
    exact mod_eq_of_lt (h _ (getElem_mem hi))
  · rw [drop_eq_nil_of_le (by omega), getD_eq_default l 0 (by omega)]
    rfl

theorem magnitude_div_pow_last {l : List Nat} (h : IsLimbs l) {i : Nat} (hi : l.length = i + 1) :
    magnitude l / limbBase ^ i = l.getD i 0 := by
  rw [← magnitude_div_pow h i]
  refine (mod_eq_of_lt (Nat.div_lt_of_lt_mul ?_)).symm
  rw [← pow_succ, ← hi]
  exact magnitude_lt h

theorem window_getD {i : Nat} (hi : i < n) : (window u j n).getD i 0 = u.getD (j + i) 0 := by
  simp [window, hi]

theorem window_splice {w : List Nat} (rest : List Nat) (hj : j ≤ u.length)
    (hn : w.length = n) : window (u.take j ++ (w ++ rest)) j n = w := by
  have hd : (u.take j ++ (w ++ rest)).drop j = w ++ rest := by
    rw [drop_append_of_le_length (by simp [hj]), drop_eq_nil_of_le (by simp), nil_append]
  rw [window, hd, ← hn, take_left]

/-- The part of `u` that the step at `j` divides by `v`. -/
abbrev dividendAt (u v : List Nat) (j : Nat) : Nat := magnitude (window u j (v.length + 1))

theorem take_splice (x : List Nat) (hj : j ≤ u.length) : (u.take j ++ x).take j = u.take j := by
  rw [take_append_of_le_length (by simp [hj]), take_take, min_self]

theorem trialAt_lt (v u : List Nat) (j : Nat) : trialAt v u j < limbBase := trialDigit_lt _ _ _ _ _

theorem knuthStep_lt (v u : List Nat) (j : Nat) : (knuthStep v u j).2 < limbBase := by
  have hlt := trialAt_lt v u j
  rw [knuthStep]
  split <;> dsimp only <;> omega

theorem dividendAt_lt (hu : IsLimbs u) (hj : j + v.length + 1 ≤ u.length) :
    dividendAt u v j < limbBase ^ (v.length + 1) := by
  have hlt := magnitude_lt (hu.window j (v.length + 1))
  rwa [window_length (by omega)] at hlt

section

variable (hu : IsLimbs u) (hv : IsLimbs v) (hj : j + v.length + 1 ≤ u.length)

include hu hv hj

theorem bigintSubMul_spec {qhat : Nat} (hq : qhat < limbBase) :
    let s := bigintSubMul u v j qhat
    dividendAt s.1 v j + qhat * magnitude v =
        dividendAt u v j + limbBase ^ (v.length + 1) * s.2.toNat ∧
      IsLimbs s.1 ∧ s.1.length = u.length ∧ s.1.take j = u.take j := by
  have hlen : (window u j v.length).length = v.length := window_length (by omega)
  obtain ⟨heq, hl, hn, hc, hb⟩ := subMulLoop_spec hq (hu.window j v.length) hv hlen
    (show 0 < limbBase by decide) (Nat.zero_le 1)
  obtain ⟨w, hw⟩ : ∃ w, subMulLoop qhat (window u j v.length) v 0 0 = w := ⟨_, rfl⟩
  rw [hw] at heq hl hn hc hb
  obtain ⟨top, ht⟩ : ∃ top, subBorrow (u.getD (j + v.length) 0) (w.2.1 + w.2.2) = top := ⟨_, rfl⟩
  have htop := subBorrow_eq (x := u.getD (j + v.length) 0) (show w.2.1 + w.2.2 ≤ limbBase by omega)
  have hle := subBorrow_le_one (u.getD (j + v.length) 0) (w.2.1 + w.2.2)
  have hlt := subBorrow_lt (s := w.2.1 + w.2.2) (hu.getD_lt (j + v.length))
  rw [ht] at htop hle hlt
  have hdef : bigintSubMul u v j qhat =
      (u.take j ++ ((w.1 ++ [top.1]) ++ u.drop (j + v.length + 1)), top.2 == 1) := by
    rw [bigintSubMul, ← window, hw, ht]
    simp
  have hbit : (top.2 == 1).toNat = top.2 := by
    rcases le_one_iff_eq_zero_or_eq_one.mp hle with h | h <;> simp [h]
  rw [hdef]
  refine ⟨?_, ?_, ?_, take_splice _ (by omega)⟩
  · rw [dividendAt, dividendAt, window_splice _ (by omega) (by simp; omega), hbit, magnitude_append, magnitude_singleton,
      magnitude_window_succ hj, hn, hlen, pow_succ, mul_assoc]
    rw [hlen] at heq
    have hm := congrArg (limbBase ^ v.length * ·) htop
    simp only [mul_add] at hm heq
    omega
  · refine isLimbs_append.mpr ⟨hu.take j, isLimbs_append.mpr ⟨isLimbs_append.mpr ⟨hl, ?_⟩, hu.drop _⟩⟩
    exact isLimbs_cons.mpr ⟨hlt, isLimbs_nil⟩
  · simp only [length_append, length_take, length_drop, length_singleton, hn]
    omega

theorem bigintAddBack_spec :
    let r := bigintAddBack u v j
    (∃ k, dividendAt r v j + limbBase ^ (v.length + 1) * k =
        dividendAt u v j + magnitude v) ∧
      IsLimbs r ∧ r.length = u.length ∧ r.take j = u.take j := by
  have hlen : (window u j v.length).length = v.length := window_length (by omega)
  obtain ⟨heq, hl, hn, hc⟩ := addLoop_spec (hu.window j v.length) hv hlen (Nat.zero_le 1)
  have hdrop : u.drop (j + v.length) = u.getD (j + v.length) 0 :: u.drop (j + v.length + 1) := by
    rw [getD_eq_getElem u 0 (by omega), drop_eq_getElem_cons (by omega)]
  have htop := hu.getD_lt (j + v.length)
  obtain ⟨w, hw⟩ : ∃ w, addLoop (window u j v.length) v 0 = w := ⟨_, rfl⟩
  rw [hw] at heq hl hn hc
  have hdef : bigintAddBack u v j = u.take j ++ (w.1 ++ carryLoop (u.drop (j + v.length)) w.2) := by
    rw [bigintAddBack, ← window, hw]
  obtain ⟨-, hcl, hcn⟩ := carryLoop_spec (hu.drop (j + v.length)) (hc.trans_lt (by decide))
  obtain ⟨rest, hrest⟩ := carryLoop_head _ (u.drop (j + v.length + 1)) w.2 htop
  rw [← hdrop] at hrest
  rw [hdef]
  refine ⟨⟨(u.getD (j + v.length) 0 + w.2) / limbBase, ?_⟩, ?_, ?_, take_splice _ (by omega)⟩
  · have hcat : w.1 ++ (u.getD (j + v.length) 0 + w.2) % limbBase :: rest =
        (w.1 ++ [(u.getD (j + v.length) 0 + w.2) % limbBase]) ++ rest := by
      simp
    rw [dividendAt, dividendAt, hrest, hcat, window_splice _ (by omega) (by simp; omega), magnitude_append,
      magnitude_singleton, magnitude_window_succ hj, hn, hlen, pow_succ, mul_assoc]
    have hm := congrArg (limbBase ^ v.length * ·) (mod_add_div (u.getD (j + v.length) 0 + w.2) limbBase)
    rw [hlen] at heq
    simp only [mul_add] at hm
    omega
  · exact isLimbs_append.mpr ⟨hu.take j, isLimbs_append.mpr ⟨hl, hcl⟩⟩
  · simp only [length_append, length_take, hcn, length_drop]
    omega

theorem knuthStep_frame :
    IsLimbs (knuthStep v u j).1 ∧ (knuthStep v u j).1.length = u.length ∧ (knuthStep v u j).1.take j = u.take j := by
  obtain ⟨-, hl, hn, ht⟩ := bigintSubMul_spec hu hv hj (trialAt_lt v u j)
  obtain ⟨-, hl', hn', ht'⟩ := bigintAddBack_spec hl hv (hn.symm ▸ hj)
  rw [knuthStep]
  split
  · exact ⟨hl', hn'.trans hn, ht'.trans ht⟩
  · exact ⟨hl, hn, ht⟩

/-- What the step leaves in its window, when the product fits and when the
divisor is added back. -/
theorem knuthStep_cases : ((knuthStep v u j).2 = trialAt v u j ∧
      dividendAt (knuthStep v u j).1 v j + trialAt v u j * magnitude v = dividendAt u v j) ∨
    ((knuthStep v u j).2 = trialAt v u j - 1 ∧ dividendAt u v j < trialAt v u j * magnitude v ∧
      ∃ k, dividendAt (knuthStep v u j).1 v j + limbBase ^ (v.length + 1) * k + trialAt v u j * magnitude v =
          dividendAt u v j + limbBase ^ (v.length + 1) + magnitude v) := by
  obtain ⟨heq, hl, hn, -⟩ := bigintSubMul_spec hu hv hj (trialAt_lt v u j)
  have hlt := dividendAt_lt hl (hn.symm ▸ hj)
  obtain ⟨⟨k, hk⟩, -⟩ := bigintAddBack_spec hl hv (hn.symm ▸ hj)
  rw [knuthStep]
  cases hb : (bigintSubMul u v j (trialAt v u j)).2 with
  | false =>
    left
    rw [hb, Bool.toNat_false, Nat.mul_zero] at heq
    exact ⟨by simp, by simpa using heq⟩
  | true =>
    right
    rw [hb, Bool.toNat_true] at heq
    exact ⟨by simp, by omega, k, by simp only [if_true]; omega⟩

theorem knuthStep_digit : (knuthStep v u j).2 = settledDigit (trialAt v u j) (magnitude v) (dividendAt u v j) := by
  unfold settledDigit
  rcases knuthStep_cases hu hv hj with ⟨hq, heq⟩ | ⟨hq, hlt, -⟩
  · rw [if_neg (by omega), hq]
  · rw [if_pos hlt, hq]

theorem knuthStep_window (hpos : 0 < magnitude v) (hq : (knuthStep v u j).2 = dividendAt u v j / magnitude v) :
    dividendAt (knuthStep v u j).1 v j = dividendAt u v j % magnitude v := by
  have hdm := div_add_mod' (dividendAt u v j) (magnitude v)
  rcases knuthStep_cases hu hv hj with ⟨hd, heq⟩ | ⟨hd, hlt, k, hk⟩
  · rw [← hq, hd] at hdm
    omega
  · obtain ⟨hl, hn, -⟩ := knuthStep_frame hu hv hj
    have hw := dividendAt_lt hl (hn.symm ▸ hj)
    have hr : dividendAt u v j % magnitude v < limbBase ^ (v.length + 1) :=
      ((mod_lt _ hpos).trans (magnitude_lt hv)).trans_le (Nat.pow_le_pow_right (by decide) (le_succ _))
    have hs : trialAt v u j * magnitude v = (trialAt v u j - 1) * magnitude v + magnitude v := by
      cases ht : trialAt v u j with
      | zero => simp [ht] at hlt
      | succ t => exact succ_mul t _
    rw [← hq, hd] at hdm
    -- the carry out of the top limb is exactly the borrow taken before
    have hsum : dividendAt (knuthStep v u j).1 v j + limbBase ^ (v.length + 1) * k =
        dividendAt u v j % magnitude v + limbBase ^ (v.length + 1) * 1 := by
      omega
    have hm := congrArg (· % limbBase ^ (v.length + 1)) hsum
    simpa only [add_mul_mod_self_left, mod_eq_of_lt hw, mod_eq_of_lt hr] using hm

end

structure NormalizedDivisor (v : List Nat) : Prop where
  limbs : IsLimbs v
  two_le : 2 ≤ v.length
  half_le : limbBase ≤ 2 * (magnitude v / limbBase ^ (v.length - 1))

theorem NormalizedDivisor.pos (hv : NormalizedDivisor v) : 0 < magnitude v := by
  rcases Nat.eq_zero_or_pos (magnitude v) with h0 | h0
  · have := hv.half_le
    simp [h0] at this
  · exact h0

theorem knuthStep_iff (hu : IsLimbs u) (hv : NormalizedDivisor v) (hj : j + v.length + 1 ≤ u.length)
    (hW : dividendAt u v j < limbBase * magnitude v) : (knuthStep v u j).2 = dividendAt u v j / magnitude v ↔
      ¬ ClampedTooLow v.length (magnitude v) (dividendAt u v j) := by
  obtain ⟨k, hk⟩ : ∃ k, v.length = k + 2 := ⟨v.length - 2, by have := hv.two_le; omega⟩
  have hwl := hu.window j (v.length + 1)
  have hwn : (window u j (v.length + 1)).length = v.length + 1 := window_length hj
  have hv1 := magnitude_div_pow_last hv.limbs (show v.length = k + 1 + 1 from hk)
  have hv2 := magnitude_div_pow hv.limbs k
  have hu0 := magnitude_div_pow_last hwl hwn
  have hu1 := magnitude_div_pow hwl (k + 1)
  have hu2 := magnitude_div_pow hwl k
  rw [window_getD (by omega)] at hu0 hu1 hu2
  have htrial : trialAt v u j = trialDigit (magnitude v / limbBase ^ (k + 1)) (magnitude v / limbBase ^ k % limbBase)
      (dividendAt u v j / limbBase ^ (k + 2))
      (dividendAt u v j / limbBase ^ (k + 1) % limbBase)
      (dividendAt u v j / limbBase ^ k % limbBase) := by
    rw [hv1, hv2, ← hk, hu0, hu1, hu2, trialAt]
    simp only [hk]
    rfl
  have hlt := magnitude_lt hv.limbs
  have hnorm := hv.half_le
  rw [knuthStep_digit hu hv.limbs hj, htrial]
  rw [hk] at hlt hnorm ⊢
  exact settledDigit_iff hlt hnorm hW

theorem knuthLoop_digits (v : List Nat) (j : Nat) (u : List Nat) :
    IsLimbs (knuthLoop v j u).2 ∧ (knuthLoop v j u).2.length = j := by
  induction j generalizing u with
  | zero => exact ⟨isLimbs_nil, rfl⟩
  | succ j ih =>
    obtain ⟨hl, hn⟩ := ih (knuthStep v u j).1
    simp only [knuthLoop, length_append, hn, length_singleton, and_true]
    exact isLimbs_append.mpr ⟨hl, isLimbs_cons.mpr ⟨mod_lt _ (by decide), isLimbs_nil⟩⟩

theorem knuthLoop_frame (hv : IsLimbs v) (hu : IsLimbs u) (hj : j + v.length ≤ u.length) :
    IsLimbs (knuthLoop v j u).1 ∧ (knuthLoop v j u).1.length = u.length := by
  induction j generalizing u with
  | zero => exact ⟨hu, rfl⟩
  | succ j ih =>
    obtain ⟨hl, hn, -⟩ := knuthStep_frame hu hv (show j + v.length + 1 ≤ u.length by omega)
    obtain ⟨hl', hn'⟩ := ih hl (by omega)
    exact ⟨hl', hn'.trans hn⟩

theorem magnitude_take_succ (hj : j + n + 1 ≤ u.length) : magnitude (u.take (j + 1 + n)) =
      magnitude (u.take j) + limbBase ^ j * magnitude (window u j (n + 1)) := by
  rw [← magnitude_take_add u (show j + (n + 1) ≤ u.length by omega)]
  congr 2
  omega

theorem magnitude_take_lt (hu : IsLimbs u) (hj : j ≤ u.length) :
    magnitude (u.take j) < limbBase ^ j := by
  simpa [hj] using magnitude_lt (hu.take j)

theorem knuthStep_dividend (hu : IsLimbs u) (hv : NormalizedDivisor v)
    (hj : j + v.length + 1 ≤ u.length) (hq : (knuthStep v u j).2 = dividendAt u v j / magnitude v) :
    magnitude (u.take (j + 1 + v.length)) = magnitude ((knuthStep v u j).1.take (j + v.length)) +
          limbBase ^ j * ((knuthStep v u j).2 * magnitude v) ∧
      magnitude ((knuthStep v u j).1.take (j + v.length)) < limbBase ^ j * magnitude v := by
  obtain ⟨hl, hn, ht⟩ := knuthStep_frame hu hv.limbs hj
  have hrem := knuthStep_window hu hv.limbs hj hv.pos hq
  have hmod := mod_lt (dividendAt u v j) hv.pos
  have hdm := div_add_mod' (dividendAt u v j) (magnitude v)
  have hsucc : dividendAt (knuthStep v u j).1 v j = _ := magnitude_window_succ (hn.symm ▸ hj)
  have hzero : (knuthStep v u j).1.getD (j + v.length) 0 = 0 := by
    by_contra hne
    have hm := Nat.mul_le_mul_left (limbBase ^ v.length) (one_le_iff_ne_zero.mpr hne)
    have hlt := magnitude_lt hv.limbs
    omega
  have hwin : magnitude (window (knuthStep v u j).1 j v.length) =
      dividendAt u v j % magnitude v := by
    rw [hzero] at hsucc
    omega
  have hlow := magnitude_take_lt hu (show j ≤ u.length by omega)
  rw [magnitude_take_succ hj, magnitude_take_add _ (by omega), hwin, ht, hq]
  constructor
  · rw [add_assoc, ← mul_add, add_comm (_ % _), hdm]
  · have hm := Nat.mul_le_mul_left (limbBase ^ j) (succ_le_of_lt hmod)
    rw [mul_succ] at hm
    omega

def NoClamp (n v X j : Nat) : Prop :=
  ∀ i < j, ¬ ClampedTooLow n v (partialDividend limbBase v X i)

instance (n v X j : Nat) : Decidable (NoClamp n v X j) :=
  inferInstanceAs (Decidable (∀ i < j, _))

theorem noClamp_succ {v X : Nat} (hX : X / limbBase ^ j < v * limbBase) :
    NoClamp n v X (j + 1) ↔ NoClamp n v X j ∧ ¬ ClampedTooLow n v (X / limbBase ^ j) := by
  unfold NoClamp
  rw [forall_lt_succ_right, partialDividend_top (by decide) hX]

theorem noClamp_add {v q : Nat} (X : Nat) : NoClamp n v (X + limbBase ^ j * (q * v)) j ↔ NoClamp n v X j := by
  refine forall₂_congr fun i hi => ?_
  rw [partialDividend_add (by decide) X q hi]

/-- A run over the positions below `j` yields the quotient exactly when no
partial dividend meets the clamp, and then it leaves the remainder. -/
theorem knuthLoop_spec (hv : NormalizedDivisor v) (hu : IsLimbs u) (hj : j + v.length ≤ u.length)
    (hX : magnitude (u.take (j + v.length)) < limbBase ^ j * magnitude v) :
    (magnitude (knuthLoop v j u).2 = magnitude (u.take (j + v.length)) / magnitude v ↔
      NoClamp v.length (magnitude v) (magnitude (u.take (j + v.length))) j) ∧
    (NoClamp v.length (magnitude v) (magnitude (u.take (j + v.length))) j →
      magnitude ((knuthLoop v j u).1.take v.length) = magnitude (u.take (j + v.length)) % magnitude v) := by
  induction j generalizing u with
  | zero =>
    rw [pow_zero, one_mul] at hX
    simp only [Nat.zero_add] at hX ⊢
    refine ⟨iff_of_true ?_ (by simp [NoClamp]), fun _ => (mod_eq_of_lt hX).symm⟩
    rw [div_eq_of_lt hX]
    rfl
  | succ j ih =>
    have hB : 0 < limbBase ^ j := pow_pos (by decide) j
    have hj' : j + v.length + 1 ≤ u.length := by omega
    have hlow := magnitude_take_lt hu (show j ≤ u.length by omega)
    have htop : magnitude (u.take (j + 1 + v.length)) / limbBase ^ j = dividendAt u v j := by
      rw [magnitude_take_succ hj', add_mul_div_left _ _ hB, div_eq_of_lt hlow, Nat.zero_add]
    have hW : dividendAt u v j < limbBase * magnitude v := by
      rw [← htop]
      exact Nat.div_lt_of_lt_mul (by rwa [← mul_assoc])
    have hstep := knuthStep_iff hu hv hj' hW
    have hlt := knuthStep_lt v u j
    obtain ⟨hdl, hdn⟩ := knuthLoop_digits v j (knuthStep v u j).1
    rw [noClamp_succ (by rwa [htop, mul_comm]), htop, ← hstep]
    simp only [knuthLoop, mod_eq_of_lt hlt, magnitude_append, magnitude_singleton, hdn]
    by_cases hq : (knuthStep v u j).2 = dividendAt u v j / magnitude v
    · obtain ⟨hX', hlt'⟩ := knuthStep_dividend hu hv hj' hq
      obtain ⟨hl, hn, -⟩ := knuthStep_frame hu hv.limbs hj'
      obtain ⟨hquot, hrem⟩ := ih hl (by omega) hlt'
      rw [hX', noClamp_add, ← mul_assoc, add_mul_div_right _ _ hv.pos, add_mul_mod_self_right]
      exact ⟨by rw [add_right_cancel_iff, hquot]; simp [hq], fun h => hrem h.1⟩
    · refine ⟨iff_of_false (fun heq => hq ?_) fun h => hq h.2, fun h => absurd h.2 hq⟩
      -- the digits below cannot make up for a wrong one
      have hd := congrArg (· / limbBase ^ j) heq
      have hm := magnitude_lt hdl
      rw [hdn] at hm
      simp only [add_mul_div_left _ _ hB, div_eq_of_lt hm, Nat.zero_add] at hd
      rw [hd, Nat.div_right_comm, htop]

end Tablo.Bigint
