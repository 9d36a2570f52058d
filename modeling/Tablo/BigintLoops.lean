import Tablo.BigintLimbs

/-! Carry and borrow loops over limb arrays, each with the equation between
the magnitudes it reads and writes. -/

namespace Tablo.Bigint

open List Nat

variable {x : Nat} {a : List Nat} {carry : Nat} {borrow c d m s y : Nat} {l u v : List Nat}

theorem u64_of_lt (h : x < limbBase * limbBase) : u64 x = x := mod_eq_of_lt h

section

variable (hx : x < limbBase) (hy : y < limbBase)

include hx hy

theorem mul_add_lt (hc : c < limbBase) :
    x * y + c < limbBase * limbBase := by
  have hm : x * y ≤ (limbBase - 1) * (limbBase - 1) := Nat.mul_le_mul (by omega) (by omega)
  simp only [limbBase] at *
  omega

theorem add_add_lt (hc : c ≤ 1) :
    x + y + c < limbBase * limbBase := by
  simp only [limbBase] at *
  omega

theorem add_div_le_one (hc : c ≤ 1) :
    (x + y + c) / limbBase ≤ 1 := by
  simp only [limbBase] at *
  omega

end

theorem subBorrow_eq (hs : s ≤ limbBase) : (subBorrow x s).1 + s = x + limbBase * (subBorrow x s).2 := by
  unfold subBorrow
  split <;> dsimp only <;> omega

theorem subBorrow_lt (hx : x < limbBase) : (subBorrow x s).1 < limbBase := by
  unfold subBorrow
  split <;> dsimp only <;> omega

theorem subBorrow_le_one (x s : Nat) : (subBorrow x s).2 ≤ 1 := by
  unfold subBorrow
  split <;> simp

theorem mulSmallLoop_spec (hm : m < limbBase) (ha : IsLimbs a) (hc : carry < limbBase) :
    magnitude (mulSmallLoop m a carry).1 + limbBase ^ a.length * (mulSmallLoop m a carry).2 =
        magnitude a * m + carry ∧
      IsLimbs (mulSmallLoop m a carry).1 ∧ (mulSmallLoop m a carry).1.length = a.length ∧
      (mulSmallLoop m a carry).2 < limbBase := by
  induction a generalizing carry with
  | nil => simpa [mulSmallLoop, isLimbs_nil] using hc
  | cons x xs ih =>
    have hx := (isLimbs_cons.mp ha).1
    have hb := mul_add_lt hx hm hc
    have hc' : (x * m + carry) / limbBase < limbBase := Nat.div_lt_of_lt_mul hb
    obtain ⟨heq, hl, hn, hlt⟩ := ih (isLimbs_cons.mp ha).2 hc'
    have hd := mod_add_div (x * m + carry) limbBase
    simp only [mulSmallLoop, u64_of_lt hb, magnitude_cons, length_cons]
    refine ⟨?_, isLimbs_cons.mpr ⟨mod_lt _ (by decide), hl⟩, by omega, hlt⟩
    have hs := congrArg (limbBase * ·) heq
    simp only [mul_add, ← mul_assoc] at hs
    rw [pow_succ', add_mul]
    omega

theorem bigintMulSmall_spec (hm : m < limbBase) (hm0 : 0 < m) (ha : IsLimbs a) (hne : a ≠ []) :
    magnitude (bigintMulSmall a m) = magnitude a * m ∧ IsLimbs (bigintMulSmall a m) ∧
      ((bigintMulSmall a m).length = a.length ∨ (bigintMulSmall a m).length = a.length + 1) := by
  obtain ⟨heq, hl, hn, hlt⟩ := mulSmallLoop_spec hm ha (show 0 < limbBase by decide)
  have hcond : ¬ (a = [] ∨ m = 0) := by rintro (h | h); exacts [hne h, by omega]
  rw [bigintMulSmall, if_neg hcond]
  by_cases hc : (mulSmallLoop m a 0).2 = 0
  · simp only [hc]
    rw [hc] at heq
    exact ⟨by simpa using heq, hl, .inl hn⟩
  · simp only [ne_eq, hc, not_false_eq_true, if_true, mod_eq_of_lt hlt]
    refine ⟨?_, isLimbs_append.mpr ⟨hl, by simpa [IsLimbs] using hlt⟩, .inr (by simp [hn])⟩
    rw [magnitude_append, hn]
    simpa using heq

theorem divmodSmallLoop_spec (hd0 : 0 < d) (ha : IsLimbs a) :
    magnitude (divmodSmallLoop d a).1 = magnitude a / d ∧ (divmodSmallLoop d a).2 = magnitude a % d ∧
      IsLimbs (divmodSmallLoop d a).1 := by
  induction a with
  | nil => simp [divmodSmallLoop, isLimbs_nil]
  | cons x xs ih =>
    obtain ⟨hq, hr, hl⟩ := ih (isLimbs_cons.mp ha).2
    have hx := (isLimbs_cons.mp ha).1
    have hrlt : magnitude xs % d < d := mod_lt _ hd0
    have hcur : magnitude xs % d * limbBase + x < d * limbBase := by
      have hm := Nat.mul_le_mul_right limbBase (succ_le_of_lt hrlt)
      rw [succ_mul] at hm
      omega
    have hdig : (magnitude xs % d * limbBase + x) / d < limbBase := Nat.div_lt_of_lt_mul hcur
    have hsplit : x + limbBase * magnitude xs =
        d * (magnitude xs / d * limbBase) + (magnitude xs % d * limbBase + x) := by
      have hh := div_add_mod (magnitude xs) d
      calc x + limbBase * magnitude xs
          = x + limbBase * (d * (magnitude xs / d) + magnitude xs % d) := by rw [hh]
        _ = _ := by ring
    simp only [divmodSmallLoop, hr, mod_eq_of_lt hdig, magnitude_cons, hq]
    refine ⟨?_, ?_, isLimbs_cons.mpr ⟨hdig, hl⟩⟩
    · rw [hsplit, mul_add_div hd0, mul_comm limbBase, add_comm]
    · rw [hsplit, mul_add_mod]

theorem bigintDivmodSmall_spec (hd0 : 0 < d) (hd : d ≤ limbBase) (ha : IsLimbs a) :
    magnitude (bigintDivmodSmall a d).1 = magnitude a / d ∧
      (bigintDivmodSmall a d).2 = magnitude a % d ∧ IsLimbs (bigintDivmodSmall a d).1 := by
  obtain ⟨hq, hr, hl⟩ := divmodSmallLoop_spec hd0 ha
  have hlt : magnitude a % d < limbBase := (mod_lt _ hd0).trans_le hd
  refine ⟨?_, ?_, hl.trimmed⟩
  · rw [bigintDivmodSmall, magnitude_trimmed, hq]
  · rw [bigintDivmodSmall, hr, mod_eq_of_lt hlt]

/-- The product digit and the borrow are taken off in one pass; what is left
over is the last carry plus the last borrow. -/
theorem subMulLoop_spec {qhat : Nat} (hq : qhat < limbBase) (hu : IsLimbs u)
    (hv : IsLimbs v) (hlen : u.length = v.length) (hc : carry < limbBase) (hb : borrow ≤ 1) :
    magnitude (subMulLoop qhat u v carry borrow).1 + (qhat * magnitude v + carry + borrow) =
        magnitude u + limbBase ^ u.length *
          ((subMulLoop qhat u v carry borrow).2.1 + (subMulLoop qhat u v carry borrow).2.2) ∧
      IsLimbs (subMulLoop qhat u v carry borrow).1 ∧
      (subMulLoop qhat u v carry borrow).1.length = u.length ∧
      (subMulLoop qhat u v carry borrow).2.1 < limbBase ∧
      (subMulLoop qhat u v carry borrow).2.2 ≤ 1 := by
  induction u generalizing v carry borrow with
  | nil =>
    have hv0 : v = [] := eq_nil_of_length_eq_zero hlen.symm
    subst v
    exact ⟨by simp [subMulLoop], isLimbs_nil, rfl, hc, hb⟩
  | cons x xs ih =>
    cases v with
    | nil => simp at hlen
    | cons y ys =>
      have hx := (isLimbs_cons.mp hu).1
      have hp := mul_add_lt hq (isLimbs_cons.mp hv).1 hc
      have hc' : (qhat * y + carry) / limbBase < limbBase := Nat.div_lt_of_lt_mul hp
      have hs : (qhat * y + carry) % limbBase + borrow ≤ limbBase := by
        have := mod_lt (qhat * y + carry) (show 0 < limbBase by decide)
        omega
      have hd := mod_add_div (qhat * y + carry) limbBase
      have hsub := subBorrow_eq (x := x) hs
      obtain ⟨heq, hl, hn, hlt, hle⟩ := ih (isLimbs_cons.mp hu).2 (isLimbs_cons.mp hv).2
        (by simpa using hlen) hc' (subBorrow_le_one x ((qhat * y + carry) % limbBase + borrow))
      simp only [subMulLoop, u64_of_lt hp, magnitude_cons, length_cons]
      refine ⟨?_, isLimbs_cons.mpr ⟨subBorrow_lt hx, hl⟩, by omega, hlt, hle⟩
      have hm := congrArg (limbBase * ·) heq
      simp only [mul_add, ← mul_assoc] at hm
      rw [pow_succ', mul_add qhat, ← mul_assoc qhat, mul_comm qhat limbBase, mul_add]
      omega

theorem addLoop_spec (hu : IsLimbs u) (hv : IsLimbs v) (hlen : u.length = v.length) (hc : carry ≤ 1) :
    magnitude (addLoop u v carry).1 + limbBase ^ u.length * (addLoop u v carry).2 =
        magnitude u + magnitude v + carry ∧
      IsLimbs (addLoop u v carry).1 ∧ (addLoop u v carry).1.length = u.length ∧
      (addLoop u v carry).2 ≤ 1 := by
  induction u generalizing v carry with
  | nil =>
    have hv0 : v = [] := eq_nil_of_length_eq_zero hlen.symm
    subst v
    simpa [addLoop, isLimbs_nil] using hc
  | cons x xs ih =>
    cases v with
    | nil => simp at hlen
    | cons y ys =>
      have hx := (isLimbs_cons.mp hu).1
      have hy := (isLimbs_cons.mp hv).1
      have hsum := add_add_lt hx hy hc
      have hd := mod_add_div (x + y + carry) limbBase
      obtain ⟨heq, hl, hn, hle⟩ := ih (isLimbs_cons.mp hu).2 (isLimbs_cons.mp hv).2
        (by simpa using hlen) (add_div_le_one hx hy hc)
      simp only [addLoop, u64_of_lt hsum, magnitude_cons, length_cons]
      refine ⟨?_, isLimbs_cons.mpr ⟨mod_lt _ (by decide), hl⟩, by omega, hle⟩
      have hm := congrArg (limbBase * ·) heq
      simp only [mul_add, ← mul_assoc] at hm
      rw [pow_succ']
      omega

theorem carryLoop_spec (hu : IsLimbs u) (hc : carry < limbBase) :
    (∃ lost, magnitude (carryLoop u carry) + limbBase ^ u.length * lost = magnitude u + carry) ∧
      IsLimbs (carryLoop u carry) ∧ (carryLoop u carry).length = u.length := by
  induction u generalizing carry with
  | nil => exact ⟨⟨carry, by simp [carryLoop]⟩, isLimbs_nil, rfl⟩
  | cons x xs ih =>
    have hx := (isLimbs_cons.mp hu).1
    by_cases h0 : carry = 0
    · subst h0
      rw [carryLoop]
      exact ⟨⟨0, by simp⟩, hu, rfl⟩
    · have hd := mod_add_div (x + carry) limbBase
      obtain ⟨⟨lost, heq⟩, hl, hn⟩ := ih (isLimbs_cons.mp hu).2
        (show (x + carry) / limbBase < limbBase by simp only [limbBase] at *; omega)
      rw [carryLoop, if_neg h0]
      refine ⟨⟨lost, ?_⟩, isLimbs_cons.mpr ⟨mod_lt _ (by decide), hl⟩, by simp [hn]⟩
      have hm := congrArg (limbBase * ·) heq
      simp only [mul_add, ← mul_assoc] at hm
      rw [magnitude_cons, magnitude_cons, length_cons, pow_succ']
      omega

theorem carryLoop_head (x : Nat) (xs : List Nat) (carry : Nat) (hx : x < limbBase) :
    ∃ rest, carryLoop (x :: xs) carry = (x + carry) % limbBase :: rest := by
  by_cases h0 : carry = 0
  · exact ⟨xs, by simp [carryLoop, h0, mod_eq_of_lt hx]⟩
  · exact ⟨carryLoop xs ((x + carry) / limbBase), by simp [carryLoop, h0]⟩

theorem magnitude_head_tail (l : List Nat) : magnitude l = l.headD 0 + limbBase * magnitude l.tail := by
  cases l with
  | nil => rfl
  | cons x xs => exact magnitude_cons x xs

theorem IsLimbs.headD_lt (h : IsLimbs l) : l.headD 0 < limbBase := by
  cases l with
  | nil => decide
  | cons x xs => exact (isLimbs_cons.mp h).1

theorem IsLimbs.tail (h : IsLimbs l) : IsLimbs l.tail := fun x hx => h x (mem_of_mem_tail hx)

/-- The borrow that leaves the top limb is one exactly when the subtrahend is
larger. -/
theorem subLoop_spec {x y : List Nat} (hx : IsLimbs x) (hy : IsLimbs y) (hlen : y.length ≤ x.length)
    (hb : borrow ≤ 1) : IsLimbs (subLoop x y borrow) ∧ (subLoop x y borrow).length = x.length ∧
      ∃ out, out ≤ 1 ∧ magnitude (subLoop x y borrow) + (magnitude y + borrow) =
        magnitude x + limbBase ^ x.length * out := by
  induction x generalizing y borrow with
  | nil =>
    have hy0 : y = [] := eq_nil_of_length_eq_zero (by simpa using hlen)
    subst y
    exact ⟨isLimbs_nil, rfl, borrow, hb, by simp [subLoop]⟩
  | cons a xs ih =>
    have ha := (isLimbs_cons.mp hx).1
    have hmag := magnitude_head_tail y
    have hs : y.headD 0 + borrow ≤ limbBase := by
      have := hy.headD_lt
      omega
    have hsub := subBorrow_eq (x := a) hs
    obtain ⟨hl, hn, out, hout, heq⟩ := ih (isLimbs_cons.mp hx).2 hy.tail
      (by simp only [length_tail, length_cons] at hlen ⊢; omega)
      (subBorrow_le_one a (y.headD 0 + borrow))
    simp only [subLoop, length_cons, magnitude_cons]
    refine ⟨isLimbs_cons.mpr ⟨subBorrow_lt ha, hl⟩, by omega, out, hout, ?_⟩
    have hm := congrArg (limbBase * ·) heq
    simp only [mul_add, ← mul_assoc] at hm
    rw [pow_succ']
    omega

end Tablo.Bigint
