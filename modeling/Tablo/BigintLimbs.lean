import Tablo.Bigint
import Mathlib.Data.List.GetD
import Mathlib.Data.Nat.Digits.Lemmas

/-! What the limb loops compute, as equations between magnitudes. Each loop
has one specification; its callers never look inside it. -/

namespace Tablo.Bigint

open List Nat

@[simp] theorem magnitude_nil : magnitude [] = 0 := rfl

theorem magnitude_cons (x : Nat) (l : List Nat) : magnitude (x :: l) = x + limbBase * magnitude l := ofDigits_cons

theorem magnitude_append (l r : List Nat) :
    magnitude (l ++ r) = magnitude l + limbBase ^ l.length * magnitude r := ofDigits_append

@[simp] theorem magnitude_singleton (x : Nat) : magnitude [x] = x := ofDigits_singleton

variable {l : List Nat}

theorem magnitude_lt (h : IsLimbs l) : magnitude l < limbBase ^ l.length :=
  ofDigits_lt_base_pow_length (by decide) h

theorem magnitude_replicate_zero (n : Nat) : magnitude (List.replicate n 0) = 0 :=
  ofDigits_replicate_zero

theorem magnitude_take_add_drop (l : List Nat) {j : Nat} (hj : j ≤ l.length) :
    magnitude l = magnitude (l.take j) + limbBase ^ j * magnitude (l.drop j) := by
  conv_lhs => rw [← take_append_drop j l]
  rw [magnitude_append, length_take_of_le hj]

theorem magnitude_drop (h : IsLimbs l) (j : Nat) : magnitude (l.drop j) = magnitude l / limbBase ^ j :=
  (ofDigits_div_pow_eq_ofDigits_drop j (by decide) l h).symm

theorem isLimbs_nil : IsLimbs [] := by simp [IsLimbs]

theorem isLimbs_cons {x : Nat} : IsLimbs (x :: l) ↔ x < limbBase ∧ IsLimbs l := by
  simp [IsLimbs]

theorem isLimbs_append {r : List Nat} : IsLimbs (l ++ r) ↔ IsLimbs l ∧ IsLimbs r := by
  simp only [IsLimbs, mem_append]
  exact ⟨fun h => ⟨fun x hx => h x (.inl hx), fun x hx => h x (.inr hx)⟩, fun h x hx => hx.elim (h.1 x) (h.2 x)⟩

theorem IsLimbs.take (h : IsLimbs l) (j : Nat) : IsLimbs (l.take j) :=
  fun x hx => h x (mem_of_mem_take hx)

theorem IsLimbs.drop (h : IsLimbs l) (j : Nat) : IsLimbs (l.drop j) :=
  fun x hx => h x (mem_of_mem_drop hx)

theorem IsLimbs.getD_lt (h : IsLimbs l) (i : Nat) : l.getD i 0 < limbBase := by
  by_cases hi : i < l.length
  · rw [getD_eq_getElem l 0 hi]
    exact h _ (getElem_mem hi)
  · rw [getD_eq_default l 0 (by omega)]
    decide

/-! Trimming and comparison. -/

variable (l)

theorem bigintTrimCount_le (n : Nat) : bigintTrimCount l n ≤ n := by
  induction n with
  | zero => simp [bigintTrimCount]
  | succ n ih => rw [bigintTrimCount]; split <;> omega

theorem magnitude_take_trimCount {n : Nat} (hn : n ≤ l.length) :
    magnitude (l.take (bigintTrimCount l n)) = magnitude (l.take n) := by
  induction n with
  | zero => simp [bigintTrimCount]
  | succ n ih =>
    by_cases h : l.getD n 0 = 0
    · have hl : n < l.length := hn
      rw [getD_eq_getElem l 0 hl] at h
      rw [bigintTrimCount, if_pos (by rw [getD_eq_getElem l 0 hl, h]), ih (by omega),
        take_succ_eq_append_getElem hl, h, magnitude_append]
      simp
    · rw [bigintTrimCount, if_neg h]

theorem magnitude_trimmed : magnitude (trimmed l) = magnitude l := by
  rw [trimmed, magnitude_take_trimCount l le_rfl, take_length]

theorem getD_trimCount_ne (n : Nat) (h : bigintTrimCount l n ≠ 0) : l.getD (bigintTrimCount l n - 1) 0 ≠ 0 := by
  induction n with
  | zero => exact absurd rfl h
  | succ n ih =>
    by_cases hz : l.getD n 0 = 0
    · simp only [bigintTrimCount, hz] at h ⊢
      exact ih h
    · rw [bigintTrimCount, if_neg hz]
      exact hz

theorem trimmed_last_ne : (trimmed l).getLast? ≠ some 0 := by
  intro he
  have hle := bigintTrimCount_le l l.length
  have hz : bigintTrimCount l l.length ≠ 0 := by
    intro h0
    simp [trimmed, h0] at he
  have hlen : (trimmed l).length = bigintTrimCount l l.length := by
    simp [trimmed, Nat.min_eq_left hle]
  rw [getLast?_eq_getElem?, hlen] at he
  apply getD_trimCount_ne l l.length hz
  rw [trimmed, getElem?_take_of_lt (by omega)] at he
  rw [getD_eq_getElem?_getD, he, Option.getD_some]

variable {l}

theorem IsLimbs.trimmed (h : IsLimbs l) : IsLimbs (trimmed l) := h.take _

theorem pow_le_magnitude (hl : l.getLast? ≠ some 0) (hne : l ≠ []) : limbBase ^ (l.length - 1) ≤ magnitude l := by
  have hlast : l.getLast hne ≠ 0 := by
    intro h0
    exact hl (by rw [getLast?_eq_getLast_of_ne_nil hne, h0])
  have hh := pow_length_le_mul_ofDigits (b := limbBase - 2) hne hlast
  have hpos : 0 < l.length := length_pos_of_ne_nil hne
  obtain ⟨k, hk⟩ : ∃ k, l.length = k + 1 := ⟨l.length - 1, by omega⟩
  rw [hk, pow_succ, Nat.mul_comm] at hh
  rw [hk]
  exact Nat.le_of_mul_le_mul_left hh (by decide)

theorem magnitude_eq_zero (hl : l.getLast? ≠ some 0) : magnitude l = 0 ↔ l = [] := by
  constructor
  · intro h
    by_contra hne
    have hp := pow_le_magnitude hl hne
    have := Nat.pow_pos (n := l.length - 1) (show 0 < limbBase by decide)
    omega
  · rintro rfl
    rfl

theorem trimmed_eq_nil (l : List Nat) : trimmed l = [] ↔ magnitude l = 0 := by
  rw [← magnitude_eq_zero (trimmed_last_ne l), magnitude_trimmed]

theorem compareAbsFrom_eq {a b : List Nat} (ha : IsLimbs a) (hb : IsLimbs b) {n : Nat}
    (hna : n ≤ a.length) (hnb : n ≤ b.length) : compareAbsFrom a b n =
      if magnitude (a.take n) < magnitude (b.take n) then -1
      else if magnitude (b.take n) < magnitude (a.take n) then 1 else 0 := by
  induction n with
  | zero => simp [compareAbsFrom]
  | succ n ih =>
    have hx : n < a.length := hna
    have hy : n < b.length := hnb
    have hta : (a.take n).length = n := length_take_of_le (by omega)
    have htb : (b.take n).length = n := length_take_of_le (by omega)
    have hla := magnitude_lt (ha.take n)
    have hlb := magnitude_lt (hb.take n)
    rw [hta] at hla
    rw [htb] at hlb
    have hea : magnitude (a.take (n + 1)) = magnitude (a.take n) + limbBase ^ n * a[n] := by
      rw [take_succ_eq_append_getElem hx, magnitude_append, hta, magnitude_singleton]
    have heb : magnitude (b.take (n + 1)) = magnitude (b.take n) + limbBase ^ n * b[n] := by
      rw [take_succ_eq_append_getElem hy, magnitude_append, htb, magnitude_singleton]
    rw [compareAbsFrom, getD_eq_getElem a 0 hx, getD_eq_getElem b 0 hy, hea, heb]
    rcases Nat.lt_trichotomy a[n] b[n] with hlt | heq | hgt
    · have hm := Nat.mul_le_mul_left (limbBase ^ n) hlt
      rw [mul_succ] at hm
      rw [if_pos hlt, if_pos (by omega)]
    · rw [heq, if_neg (lt_irrefl _), if_neg (lt_irrefl _), ih (by omega) (by omega)]
      simp
    · have hm := Nat.mul_le_mul_left (limbBase ^ n) hgt
      rw [mul_succ] at hm
      rw [if_neg (by omega), if_pos hgt, if_neg (by omega), if_pos (by omega)]

theorem bigintCompareAbsLimbs_eq {a b : List Nat} (ha : IsLimbs a) (hb : IsLimbs b)
    (hla : a.getLast? ≠ some 0) (hlb : b.getLast? ≠ some 0) : bigintCompareAbsLimbs a b =
      if magnitude a < magnitude b then -1 else if magnitude b < magnitude a then 1 else 0 := by
  have hshort : ∀ {x y : List Nat}, IsLimbs x → y.getLast? ≠ some 0 → x.length < y.length →
      magnitude x < magnitude y := by
    intro x y hx hy hxy
    have hne : y ≠ [] := by rintro rfl; simp at hxy
    calc magnitude x < limbBase ^ x.length := magnitude_lt hx
      _ ≤ limbBase ^ (y.length - 1) := Nat.pow_le_pow_right (by decide) (by omega)
      _ ≤ magnitude y := pow_le_magnitude hy hne
  unfold bigintCompareAbsLimbs
  split
  · rename_i h
    rw [if_pos (hshort ha hlb h)]
  · split
    · rename_i h
      have hh := hshort hb hla h
      rw [if_neg (by omega), if_pos hh]
    · rw [compareAbsFrom_eq ha hb le_rfl (by omega), take_length, take_of_length_le (by omega)]

end Tablo.Bigint
