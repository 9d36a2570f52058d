import Tablo.HttpRequest

/-! Where a request ends in the stream, and what the reader finds of it in the
bytes it has so far. -/

namespace Tablo.HttpRequest

open List

def firstBlank : Bytes → Option (Nat × Nat)
  | [] => none
  | b :: rest =>
    if crlf2.isPrefixOf (b :: rest) then some (0, 4)
    else if lf2.isPrefixOf (b :: rest) then some (0, 2)
    else (firstBlank rest).map fun (p, d) => (p + 1, d)

def StandsAt (pattern text : Bytes) (i : Nat) : Prop := pattern <+: text.drop i

variable {pattern text stream : Bytes}

section

variable (hp : pattern ≠ [])

include hp

theorem standsAt_take (text : Bytes) (l i : Nat) :
    StandsAt pattern (text.take l) i ↔ StandsAt pattern text i ∧ i + pattern.length ≤ l := by
  have hpos := length_pos_iff.mpr hp
  rw [StandsAt, StandsAt, drop_take, prefix_take_iff]
  have : pattern.length ≤ l - i ↔ i + pattern.length ≤ l := by omega
  rw [this]

theorem not_standsAt_nil (i : Nat) : ¬ StandsAt pattern [] i := by
  intro h
  rw [StandsAt, drop_nil] at h
  exact hp (prefix_nil.mp h)

theorem indexOf_spec (text : Bytes) : match indexOf pattern text with
    | none => ∀ j, ¬ StandsAt pattern text j
    | some i => StandsAt pattern text i ∧ ∀ j < i, ¬ StandsAt pattern text j := by
  induction text with
  | nil => exact not_standsAt_nil hp
  | cons b rest ih =>
    rw [indexOf]
    by_cases h : pattern.isPrefixOf (b :: rest)
    · rw [if_pos h]
      exact ⟨ isPrefixOf_iff_prefix.mp h, fun j hj => absurd hj (Nat.not_lt_zero j)⟩
    · rw [if_neg h]
      have h0 : ¬ StandsAt pattern (b :: rest) 0 := fun hs => h ( isPrefixOf_iff_prefix.mpr hs)
      cases hr : indexOf pattern rest with
      | none =>
        rw [hr] at ih
        rintro (_ | j) hs
        · exact h0 hs
        · exact ih j hs
      | some i =>
        rw [hr] at ih
        refine ⟨ih.1, ?_⟩
        rintro (_ | j) hj hs
        · exact h0 hs
        · exact ih.2 j (Nat.lt_of_succ_lt_succ hj) hs

theorem indexOf_eq_none (h : ∀ j, ¬ StandsAt pattern text j) : indexOf pattern text = none := by
  have hs := indexOf_spec hp text
  cases hi : indexOf pattern text with
  | none => rfl
  | some i =>
    rw [hi] at hs
    exact absurd hs.1 (h i)

theorem indexOf_eq_some {i : Nat}
    (hi : StandsAt pattern text i) (hmin : ∀ j < i, ¬ StandsAt pattern text j) : indexOf pattern text = some i := by
  have hs := indexOf_spec hp text
  cases hf : indexOf pattern text with
  | none =>
    rw [hf] at hs
    exact absurd hi (hs i)
  | some k =>
    rw [hf] at hs
    rcases Nat.lt_trichotomy k i with hlt | rfl | hgt
    · exact absurd hs.1 (hmin k hlt)
    · rfl
    · exact absurd hi (hs.2 i hgt)

end

theorem firstBlank_spec (text : Bytes) : match firstBlank text with
    | none => ∀ j, ¬ StandsAt crlf2 text j ∧ ¬ StandsAt lf2 text j
    | some (p, d) => (d = 4 ∧ StandsAt crlf2 text p ∨ d = 2 ∧ StandsAt lf2 text p) ∧
        ∀ j < p, ¬ StandsAt crlf2 text j ∧ ¬ StandsAt lf2 text j := by
  induction text with
  | nil => exact fun j => ⟨not_standsAt_nil (by decide) j, not_standsAt_nil (by decide) j⟩
  | cons b rest ih =>
    rw [firstBlank]
    by_cases hc : crlf2.isPrefixOf (b :: rest)
    · rw [if_pos hc]
      exact ⟨.inl ⟨rfl, isPrefixOf_iff_prefix.mp hc⟩, fun j hj => absurd hj (Nat.not_lt_zero j)⟩
    rw [if_neg hc]
    by_cases hl : lf2.isPrefixOf (b :: rest)
    · rw [if_pos hl]
      exact ⟨.inr ⟨rfl, isPrefixOf_iff_prefix.mp hl⟩, fun j hj => absurd hj (Nat.not_lt_zero j)⟩
    rw [if_neg hl]
    have h0 : ¬ StandsAt crlf2 (b :: rest) 0 ∧ ¬ StandsAt lf2 (b :: rest) 0 :=
      ⟨fun hs => hc ( isPrefixOf_iff_prefix.mpr hs), fun hs => hl ( isPrefixOf_iff_prefix.mpr hs)⟩
    cases hr : firstBlank rest with
    | none =>
      rw [hr] at ih
      rintro (_ | j)
      · exact h0
      · exact ih j
    | some found =>
      rw [hr] at ih
      refine ⟨ih.1, ?_⟩
      rintro (_ | j) hj
      · exact h0
      · exact ih.2 j (by omega)

theorem not_lf2_of_crlf2 {p : Nat} (h : StandsAt crlf2 text p) :
    ¬ StandsAt lf2 text p ∧ ¬ StandsAt lf2 text (p + 1) := by
  obtain ⟨tail, ht⟩ := h
  have hnext : text.drop (p + 1) = 10 :: 13 :: 10 :: tail := by
    rw [← drop_drop, ← ht]
    rfl
  constructor
  · rintro ⟨other, ho⟩
    rw [← ht] at ho
    exact absurd (List.cons.inj ho).1 (by decide)
  · rintro ⟨other, ho⟩
    rw [hnext] at ho
    exact absurd (List.cons.inj (List.cons.inj ho).2).1 (by decide)

/-- A stream whose header block ends with a bare newline pair has no `\r\n\r\n` at all. -/
def OneSpelling (stream : Bytes) : Prop := ∀ p, firstBlank stream = some (p, 2) → indexOf crlf2 stream = none

variable {p d : Nat} {l : Nat}

theorem firstBlank_delim (h : firstBlank stream = some (p, d)) : d = 4 ∨ d = 2 := by
  have hs := firstBlank_spec stream
  rw [h] at hs
  exact hs.1.imp And.left And.left

theorem firstBlank_le (h : firstBlank stream = some (p, d)) : p + d ≤ stream.length := by
  have hs := firstBlank_spec stream
  rw [h] at hs
  rcases hs.1 with ⟨rfl, hp⟩ | ⟨rfl, hp⟩
  · have := hp.length_le
    simp only [crlf2, length_cons, length_drop] at this
    omega
  · have := hp.length_le
    simp only [lf2, length_cons, length_drop] at this
    omega

theorem headerEnd_none (hc : ∀ j, ¬ StandsAt crlf2 stream j) (hl : ∀ j, ¬ StandsAt lf2 stream j) :
    httpFindHeaderEnd stream = none := by
  rw [httpFindHeaderEnd, indexOf_eq_none (by decide) hc, indexOf_eq_none (by decide) hl]
  rfl

theorem headerEnd_take_none (h : firstBlank stream = none) (l : Nat) : httpFindHeaderEnd (stream.take l) = none := by
  have hs := firstBlank_spec stream
  rw [h] at hs
  apply headerEnd_none
  · intro j hj
    exact (hs j).1 ((standsAt_take (by decide) _ _ _).mp hj).1
  · intro j hj
    exact (hs j).2 ((standsAt_take (by decide) _ _ _).mp hj).1

theorem headerEnd_take_before (h : firstBlank stream = some (p, d)) (hl : l < p + d) :
    httpFindHeaderEnd (stream.take l) = none := by
  have hs := firstBlank_spec stream
  rw [h] at hs
  apply headerEnd_none
  · intro j hj
    obtain ⟨hj, hle⟩ := (standsAt_take (by decide) _ _ _).mp hj
    simp only [crlf2, length_cons] at hle
    exact (hs.2 j (by omega)).1 hj
  · intro j hj
    obtain ⟨hj, hle⟩ := (standsAt_take (by decide) _ _ _).mp hj
    simp only [lf2, length_cons] at hle
    by_cases hlt : j < p
    · exact (hs.2 j hlt).2 hj
    -- a pair of newlines cannot begin in the first half of `\r\n\r\n`
    rcases hs.1 with ⟨rfl, hp⟩ | ⟨rfl, hp⟩
    · obtain rfl | rfl : j = p ∨ j = p + 1 := by omega
      · exact (not_lf2_of_crlf2 hp).1 hj
      · exact (not_lf2_of_crlf2 hp).2 hj
    · omega

theorem headerEnd_take (hone : OneSpelling stream) (h : firstBlank stream = some (p, d)) (hl : p + d ≤ l) :
    httpFindHeaderEnd (stream.take l) = some (p, d) := by
  have hs := firstBlank_spec stream
  rw [h] at hs
  rcases hs.1 with ⟨rfl, hp⟩ | ⟨rfl, hp⟩
  · have hi : indexOf crlf2 (stream.take l) = some p := by
      apply indexOf_eq_some (by decide)
      · exact (standsAt_take (by decide) _ _ _).mpr ⟨hp, hl⟩
      · intro j hj hat
        exact (hs.2 j hj).1 ((standsAt_take (by decide) _ _ _).mp hat).1
    rw [httpFindHeaderEnd, hi]
  · have hc : indexOf crlf2 (stream.take l) = none := by
      apply indexOf_eq_none (by decide)
      have hnone := indexOf_spec (show crlf2 ≠ [] by decide) stream
      rw [hone p h] at hnone
      intro j hj
      exact hnone j ((standsAt_take (by decide) _ _ _).mp hj).1
    have hi : indexOf lf2 (stream.take l) = some p := by
      apply indexOf_eq_some (by decide)
      · exact (standsAt_take (by decide) _ _ _).mpr ⟨hp, hl⟩
      · intro j hj hat
        exact (hs.2 j hj).2 ((standsAt_take (by decide) _ _ _).mp hat).1
    rw [httpFindHeaderEnd, hc, hi]
    rfl

def blankEnd (stream : Bytes) : Nat :=
  match firstBlank stream with
  | none => stream.length + 1
  | some (p, d) => p + d

theorem blankEnd_pos (stream : Bytes) : 0 < blankEnd stream := by
  rw [blankEnd]
  split
  · omega
  · next p d h =>
    have := firstBlank_delim h
    omega

theorem blankEnd_eq (h : firstBlank stream = some (p, d)) : blankEnd stream = p + d := by
  rw [blankEnd, h]

def demand (limit : Nat) (stream : Bytes) (p d : Nat) : Except Failure (Option Target) :=
  match httpRequestContentLength (stream.take p) with
  | .error f => .error f
  | .ok c =>
    if sizeMax < p + d + c then .error tooLong
    else if limit < p + d + c then .error tooLong
    else .ok (some ⟨p, d, p + d + c⟩)

theorem scan_take_before (limit : Nat) (hl : l < blankEnd stream) :
    scan limit (stream.take l) = .ok none := by
  rw [blankEnd] at hl
  rw [scan]
  cases h : firstBlank stream with
  | none => rw [headerEnd_take_none h]
  | some found =>
    rw [h] at hl
    rw [headerEnd_take_before h hl]

theorem scan_take {limit : Nat} (hone : OneSpelling stream)
    (h : firstBlank stream = some (p, d)) (hl : p + d ≤ l) :
    scan limit (stream.take l) = demand limit stream p d := by
  rw [scan, headerEnd_take hone h hl]
  dsimp only
  rw [take_take, Nat.min_eq_left (by omega)] <;> rfl

end Tablo.HttpRequest
