import Mathlib.Data.List.Basic

/-! Buffers of cells that may not have been written yet. `none` as an answer is an
access outside the buffer or a read of an unwritten cell. -/

namespace CellBuffer

open List

variable {α β : Type} (xs : List (Option α)) {i n : Nat} {src : List (Option α)}

def alloc (n : Nat) : List (Option α) := List.replicate n none

def realloc (n : Nat) : List (Option α) :=
  xs.take n ++ List.replicate (n - xs.length) none

def load (i : Nat) : Option α := xs[i]?.join

def store (i : Nat) (v : α) : Option (List (Option α)) :=
  if i < xs.length then some (xs.set i (some v)) else none

def convert (f : α → β) (src : List (Option α)) : List (Option β) → Nat → Nat → Option (List (Option β))
  | dst, _, 0 => some dst
  | dst, i, n + 1 => do
    let x ← load src i
    let dst ← store dst i (f x)
    convert f src dst (i + 1) n

def Holds (vs : List α) : Prop := ∃ rest, xs = vs.map some ++ rest

variable {xs : List (Option α)} {vs : List α}

theorem Holds.length_le (h : Holds xs vs) : vs.length ≤ xs.length := by
  obtain ⟨rest, rfl⟩ := h
  simp

theorem Holds.load (h : Holds xs vs) (hi : i < vs.length) : load xs i = some vs[i] := by
  obtain ⟨rest, rfl⟩ := h
  rw [CellBuffer.load, getElem?_append_left (by simpa using hi)]
  simp [hi]

theorem Holds.take (h : Holds xs vs) (i : Nat) : Holds xs (vs.take i) := by
  obtain ⟨rest, rfl⟩ := h
  refine ⟨(vs.drop i).map some ++ rest, ?_⟩
  rw [← append_assoc, ← map_append, take_append_drop]

theorem Holds.store (h : Holds xs vs) (hi : i ≤ vs.length) (hx : i < xs.length) (v : α) :
    ∃ ys, store xs i v = some ys ∧ ys.length = xs.length ∧ Holds ys (vs.take i ++ v :: vs.drop (i + 1)) := by
  refine ⟨xs.set i (some v), if_pos hx, length_set, ?_⟩
  obtain ⟨rest, rfl⟩ := h
  rcases Nat.lt_or_eq_of_le hi with hlt | rfl
  · refine ⟨rest, ?_⟩
    rw [set_append_left _ _ (by simpa using hlt), ← map_set, set_eq_take_append_cons_drop, if_pos hlt]
  · refine ⟨rest.tail, ?_⟩
    cases rest with
    | nil => simp at hx
    | cons x rest =>
      rw [set_append_right _ _ (by simp)]
      simp

theorem holds_alloc (n : Nat) : Holds (alloc n : List (Option α)) [] := ⟨alloc n, rfl⟩

theorem length_alloc (n : Nat) : (alloc n : List (Option α)).length = n := length_replicate

theorem length_realloc (hn : xs.length ≤ n) : (realloc xs n).length = n := by
  rw [realloc, length_append, length_take, length_replicate]
  omega

theorem Holds.realloc (h : Holds xs vs) (hn : xs.length ≤ n) : Holds (realloc xs n) vs := by
  obtain ⟨rest, hrest⟩ := h
  refine ⟨rest ++ List.replicate (n - xs.length) none, ?_⟩
  rw [CellBuffer.realloc, take_of_length_le hn, ← append_assoc, ← hrest]

theorem convert_from (h : Holds src vs) (f : α → β) (n : Nat) :
    ∀ (dst : List (Option β)) (i : Nat), i + n = vs.length → vs.length ≤ dst.length → Holds dst ((vs.take i).map f) →
      ∃ ys, convert f src dst i n = some ys ∧ ys.length = dst.length ∧ Holds ys (vs.map f) := by
  induction n with
  | zero =>
    intro dst i hi _ hdst
    rw [take_of_length_le (by omega)] at hdst
    exact ⟨dst, rfl, rfl, hdst⟩
  | succ n ih =>
    intro dst i hi hlen hdst
    have hlt : i < vs.length := by omega
    have hdone : ((vs.take i).map f).length = i := by simp; omega
    obtain ⟨dst', hstore, hlen', hdst'⟩ := hdst.store (Nat.le_of_eq hdone.symm) (by omega) (f vs[i])
    rw [take_of_length_le (Nat.le_of_eq hdone), drop_eq_nil_of_le (by omega)] at hdst'
    have hnext : (vs.take i).map f ++ [f vs[i]] = (vs.take (i + 1)).map f := by
      rw [take_succ_eq_append_getElem hlt, map_append, map_singleton]
    rw [hnext] at hdst'
    obtain ⟨ys, hrun, hys, hholds⟩ := ih dst' (i + 1) (by omega) (by omega) hdst'
    refine ⟨ys, ?_, hys.trans hlen', hholds⟩
    rw [convert, h.load hlt]
    simp only [Option.bind_eq_bind, Option.bind_some, hstore]
    exact hrun

theorem Holds.convert (h : Holds src vs) (f : α → β) (hn : vs.length ≤ n) :
    ∃ ys, convert f src (alloc n) 0 vs.length = some ys ∧ ys.length = n ∧ Holds ys (vs.map f) := by
  have hlen : vs.length ≤ (alloc n : List (Option β)).length := by rwa [length_alloc]
  obtain ⟨ys, hrun, hys, hholds⟩ := convert_from h f vs.length (alloc n) 0 (Nat.zero_add _) hlen (holds_alloc n)
  exact ⟨ys, hrun, hys.trans (length_alloc n), hholds⟩

end CellBuffer
