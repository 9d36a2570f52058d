import Mathlib.Data.List.Infix
import Mathlib.Data.List.TakeWhile

/-! Lists cut into chunks at separators, and lists spelled from their chunks. -/

namespace Chunks

open List

variable {α : Type}

section Cut

variable (sep : α → Bool) {c : List α}

def cutFrom (cur : List α) : List α → List (List α)
  | [] => if cur.isEmpty then [] else [cur]
  | x :: xs =>
    if sep x then
      if cur.isEmpty then cutFrom [] xs else cur :: cutFrom [] xs
    else cutFrom (cur ++ [x]) xs

def cut (l : List α) : List (List α) := cutFrom sep [] l

def Free (l : List α) : Prop := ∀ x ∈ l, sep x = false

variable {sep}

theorem cutFrom_append {cur l : List α} (h : Free sep l) (rest : List α) :
    cutFrom sep cur (l ++ rest) = cutFrom sep (cur ++ l) rest := by
  induction l generalizing cur with
  | nil => simp
  | cons x l ih =>
    have hx : sep x = false := h x mem_cons_self
    rw [cons_append, cutFrom, if_neg (by simp [hx]), ih fun y hy => h y (mem_cons_of_mem x hy)]
    simp

theorem cut_cons_sep (sep : α → Bool) {s : α} (hs : sep s = true) (rest : List α) : cut sep (s :: rest) = cut sep rest := by
  rw [cut, cutFrom, if_pos hs]
  rfl

theorem cut_chunk (hc : Free sep c) (hne : c ≠ []) : cut sep c = [c] := by
  have h : cutFrom sep [] (c ++ []) = cutFrom sep ([] ++ c) [] := cutFrom_append hc []
  rw [append_nil, nil_append] at h
  rw [cut, h, cutFrom, if_neg (by simpa using hne)]

theorem cut_chunk_sep (sep : α → Bool) (hc : Free sep c) (hne : c ≠ []) {s : α} (hs : sep s = true)
    (rest : List α) : cut sep (c ++ s :: rest) = c :: cut sep rest := by
  rw [cut, cutFrom_append hc, cutFrom, if_pos hs, if_neg (by simpa using hne)]
  rfl

end Cut

variable (s : α) {cs : List (List α)}

def spell (cs : List (List α)) : List α := cs.flatMap (s :: ·)

def Proper (cs : List (List α)) : Prop := ∀ c ∈ cs, s ∉ c ∧ c ≠ []

variable {s}

theorem Proper.tail {c : List α} (h : Proper s (c :: cs)) : Proper s cs :=
  fun x hx => h x (mem_cons_of_mem c hx)

theorem spell_cons (c : List α) (cs : List (List α)) : spell s (c :: cs) = s :: (c ++ spell s cs) := by
  simp [spell]

theorem spell_append (cs ds : List (List α)) : spell s (cs ++ ds) = spell s cs ++ spell s ds := by
  simp [spell]

theorem spell_eq_nil : spell s cs = [] ↔ cs = [] := by
  cases cs <;> simp [spell]

theorem head_spell {x : α} {rest : List α} (h : spell s cs = x :: rest) : x = s := by
  cases cs with
  | nil => cases h
  | cons c cs =>
    exact (List.cons.inj h).1.symm

variable [DecidableEq α]

theorem cut_spell (h : Proper s cs) : cut (· == s) (spell s cs) = cs := by
  have hs : (s == s) = true := by simp
  have hfree : ∀ c : List α, s ∉ c → Free (· == s) c := by
    intro c hc x hx
    have hne : x ≠ s := fun hxs => hc (hxs ▸ hx)
    simpa using hne
  induction cs with
  | nil => rfl
  | cons c cs ih =>
    obtain ⟨hc, hne⟩ := h c mem_cons_self
    have hrest := ih h.tail
    rw [spell_cons, cut_cons_sep (· == s) hs]
    cases cs with
    | nil =>
      rw [show spell s ([] : List (List α)) = [] from rfl, append_nil]
      exact cut_chunk (hfree c hc) hne
    | cons d ds =>
      rw [spell_cons, cut_cons_sep (· == s) hs] at hrest
      rw [spell_cons, cut_chunk_sep (· == s) (hfree c hc) hne hs, hrest]

theorem chunk_unique {a b x y : List α} (ha : s ∉ a) (hb : s ∉ b) (hx : ∀ z ∈ x.head?, z = s)
    (hy : ∀ z ∈ y.head?, z = s) (h : a ++ x = b ++ y) : a = b ∧ x = y := by
  have htake : ∀ {u v : List α}, s ∉ u → (∀ z ∈ v.head?, z = s) → (u ++ v).takeWhile (· ≠ s) = u := by
    intro u v hu hv
    have hpos : ∀ z ∈ u, decide (z ≠ s) = true := by
      intro z hz
      have hne : z ≠ s := fun hzs => hu (hzs ▸ hz)
      simpa using hne
    rw [takeWhile_append_of_pos hpos]
    cases v with
    | nil => simp
    | cons z v =>
      have hzs : z = s := hv z rfl
      simp [hzs]
  have hab : a = b := by rw [← htake ha hx, h, htake hb hy]
  subst hab
  exact ⟨rfl, append_cancel_left h⟩

theorem isPrefix_iff {ds : List (List α)} (hc : Proper s cs) (hd : Proper s ds) :
    cs <+: ds ↔ spell s ds = spell s cs ∨ ∃ rest, spell s ds = spell s cs ++ s :: rest := by
  constructor
  · rintro ⟨es, rfl⟩
    cases es with
    | nil => exact .inl (by simp)
    | cons e es => exact .inr ⟨e ++ spell s es, by rw [spell_append, spell_cons]⟩
  · intro h
    induction cs generalizing ds with
    | nil => exact ⟨ds, rfl⟩
    | cons c cs ih =>
      obtain ⟨hcs, hcne⟩ := hc c mem_cons_self
      cases ds with
      | nil => rcases h with h | ⟨rest, h⟩ <;> simp [spell] at h
      | cons d ds =>
        obtain ⟨hds, -⟩ := hd d mem_cons_self
        have hspell : ∀ z ∈ (spell s ds).head?, z = s := by
          intro z hz
          obtain ⟨rest, hrest⟩ := head?_eq_some_iff.mp hz
          exact head_spell hrest
        have hspell' : ∀ z ∈ (spell s cs).head?, z = s := by
          intro z hz
          obtain ⟨rest, hrest⟩ := head?_eq_some_iff.mp hz
          exact head_spell hrest
        have hcd : d = c ∧ (spell s ds = spell s cs ∨ ∃ rest, spell s ds = spell s cs ++ s :: rest) := by
          rcases h with h | ⟨rest, h⟩
          · obtain ⟨hdc, hrest⟩ := chunk_unique hds hcs hspell hspell' (List.cons.inj h).2
            exact ⟨hdc, .inl hrest⟩
          · rw [spell_cons, spell_cons, cons_append, append_assoc] at h
            have hhead : ∀ z ∈ (spell s cs ++ s :: rest).head?, z = s := by
              intro z hz
              cases hsc : spell s cs with
              | nil => simpa [hsc, eq_comm] using hz
              | cons x xs => exact hspell' z (by simpa [hsc] using hz)
            obtain ⟨hdc, hrest⟩ := chunk_unique hds hcs hspell hhead (List.cons.inj h).2
            exact ⟨hdc, .inr ⟨rest, hrest⟩⟩
        obtain ⟨rfl, htail⟩ := hcd
        exact (prefix_cons_inj d).mpr (ih hc.tail hd.tail htail)

end Chunks
