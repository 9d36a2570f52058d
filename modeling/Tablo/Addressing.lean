import Mathlib.Data.List.Basic

/-! Items of positive size laid out one after another, and the item that starts at an address. -/

namespace Addressing

variable {α : Type} (size : α → Nat)

def extent : List α → Nat
  | [] => 0
  | a :: l => size a + extent l

def locate : List α → Nat → Option α
  | [], _ => none
  | a :: l, p => if p = 0 then some a else if p < size a then none else locate l (p - size a)

variable {size}

theorem extent_append (l m : List α) : extent size (l ++ m) = extent size l + extent size m := by
  induction l with
  | nil => simp [extent]
  | cons a l ih => simp [extent, ih, Nat.add_assoc]

section

variable (hpos : ∀ a, 0 < size a) (l m : List α)

include hpos

theorem locate_append (p : Nat) : locate size (l ++ m) (extent size l + p) = locate size m p := by
  induction l with
  | nil => simp [extent]
  | cons a l ih =>
    have ha := hpos a
    rw [List.cons_append, locate, extent, if_neg (by omega), if_neg (by omega)]
    rw [show size a + extent size l + p - size a = extent size l + p by omega, ih]

theorem locate_middle (a : α) : locate size (l ++ a :: m) (extent size l) = some a := by
  have h := locate_append hpos l (a :: m) 0
  rwa [locate] at h

theorem locate_inside {a : α} {p : Nat} (hp : 0 < p)
    (hlt : p < size a) : locate size (l ++ a :: m) (extent size l + p) = none := by
  rw [locate_append hpos, locate, if_neg (by omega), if_pos hlt]

theorem locate_end (l : List α) : locate size l (extent size l) = none := by
  have h := locate_append hpos l [] 0
  rwa [List.append_nil] at h

end

theorem exists_of_locate {l : List α} {p : Nat} {a : α}
    (h : locate size l p = some a) : ∃ u v, l = u ++ a :: v ∧ p = extent size u := by
  induction l generalizing p with
  | nil => cases h
  | cons b l ih =>
    rw [locate] at h
    split at h
    · cases h
      exact ⟨[], l, rfl, by assumption⟩
    · split at h
      · cases h
      · obtain ⟨u, v, rfl, hp⟩ := ih h
        refine ⟨b :: u, v, rfl, ?_⟩
        rw [extent]
        omega

theorem locate_map {β : Type} (f : β → α) (l : List β) (p : Nat) :
    locate size (l.map f) p = (locate (size ∘ f) l p).map f := by
  induction l generalizing p with
  | nil => rfl
  | cons b l ih =>
    simp only [List.map_cons, locate, Function.comp_apply]
    split
    · rfl
    · split
      · rfl
      · exact ih _

end Addressing
