import Mathlib.Order.Basic

/-! A relation read at a position of given variance: forwards, backwards or both ways. -/

inductive Variance where
  | co | contra | inv
  deriving DecidableEq, Repr

namespace Variance

def flip : Variance → Variance
  | co => contra
  | contra => co
  | inv => inv

variable {α β γ : Type} {v : Variance} {R : α → α → Prop} {a b : α}

def Fits (R : α → α → Prop) : Variance → α → α → Prop
  | co, a, b => R a b
  | contra, a, b => R b a
  | inv, a, b => R a b ∧ R b a

theorem fits_inv : Fits (Fits R .inv) v a b ↔ Fits R .inv a b := by
  cases v
  · exact Iff.rfl
  · exact and_comm
  · exact ⟨fun h => h.1, fun h => ⟨h, h.symm⟩⟩

theorem fits_and {S : β → β → Prop} {T : γ → γ → Prop} {x y : β}
    {z w : γ} (h : R a b ↔ S x y ∧ T z w) (h' : R b a ↔ S y x ∧ T w z) :
    Fits R v a b ↔ Fits S v x y ∧ Fits T v z w := by
  cases v
  · exact h
  · exact h'
  · exact (and_congr h h').trans and_and_and_comm

theorem fits_congr {S : β → β → Prop} {x y : β}
    (h : R a b ↔ S x y) (h' : R b a ↔ S y x) : Fits R v a b ↔ Fits S v x y := by
  cases v
  · exact h
  · exact h'
  · exact and_congr h h'

theorem fits_eq : Fits Eq v a b ↔ a = b := by
  cases v
  · exact Iff.rfl
  · exact eq_comm
  · exact ⟨fun h => h.1, fun h => ⟨h, h.symm⟩⟩

theorem fits_le [PartialOrder α] (h : a ≤ b) : Fits (· ≥ ·) v b a ↔ v = co ∨ b = a := by
  cases v
  · exact ⟨fun _ => .inl rfl, fun _ => h⟩
  · exact ⟨fun hab => .inr (hab.antisymm h), fun hab => (hab.resolve_left (by simp)).le⟩
  · exact ⟨fun hab => .inr (hab.2.antisymm h), fun hab => ⟨h, (hab.resolve_left (by simp)).le⟩⟩

end Variance
