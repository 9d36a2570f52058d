import Mathlib.Logic.Basic

/-! Computations that can fail. -/

namespace Fallible

theorem ok_of_bind {ε α β : Type} {x : Except ε α} {f : α → Except ε β} {b : β} (h : x >>= f = .ok b) :
    ∃ a, x = .ok a ∧ f a = .ok b := by
  cases x with
  | error e => cases h
  | ok a => exact ⟨a, rfl, h⟩

theorem always {P A B : Prop} (hP : P) (h : A) : (P → A) ∧ (¬ P → B) := ⟨fun _ => h, fun hno => absurd hP hno⟩

/-- A run begins well and goes on exactly when its first step is admitted and so is the rest. -/
theorem run_iff {ε σ ρ : Type} {x : Except ε (σ × ρ)} {e : ε} {Answers : ρ → Prop} {Rest : σ → Prop} {C P Q : Prop}
    (hC : C) (h : (P → ∃ s r, x = .ok (s, r) ∧ Answers r ∧ (Rest s ↔ Q)) ∧ (¬ P → x = .error e)) :
    (C ∧ ∃ s r, x = .ok (s, r) ∧ Answers r ∧ Rest s) ↔ P ∧ Q := by
  by_cases hP : P
  · obtain ⟨s, r, rfl, hans, hrest⟩ := h.1 hP
    constructor
    · rintro ⟨-, s', r', ⟨⟩, -, hruns⟩
      exact ⟨hP, hrest.mp hruns⟩
    · rintro ⟨-, hQ⟩
      exact ⟨hC, s, r, rfl, hans, hrest.mpr hQ⟩
  · refine iff_of_false ?_ fun hh => hP hh.1
    rintro ⟨-, s, r, hrun, -⟩
    rw [h.2 hP] at hrun
    cases hrun

end Fallible
