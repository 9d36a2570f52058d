import Mathlib.Computability.Language

/-! Languages of one repeated atom, an atom being a set of letters. -/

namespace Repetition

open List

variable {α : Type} {p : α → Bool} {w : List α}

def atom (p : α → Bool) : Language α := {w | ∃ c, w = [c] ∧ p c = true}

theorem mem_atom : w ∈ atom p ↔ (∀ c ∈ w, p c = true) ∧ w.length = 1 := by
  constructor
  · rintro ⟨c, rfl, hc⟩
    simpa using hc
  · rintro ⟨hw, hlen⟩
    obtain ⟨c, rfl⟩ := length_eq_one_iff.mp hlen
    exact ⟨c, rfl, hw c mem_cons_self⟩

theorem mem_atom_kstar : w ∈ KStar.kstar (atom p) ↔ ∀ c ∈ w, p c = true := by
  constructor
  · rintro ⟨words, rfl, hwords⟩ c hc
    obtain ⟨word, hword, hc⟩ := mem_flatten.mp hc
    exact (mem_atom.mp (hwords word hword)).1 c hc
  · intro hw
    refine ⟨w.map fun c => [c], ?_, fun word hword => ?_⟩
    · rw [← flatMap_def, flatMap_singleton']
    · obtain ⟨c, hc, rfl⟩ := mem_map.mp hword
      exact ⟨c, rfl, hw c hc⟩

theorem mem_atom_mul_kstar : w ∈ atom p * KStar.kstar (atom p) ↔ (∀ c ∈ w, p c = true) ∧ 1 ≤ w.length := by
  constructor
  · rintro ⟨u, hu, v, hv, rfl⟩
    obtain ⟨hu, hlen⟩ := mem_atom.mp hu
    refine ⟨fun c hc => ?_, by rw [length_append]; omega⟩
    rcases mem_append.mp hc with hc | hc
    · exact hu c hc
    · exact mem_atom_kstar.mp hv c hc
  · rintro ⟨hw, hlen⟩
    obtain ⟨c, v, rfl⟩ := exists_cons_of_length_pos hlen
    exact ⟨[c], ⟨c, rfl, hw c mem_cons_self⟩, v, mem_atom_kstar.mpr fun d hd => hw d (mem_cons_of_mem c hd), rfl⟩

theorem mem_one_add_atom : w ∈ 1 + atom p ↔ (∀ c ∈ w, p c = true) ∧ w.length ≤ 1 := by
  rw [Language.mem_add, mem_atom]
  constructor
  · rintro (rfl | ⟨hw, hlen⟩)
    · simp
    · exact ⟨hw, hlen.le⟩
  · rintro ⟨hw, hlen⟩
    rcases Nat.le_one_iff_eq_zero_or_eq_one.mp hlen with h | h
    · exact .inl (length_eq_zero_iff.mp h)
    · exact .inr ⟨hw, h⟩

end Repetition
