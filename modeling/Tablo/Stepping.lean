import Mathlib.Logic.Relation

/-! Deterministic machines: a step gives the next state or a final result. -/

namespace Stepping

variable {σ ρ : Type} (step : σ → σ ⊕ ρ)

def run : Nat → σ → Option ρ
  | 0, _ => none
  | n + 1, s =>
    match step s with
    | .inl s' => run n s'
    | .inr r => some r

def Ends (s : σ) (r : ρ) : Prop := ∃ n, run step n s = some r

abbrev Reaches : σ → σ → Prop := Relation.ReflTransGen fun s s' => step s = .inl s'

variable {step} {s s' : σ} {r r' : ρ}

theorem Ends.here (h : step s = .inr r) : Ends step s r := ⟨1, by simp [run, h]⟩

theorem ends_step_iff (h : step s = .inl s') : Ends step s r ↔ Ends step s' r := by
  constructor
  · rintro ⟨n, hn⟩
    cases n with
    | zero => simp [run] at hn
    | succ n => exact ⟨n, by simpa [run, h] using hn⟩
  · rintro ⟨n, hn⟩
    exact ⟨n + 1, by simpa [run, h] using hn⟩

theorem Reaches.ends_iff (h : Reaches step s s') : Ends step s r ↔ Ends step s' r := by
  induction h with
  | refl => exact Iff.rfl
  | tail _ hstep ih => exact ih.trans (ends_step_iff hstep)

theorem run_unique {n m : Nat} (hn : run step n s = some r) (hm : run step m s = some r') : r = r' := by
  induction n generalizing m s with
  | zero => simp [run] at hn
  | succ n ih =>
    cases m with
    | zero => simp [run] at hm
    | succ m =>
      cases hs : step s with
      | inl s' =>
        simp only [run, hs] at hn hm
        exact ih hn hm
      | inr x =>
        simp only [run, hs, Option.some.injEq] at hn hm
        exact hn.symm.trans hm

theorem Ends.unique (h : Ends step s r) (h' : Ends step s r') : r = r' := by
  obtain ⟨n, hn⟩ := h
  obtain ⟨m, hm⟩ := h'
  exact run_unique hn hm

theorem Ends.reaches (h : Reaches step s s') (he : Ends step s' r) : Ends step s r :=
  h.ends_iff.mpr he

theorem run_of_transGen {n : Nat}
    (h : Relation.TransGen (fun s s' => step s = .inl s') s s') (hn : run step n s = some r) :
    ∃ m < n, run step m s' = some r := by
  induction h using Relation.TransGen.head_induction_on generalizing n with
  | single hstep =>
    cases n with
    | zero => cases hn
    | succ n => exact ⟨n, n.lt_succ_self, by simpa [run, hstep] using hn⟩
  | head hstep _ ih =>
    cases n with
    | zero => cases hn
    | succ n =>
      rw [run, hstep] at hn
      obtain ⟨m, hm, hr⟩ := ih hn
      exact ⟨m, by omega, hr⟩

/-- A machine whose steps are one or more steps of another has the same results, from the states
of an invariant. -/
theorem ends_iff_of_steps {coarse : σ → σ ⊕ ρ} {I : σ → Prop} (hstep : ∀ s, I s → ∀ s', coarse s = .inl s' →
      I s' ∧ Relation.TransGen (fun s s' => step s = .inl s') s s')
    (hend : ∀ s, I s → ∀ r, coarse s = .inr r → Ends step s r) (hs : I s) : Ends coarse s r ↔ Ends step s r := by
  constructor
  · rintro ⟨n, hn⟩
    induction n generalizing s with
    | zero => cases hn
    | succ n ih =>
      cases hc : coarse s with
      | inl s' =>
        obtain ⟨hI, hreach⟩ := hstep s hs s' hc
        exact Ends.reaches hreach.to_reflTransGen (ih hI (by simpa [run, hc] using hn))
      | inr x =>
        have hx : x = r := by simpa [run, hc] using hn
        exact hx ▸ hend s hs x hc
  · rintro ⟨n, hn⟩
    induction n using Nat.strongRecOn generalizing s with
    | ind n ih =>
      cases hc : coarse s with
      | inl s' =>
        obtain ⟨hI, hreach⟩ := hstep s hs s' hc
        obtain ⟨m, hm, hr⟩ := run_of_transGen hreach hn
        exact (ends_step_iff hc).mpr (ih m hm hI hr)
      | inr x =>
        have hx : x = r := (hend s hs x hc).unique ⟨n, hn⟩
        exact hx ▸ Ends.here hc

theorem run_eq_of_agree {other : σ → σ ⊕ ρ} {n : Nat}
    (h : ∀ s', Reaches step s s' → other s' = step s') : run other n s = run step n s := by
  induction n generalizing s with
  | zero => rfl
  | succ n ih =>
    rw [run, run, h s .refl]
    cases hstep : step s with
    | inl s' => exact ih fun t ht => h t (ht.head hstep)
    | inr r => rfl

/-- Two machines that differ only where both stop, and then with different results, have the
same results exactly if no state where they differ is reached. -/
theorem ends_iff_forall_agree {other : σ → σ ⊕ ρ} (hdiff : ∀ s', Reaches step s s' → other s' ≠ step s' →
      ∃ r r', other s' = .inr r ∧ step s' = .inr r' ∧ r ≠ r') :
    (∀ r, Ends other s r ↔ Ends step s r) ↔ ∀ s', Reaches step s s' → other s' = step s' := by
  refine ⟨?_, fun h r => exists_congr fun n => by rw [run_eq_of_agree h]⟩
  intro h s' hreach
  induction hreach using Relation.ReflTransGen.head_induction_on with
  | refl =>
    by_cases hne : other s' = step s'
    · exact hne
    · obtain ⟨r, r', hr, hr', hrr⟩ := hdiff s' .refl hne
      exact absurd (((h r).mp (Ends.here hr)).unique (Ends.here hr')) hrr
  | @head a b hab hrest ih =>
    by_cases hne : other a = step a
    · refine ih (fun t ht => hdiff t (ht.head hab)) fun r => ?_
      exact (ends_step_iff (hne.trans hab)).symm.trans ((h r).trans (ends_step_iff hab))
    · obtain ⟨r, r', -, hr', -⟩ := hdiff a .refl hne
      cases hr'.symm.trans hab

end Stepping
