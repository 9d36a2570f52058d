import Mathlib.Data.Finset.Card

/-! Marking a finite graph with an explicit stack of bounded size. A node is
marked when it is pushed, so the stack never holds a node twice and a bound of
the number of nodes is never reached. -/

namespace Marking

open List Function Finset

variable {ι : Type}

structure State (ι : Type) where
  marked : ι → Bool
  stack : List ι

inductive Reach (succ : ι → List ι) (root : ι → Prop) : ι → Prop where
  | root {i : ι} : root i → Reach succ root i
  | step {i j : ι} : Reach succ root i → j ∈ succ i → Reach succ root j

/-- What pushing some nodes does: it marks them, keeps marks and stack, and
leaves every newly marked node on the stack. -/
structure Pushed (s s' : State ι) : Prop where
  marked_mono : ∀ j, s.marked j = true → s'.marked j = true
  stack_mono : ∀ j ∈ s.stack, j ∈ s'.stack
  new_on_stack : ∀ j, s'.marked j = true → s.marked j = true ∨ j ∈ s'.stack

theorem Pushed.refl (s : State ι) : Pushed s s := ⟨fun _ => id, fun _ => id, fun _ => .inl⟩

theorem Pushed.trans {s₁ s₂ s₃ : State ι} (h : Pushed s₁ s₂) (h' : Pushed s₂ s₃) : Pushed s₁ s₃ := by
  refine ⟨fun j hj => h'.marked_mono j (h.marked_mono j hj), fun j hj => h'.stack_mono j (h.stack_mono j hj),
    fun j hj => ?_⟩
  rcases h'.new_on_stack j hj with hj | hj
  · exact (h.new_on_stack j hj).imp_right (h'.stack_mono j)
  · exact .inr hj

def Closed (nodes : Finset ι) (succ : ι → List ι) (s : State ι) : Prop :=
  ∀ i ∈ nodes, s.marked i = true → i ∉ s.stack → ∀ j ∈ succ i, s.marked j = true

theorem Closed.marked_of_reach {nodes : Finset ι} {succ : ι → List ι} {root : ι → Prop} {s : State ι}
    (hsucc : ∀ i ∈ nodes, ∀ j ∈ succ i, j ∈ nodes) (hc : Closed nodes succ s) (hstack : s.stack = [])
    (hroot : ∀ i, root i → i ∈ nodes ∧ s.marked i = true) {i : ι} (hr : Reach succ root i) :
    i ∈ nodes ∧ s.marked i = true := by
  induction hr with
  | root hi => exact hroot _ hi
  | step _ hj ih => exact ⟨hsucc _ ih.1 _ hj, hc _ ih.1 ih.2 (by simp [hstack]) _ hj⟩

variable [DecidableEq ι]

def push (cap : Nat) (s : State ι) (i : ι) : State ι :=
  if s.marked i then s
  else if cap ≤ s.stack.length then s
  else ⟨update s.marked i true, i :: s.stack⟩

def drain (cap : Nat) (succ : ι → List ι) : Nat → State ι → Option (State ι)
  | 0, s => if s.stack = [] then some s else none
  | fuel + 1, s =>
    match s.stack with
    | [] => some s
    | i :: rest => drain cap succ fuel ((succ i).foldl (push cap) ⟨s.marked, rest⟩)

structure Sound (nodes : Finset ι) (succ : ι → List ι) (root : ι → Prop) (s : State ι) : Prop where
  nodup : s.stack.Nodup
  stack_mem : ∀ i ∈ s.stack, i ∈ nodes
  stack_marked : ∀ i ∈ s.stack, s.marked i = true
  marked_reach : ∀ i ∈ nodes, s.marked i = true → Reach succ root i

variable {nodes : Finset ι} {succ : ι → List ι} {root : ι → Prop} {s : State ι}

def potential (nodes : Finset ι) (s : State ι) : Nat :=
  s.stack.length + (nodes.filter fun i => s.marked i = false).card

section

variable (h : Sound nodes succ root s)

include h

theorem Sound.length_lt {i : ι} (hi : i ∈ nodes) (hm : s.marked i = false) : s.stack.length < nodes.card := by
  have hsub : (s.stack.toFinset) ⊆ nodes.erase i := by
    intro j hj
    have hjm := h.stack_marked j (mem_toFinset.mp hj)
    refine mem_erase.mpr ⟨?_, h.stack_mem j (mem_toFinset.mp hj)⟩
    rintro rfl
    rw [hm] at hjm
    exact absurd hjm (by simp)
  have hcard := card_le_card hsub
  have hpos := card_pos.mpr ⟨i, hi⟩
  rw [toFinset_card_of_nodup h.nodup, card_erase_of_mem hi] at hcard
  omega

theorem Sound.push {i : ι} (hi : i ∈ nodes) (hr : Reach succ root i) (hm : s.marked i = false) :
    push nodes.card s i = ⟨update s.marked i true, i :: s.stack⟩ ∧
      Sound nodes succ root (push nodes.card s i) ∧
      potential nodes (push nodes.card s i) = potential nodes s := by
  have hlt := h.length_lt hi hm
  have hdef : Marking.push nodes.card s i = ⟨update s.marked i true, i :: s.stack⟩ := by
    rw [Marking.push, if_neg (by simp [hm]), if_neg (by omega)]
  have hnew : i ∉ s.stack := fun hmem => by
    rw [h.stack_marked i hmem] at hm
    exact absurd hm (by simp)
  rw [hdef]
  refine ⟨rfl, ⟨nodup_cons.mpr ⟨hnew, h.nodup⟩, ?_, ?_, ?_⟩, ?_⟩
  · intro j hj
    rcases mem_cons.mp hj with rfl | hj
    exacts [hi, h.stack_mem j hj]
  · intro j hj
    rcases mem_cons.mp hj with rfl | hj
    · exact update_self ..
    · by_cases hji : j = i
      · simp [hji]
      · simpa [update_of_ne hji] using h.stack_marked j hj
  · intro j hjn hj
    by_cases hji : j = i
    · exact hji ▸ hr
    · exact h.marked_reach j hjn (by simpa [update_of_ne hji] using hj)
  · have hfilter : (nodes.filter fun j => update s.marked i true j = false) =
        (nodes.filter fun j => s.marked j = false).erase i := by
      ext j
      by_cases hji : j = i <;> simp [hji]
    have hmem : i ∈ nodes.filter fun j => s.marked j = false := mem_filter.mpr ⟨hi, hm⟩
    have hpos := card_pos.mpr ⟨i, hmem⟩
    simp only [potential, hfilter, card_erase_of_mem hmem, length_cons]
    omega

theorem Sound.pushed {i : ι} (hi : i ∈ nodes) (hr : Reach succ root i) :
    Sound nodes succ root (Marking.push nodes.card s i) ∧ Pushed s (Marking.push nodes.card s i) ∧
      (Marking.push nodes.card s i).marked i = true ∧
      potential nodes (Marking.push nodes.card s i) = potential nodes s := by
  cases hm : s.marked i with
  | true =>
    rw [Marking.push, if_pos hm]
    exact ⟨h, Pushed.refl s, hm, rfl⟩
  | false =>
    obtain ⟨hdef, hs, hp⟩ := h.push hi hr hm
    refine ⟨hs, ?_, by rw [hdef]; exact update_self .., hp⟩
    rw [hdef]
    refine ⟨fun j hj => ?_, fun j hj => mem_cons_of_mem _ hj, fun j hj => ?_⟩
    · by_cases hji : j = i
      · simp [hji]
      · simpa [update_of_ne hji] using hj
    · by_cases hji : j = i
      · exact .inr (hji ▸ mem_cons_self)
      · exact .inl (by simpa [update_of_ne hji] using hj)

theorem Sound.foldl_push {l : List ι} (hl : ∀ i ∈ l, i ∈ nodes) (hr : ∀ i ∈ l, Reach succ root i) :
    Sound nodes succ root (l.foldl (Marking.push nodes.card) s) ∧ Pushed s (l.foldl (Marking.push nodes.card) s) ∧
      (∀ i ∈ l, (l.foldl (Marking.push nodes.card) s).marked i = true) ∧
      potential nodes (l.foldl (Marking.push nodes.card) s) = potential nodes s := by
  induction l generalizing s with
  | nil => exact ⟨h, Pushed.refl s, by simp, rfl⟩
  | cons i l ih =>
    obtain ⟨hs, hp, hm, hpot⟩ := h.pushed (hl i mem_cons_self) (hr i mem_cons_self)
    obtain ⟨hs', hp', hm', hpot'⟩ := ih hs (fun j hj => hl j (mem_cons_of_mem _ hj))
      fun j hj => hr j (mem_cons_of_mem _ hj)
    refine ⟨hs', hp.trans hp', fun j hj => ?_, hpot'.trans hpot⟩
    rcases mem_cons.mp hj with rfl | hj
    · exact hp'.marked_mono _ hm
    · exact hm' j hj

end

variable (hsucc : ∀ i ∈ nodes, ∀ j ∈ succ i, j ∈ nodes)

include hsucc

/-- With a step for each node that can still be pushed, the stack runs empty
and the marks are the reachable nodes. -/
theorem drain_spec {fuel : Nat}
    (h : Sound nodes succ root s) (hc : Closed nodes succ s)
    (hroot : ∀ i, root i → i ∈ nodes ∧ s.marked i = true) (hfuel : potential nodes s ≤ fuel) :
    ∃ s', drain nodes.card succ fuel s = some s' ∧ ∀ i ∈ nodes, s'.marked i = true ↔ Reach succ root i := by
  induction fuel generalizing s with
  | zero =>
    have hstack : s.stack = [] := eq_nil_of_length_eq_zero (by unfold potential at hfuel; omega)
    refine ⟨s, by simp [drain, hstack], fun i hi => ⟨h.marked_reach i hi, fun hr => ?_⟩⟩
    exact (hc.marked_of_reach hsucc hstack hroot hr).2
  | succ fuel ih =>
    cases hstack : s.stack with
    | nil =>
      refine ⟨s, by simp [drain, hstack], fun i hi => ⟨h.marked_reach i hi, fun hr => ?_⟩⟩
      exact (hc.marked_of_reach hsucc hstack hroot hr).2
    | cons i rest =>
      have hin : i ∈ nodes := h.stack_mem i (by simp [hstack])
      have hi : s.marked i = true := h.stack_marked i (by simp [hstack])
      have hnodup := h.nodup
      rw [hstack] at hnodup
      have h₀ : Sound nodes succ root ⟨s.marked, rest⟩ := by
        refine ⟨(nodup_cons.mp hnodup).2, fun j hj => ?_, fun j hj => ?_, h.marked_reach⟩
        · exact h.stack_mem j (by simp [hstack, hj])
        · exact h.stack_marked j (by simp [hstack, hj])
      obtain ⟨hs, hp, hm, hpot⟩ := h₀.foldl_push (hsucc i hin) fun j hj => (h.marked_reach i hin hi).step hj
      have hclosed : Closed nodes succ ((succ i).foldl (push nodes.card) ⟨s.marked, rest⟩) := by
        intro k hkn hk hks j hj
        have hkm := (hp.new_on_stack k hk).resolve_right hks
        by_cases hki : k = i
        · exact hm j (hki ▸ hj)
        · refine hp.marked_mono j (hc k hkn hkm ?_ j hj)
          rw [hstack]
          intro hmem
          exact hks (hp.stack_mono k ((mem_cons.mp hmem).resolve_left hki))
      have hfuel' : potential nodes ((succ i).foldl (push nodes.card) ⟨s.marked, rest⟩) ≤ fuel := by
        rw [hpot]
        simp only [potential, hstack, length_cons] at hfuel ⊢
        omega
      obtain ⟨s', hrun, hres⟩ := ih hs hclosed (fun j hj => ⟨(hroot j hj).1, hp.marked_mono j (hroot j hj).2⟩) hfuel'
      exact ⟨s', by simpa [drain, hstack] using hrun, hres⟩

theorem mark_spec {l : List ι} {m : ι → Bool}
    (hm : ∀ i ∈ nodes, m i = false) (hl : ∀ i ∈ l, i ∈ nodes) :
    ∃ s', drain nodes.card succ nodes.card (l.foldl (push nodes.card) ⟨m, []⟩) = some s' ∧
      ∀ i ∈ nodes, s'.marked i = true ↔ Reach succ (· ∈ l) i := by
  have h₀ : Sound nodes succ (· ∈ l) ⟨m, []⟩ := by
    refine ⟨nodup_nil, by simp, by simp, fun i hi hmi => ?_⟩
    exact absurd ((hm i hi).symm.trans hmi) (by simp)
  obtain ⟨hs, hp, hmark, hpot⟩ := h₀.foldl_push hl fun i hi => .root hi
  refine drain_spec hsucc hs ?_ (fun i hi => ⟨hl i hi, hmark i hi⟩) ?_
  · intro i hi hmi hstack
    have hnew := (hp.new_on_stack i hmi).resolve_left (by simp [hm i hi])
    exact absurd hnew hstack
  · rw [hpot]
    exact (Nat.zero_add _).trans_le (card_filter_le _ _)

end Marking
