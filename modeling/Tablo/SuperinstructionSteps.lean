import Tablo.SuperinstructionExec

/-! Addresses: the pass keeps the position of every instruction that starts a group. -/

namespace Tablo.Super

open Addressing List Segment

variable {O : Type} {L : Layout O}

theorem peepholeInstructionLen_pos (i : Instr O) : 0 < peepholeInstructionLen L i := by
  cases i with
  | other o => exact L.len_pos o
  | _ => simp [peepholeInstructionLen]

section Groups

variable {w : List (Instr O)} {j : Instr O}

theorem Group.len_eq (h : Group w j) : peepholeInstructionLen L j = extent (peepholeInstructionLen L) w := by
  cases h <;> simp [peepholeInstructionLen, extent]

theorem Group.jumpTargets_eq (h : Group w j) (pc : Nat) : targets L pc w = jumpTargets L pc j := by
  cases h <;> simp [targets, jumpTargets]

theorem Group.ne_nil (h : Group w j) : w ≠ [] := by
  cases h <;> simp

theorem targets_append (pc : Nat) (u v : List (Instr O)) : targets L pc (u ++ v)
      = targets L pc u ++ targets L (pc + extent (peepholeInstructionLen L) u) v := by
  induction u generalizing pc with
  | nil => simp [targets, extent]
  | cons i u ih => simp [targets, extent, ih, Nat.add_assoc]

end Groups

def Segment.len (L : Layout O) (g : Segment O) : Nat := peepholeInstructionLen L g.instr

theorem Segment.len_pos (g : Segment O) : 0 < g.len L := peepholeInstructionLen_pos g.instr

variable {segs : List (Segment O)}

theorem extent_origins (h : ∀ g ∈ segs, g.Valid) :
    extent (peepholeInstructionLen L) (origins segs) = extent (len L) segs := by
  induction segs with
  | nil => rfl
  | cons g segs ih =>
    have hg : Group g.origin g.instr := h g mem_cons_self
    have htail := ih fun g' hg' => h g' (mem_cons_of_mem g hg')
    rw [origins, flatMap_cons, extent_append, ← hg.len_eq]
    rw [origins] at htail
    rw [htail]
    rfl

theorem targets_origins (h : ∀ g ∈ segs, g.Valid) (pc : Nat) :
    targets L pc (origins segs) = targets L pc (segs.map (·.instr)) := by
  induction segs generalizing pc with
  | nil => rfl
  | cons g segs ih =>
    have hg : Group g.origin g.instr := h g mem_cons_self
    have htail := ih fun g' hg' => h g' (mem_cons_of_mem g hg')
    rw [origins] at htail
    rw [origins, flatMap_cons, targets_append, htail, ← hg.len_eq, hg.jumpTargets_eq]
    rfl

theorem origins_append (s₁ s₂ : List (Segment O)) : origins (s₁ ++ s₂) = origins s₁ ++ origins s₂ :=
  flatMap_append

theorem exists_segment {l₁ l₂ : List (Instr O)} {i : Instr O} (h : origins segs = l₁ ++ i :: l₂) :
    ∃ s₁ g s₂ u v, segs = s₁ ++ g :: s₂ ∧ g.origin = u ++ i :: v ∧ l₁ = origins s₁ ++ u := by
  induction segs generalizing l₁ with
  | nil => simp [origins] at h
  | cons g segs ih =>
    rw [origins, flatMap_cons] at h
    have hlater : ∀ a, l₁ = g.origin ++ a → origins segs = a ++ i :: l₂ →
        ∃ s₁ g' s₂ u v, g :: segs = s₁ ++ g' :: s₂ ∧ g'.origin = u ++ i :: v ∧ l₁ = origins s₁ ++ u := by
      intro a ha hseg
      obtain ⟨s₁, g', s₂, u, v, rfl, hg', rfl⟩ := ih hseg
      exact ⟨g :: s₁, g', s₂, u, v, rfl, hg', by simp [ha, origins]⟩
    rcases append_eq_append_iff.mp h with ⟨a, ha, hseg⟩ | ⟨c, hc, hseg⟩
    · exact hlater a ha hseg
    · cases c with
      | nil => exact hlater [] (by simpa using hc.symm) (by simpa [origins] using hseg.symm)
      | cons x c =>
        obtain ⟨rfl, -⟩ := List.cons.inj hseg
        exact ⟨[], g, segs, l₁, c, rfl, hc, rfl⟩

def Swallowed (L : Layout O) (segs : List (Segment O)) (t : Int) : Prop :=
  ∃ s₁ g s₂ u i v, segs = s₁ ++ g :: s₂ ∧ g.origin = u ++ i :: v ∧ u ≠ [] ∧
    t = (extent (peepholeInstructionLen L) (origins s₁ ++ u) : Nat)

theorem extent_pos {u : List (Instr O)} (h : u ≠ []) : 0 < extent (peepholeInstructionLen L) u := by
  cases u with
  | nil => exact absurd rfl h
  | cons i u =>
    have := peepholeInstructionLen_pos (L := L) i
    rw [extent]
    omega

section

variable (hv : ∀ g ∈ segs, g.Valid)

include hv

theorem locate_swallowed {a : Nat} (h : Swallowed L segs a) :
    locate (peepholeInstructionLen L) (segs.map (·.instr)) a = none := by
  obtain ⟨s₁, g, s₂, u, i, v, rfl, hg, hu, ha⟩ := h
  have hgroup : Group g.origin g.instr := hv g (by simp)
  have hlen : g.len L = extent (peepholeInstructionLen L) (u ++ i :: v) := by
    rw [← hg]
    exact hgroup.len_eq
  have hi := peepholeInstructionLen_pos (L := L) i
  have hpos := extent_pos (L := L) hu
  rw [extent_append, extent] at hlen
  rw [extent_append, extent_origins fun g' hg' => hv g' (by simp [hg'])] at ha
  have ha' : a = extent (len L) s₁ + extent (peepholeInstructionLen L) u := by exact_mod_cast ha
  rw [locate_map, ha']
  exact congrArg _ (locate_inside len_pos s₁ s₂ hpos (by omega))

theorem target_segment (ha : Aligned L (origins segs)) {t : Int}
    (ht : t ∈ targets L 0 (origins segs)) (h : ¬Swallowed L segs t) :
    ∃ s₁ g s₂, segs = s₁ ++ g :: s₂ ∧ t = (extent (len L) s₁ : Nat) := by
  obtain ⟨a, rfl, hsome⟩ := ha t ht
  obtain ⟨i, hi⟩ := Option.isSome_iff_exists.mp hsome
  obtain ⟨l₁, l₂, hl, rfl⟩ := exists_of_locate hi
  obtain ⟨s₁, g, s₂, u, v, rfl, hg, rfl⟩ := exists_segment hl
  have hu : u = [] := by
    by_contra hne
    exact h ⟨s₁, g, s₂, u, i, v, rfl, hg, hne, rfl⟩
  refine ⟨s₁, g, s₂, rfl, ?_⟩
  rw [hu, append_nil, extent_origins fun g' hg' => hv g' (by simp [hg'])]

/-- The jump operands land on instructions of the optimized code exactly if no target is
swallowed. -/
theorem aligned_iff (ha : Aligned L (origins segs)) :
    Aligned L (segs.map (·.instr)) ↔ ∀ t ∈ targets L 0 (origins segs), ¬Swallowed L segs t := by
  constructor
  · intro h t ht hsw
    rw [targets_origins hv] at ht
    obtain ⟨a, rfl, hsome⟩ := h t ht
    rw [locate_swallowed hv hsw] at hsome
    cases hsome
  · intro h t ht
    rw [← targets_origins hv] at ht
    obtain ⟨s₁, g, s₂, rfl, rfl⟩ := target_segment hv ha ht (h t ht)
    have hmid : locate (len L) (s₁ ++ g :: s₂) (extent (len L) s₁) = some g :=
      locate_middle len_pos s₁ s₂ g
    refine ⟨_, rfl, ?_⟩
    rw [locate_map]
    exact (congrArg (fun o => (Option.map _ o).isSome) hmid).trans rfl

end

/-! A group against its replacement, and the steps of a group as steps of the code. -/

open Stepping

variable {D R W X : Type} {M : Machine O D R W X} {P : Pool D R}

def Mismatch (M : Machine O D R W X) (d : Data D R W) : List (Instr O) → Prop
  | [.arrayGet _ array (.local slot), .storeLocal _] => GetMismatch d array slot
  | [.evalARecip a b, .madd acc array index] => EvalAMismatch M d acc array index a b
  | _ => False

structure PoolFits (P : Pool D R) (code : List (Instr O)) : Prop where
  addConst : ∀ slot c, .addLocalConst slot c ∈ code → c < P.values.length
  constNum : ∀ c op, [.const c, .num op] <:+: code → InPool P c
  constLocalNum : ∀ c b op, [.const c, .loadLocal b, .num op] <:+: code → InPool P c

variable {d : Data D R W}

theorem PoolFits.mono {code : List (Instr O)} (h : PoolFits P code) (hw : w <:+: code) : PoolFits P w where
  addConst slot c hc := h.addConst slot c (hw.subset hc)
  constNum c op hc := h.constNum c op (hc.trans hw)
  constLocalNum c b op hc := h.constLocalNum c b op (hc.trans hw)

theorem Group.exec_eq {pc : Nat}
    (h : Group w j) (hpool : PoolFits P w) (hjump : ∀ off, w = [.jumpIfFalse off, .pop] → off ≠ 0)
    (hm : ¬Mismatch M d w) : execList M P w pc d = stepInstr M P j pc d := by
  cases h with
  | single => exact execList_single _ _ _
  | jump off => exact exec_jump (hjump off rfl)
  | global op dst a b => exact exec_global op dst a b
  | get kind array index dst =>
    refine exec_get fun slot hslot => ?_
    subst hslot
    exact hm
  | mul kind dst a b => exact exec_mul kind dst a b
  | evalA acc array index a b => exact exec_evalA hm
  | add2 a c1 b c2 =>
    exact exec_add2 (hpool.addConst a c1 (by simp)) (hpool.addConst b c2 (by simp))
  | locals op a b => exact exec_locals op a b
  | localConst op a c => exact exec_localConst (hpool.constNum c op ⟨[.loadLocal a], [], rfl⟩)
  | constLocal op b c hop =>
    exact exec_constLocal (hpool.constLocalNum c b op infix_rfl) hop
  | sqrt slot => exact exec_sqrt slot
  | arrayLen slot => exact exec_arrayLen slot
  | stackLocal op slot => exact exec_stackLocal op slot
  | stackConst op c => exact exec_stackConst (hpool.constNum c op infix_rfl)

theorem Group.exec_ne (h : Group w j) (hm : Mismatch M d w) (P : Pool D R) (pc : Nat) :
    ∃ e e', execList M P w pc d = raise d e ∧ stepInstr M P j pc d = raise d e' ∧ e ≠ e' := by
  cases h with
  | get kind array index dst =>
    cases index with
    | const i => exact hm.elim
    | «local» slot =>
      exact ⟨_, _, (exec_get_mismatch hm).1, (exec_get_mismatch hm).2, by decide⟩
  | evalA acc array index a b => exact exec_evalA_mismatch hm
  | single h => simp [Mismatch] at hm
  | _ => exact hm.elim

def segmentStep (M : Machine O D R W X) (P : Pool D R) (segs : List (Segment O))
    (s : State D R W) : State D R W ⊕ Result D R W X :=
  match locate (Segment.len M.toLayout) segs s.pc with
  | some g => execList M P g.origin s.pc s.data
  | none => .inr .badAddress

theorem step_instrs (segs : List (Segment O)) (s : State D R W) : step M P (segs.map (·.instr)) s
      = match locate (Segment.len M.toLayout) segs s.pc with
        | some g => stepInstr M P g.instr s.pc s.data
        | none => .inr .badAddress := by
  have hlocate : locate (peepholeInstructionLen M.toLayout) (segs.map (·.instr)) s.pc
      = (locate (Segment.len M.toLayout) segs s.pc).map (·.instr) := locate_map ..
  rw [step, hlocate]
  cases locate (Segment.len M.toLayout) segs s.pc <;> rfl

variable {pc : Nat} {s : State D R W}

theorem stepInstr_pc {i : Instr O} (h : stepInstr M P i pc d = .inl s) :
    s.pc = pc + peepholeInstructionLen M.toLayout i ∨ ∃ t ∈ jumpTargets M.toLayout pc i, s.pc = t.toNat := by
  by_cases hi : i.isStraight = true
  · rw [stepInstr_straight hi] at h
    cases hd : straight M P i d with
    | ok d' => rw [hd] at h; cases h; exact .inl rfl
    | error e => rw [hd] at h; cases h
  · cases i with
    | jumpIfFalse off | jumpIfFalsePop off =>
      simp only [stepInstr] at h
      split at h <;> cases h
      · exact .inl rfl
      · exact .inr ⟨_, mem_singleton_self _, rfl⟩
    | other o =>
      simp only [stepInstr] at h
      split at h
      · cases h; exact .inl rfl
      · split at h
        · rename_i off hoff
          cases h
          exact .inr ⟨_, mem_map_of_mem (mem_of_getElem? hoff), rfl⟩
        · cases h; exact .inl rfl
      · cases h
    | _ => exact absurd rfl hi

theorem execList_pc (h : execList M P w pc d = .inl s) :
    s.pc = pc + extent (peepholeInstructionLen M.toLayout) w ∨ ∃ t ∈ targets M.toLayout pc w, s.pc = t.toNat := by
  induction w generalizing pc d with
  | nil => cases h; exact .inl rfl
  | cons i w ih =>
    rw [execList] at h
    cases hi : stepInstr M P i pc d with
    | inr r => rw [hi] at h; cases h
    | inl s' =>
      rw [hi] at h
      dsimp only at h
      by_cases hpc : s'.pc = pc + peepholeInstructionLen M.toLayout i
      · rw [if_pos hpc] at h
        rcases ih h with hend | ⟨t, ht, hs⟩
        · exact .inl (by rw [hend, hpc, extent, Nat.add_assoc])
        · exact .inr ⟨t, by rw [targets, mem_append, ← hpc]; exact .inr ht, hs⟩
      · rw [if_neg hpc] at h
        cases h
        obtain ⟨t, ht, hs⟩ := (stepInstr_pc hi).resolve_left hpc
        exact .inr ⟨t, by rw [targets, mem_append]; exact .inl ht, hs⟩

theorem execList_steps {A B : List (Instr O)} (hA : extent (peepholeInstructionLen M.toLayout) A = pc)
    (hw : w ≠ []) (d : Data D R W) : (∀ s, execList M P w pc d = .inl s →
      Relation.TransGen (fun s s' => step M P (A ++ w ++ B) s = .inl s') ⟨pc, d⟩ s) ∧
    ∀ r, execList M P w pc d = .inr r → Ends (step M P (A ++ w ++ B)) ⟨pc, d⟩ r := by
  induction w generalizing A pc d with
  | nil => exact absurd rfl hw
  | cons i w ih =>
    have hstep : step M P (A ++ i :: w ++ B) ⟨pc, d⟩ = stepInstr M P i pc d := by
      rw [step, append_assoc, cons_append, ← hA, locate_middle peepholeInstructionLen_pos]
    have hcode : A ++ [i] ++ w ++ B = A ++ i :: w ++ B := by simp
    rw [execList]
    cases hi : stepInstr M P i pc d with
    | inr r =>
      refine ⟨fun s hs => (by cases hs), fun r' hr => ?_⟩
      cases hr
      exact Ends.here (hstep.trans hi)
    | inl s' =>
      have hfirst := hstep.trans hi
      dsimp only
      by_cases hpc : s'.pc = pc + peepholeInstructionLen M.toLayout i
      · rw [if_pos hpc]
        by_cases hnil : w = []
        · subst hnil
          refine ⟨fun s hs => ?_, fun r hr => (by cases hr)⟩
          cases hs
          exact .single hfirst
        · have hA' : extent (peepholeInstructionLen M.toLayout) (A ++ [i]) = s'.pc := by
            rw [extent_append, hA, hpc]
            rfl
          have hrest := ih hA' hnil s'.data
          rw [hcode] at hrest
          exact ⟨fun s hs => .head hfirst (hrest.1 s hs), fun r hr => (ends_step_iff hfirst).mpr (hrest.2 r hr)⟩
      · rw [if_neg hpc]
        refine ⟨fun s hs => ?_, fun r hr => (by cases hr)⟩
        cases hs
        exact .single hfirst

end Tablo.Super
