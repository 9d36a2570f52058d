import Tablo.SuperinstructionSteps

/-! The optimized chunk against the original one. -/

namespace Tablo.Super

open Addressing Stepping

variable {O D R W X : Type} {M : Machine O D R W X} {P : Pool D R}

section Segments

variable {segs : List (Segment O)} {g : Segment O} {s : State D R W}

def Unswallowed (L : Layout O) (segs : List (Segment O)) : Prop :=
  ∀ t ∈ targets L 0 (origins segs), ¬Swallowed L segs t

def Boundary (L : Layout O) (segs : List (Segment O)) (p : Nat) : Prop :=
  ∃ s₁ s₂, segs = s₁ ++ s₂ ∧ p = extent (Segment.len L) s₁

theorem mem_targets_of_origin {L : Layout O} {s₁ s₂ : List (Segment O)} {t : Int}
    (hv : ∀ g' ∈ s₁ ++ g :: s₂, g'.Valid) (ht : t ∈ targets L (extent (Segment.len L) s₁) g.origin) :
    t ∈ targets L 0 (origins (s₁ ++ g :: s₂)) := by
  rw [origins_append, targets_append, List.mem_append, Nat.zero_add,
    extent_origins fun g' hg' => hv g' (by simp [hg']), origins, origins, List.flatMap_cons,
    targets_append, List.mem_append]
  exact .inr (.inl ht)

section

variable (hv : ∀ g ∈ segs, g.Valid)

include hv

theorem segmentStep_steps (hg : locate (Segment.len M.toLayout) segs s.pc = some g) :
    (∀ s', execList M P g.origin s.pc s.data = .inl s' →
      Relation.TransGen (fun s s' => step M P (origins segs) s = .inl s') s s') ∧
    ∀ r, execList M P g.origin s.pc s.data = .inr r → Ends (step M P (origins segs)) s r := by
  obtain ⟨s₁, s₂, rfl, hpc⟩ := exists_of_locate hg
  have hcode : origins (s₁ ++ g :: s₂) = origins s₁ ++ g.origin ++ origins s₂ := by
    simp [origins]
  have hgroup : Group g.origin g.instr := hv g (by simp)
  obtain ⟨pc, d⟩ := s
  dsimp only at hpc ⊢
  rw [← extent_origins fun g' hg' => hv g' (by simp [hg'])] at hpc
  rw [hcode]
  exact execList_steps hpc.symm hgroup.ne_nil d

theorem segmentStep_boundary (ha : Aligned M.toLayout (origins segs))
    (hu : Unswallowed M.toLayout segs) {s' : State D R W} (h : segmentStep M P segs s = .inl s') :
    Boundary M.toLayout segs s'.pc := by
  rw [segmentStep] at h
  split at h
  · rename_i g hg
    obtain ⟨s₁, s₂, rfl, hpc⟩ := exists_of_locate hg
    have hgroup : Group g.origin g.instr := hv g (by simp)
    rcases execList_pc h with hend | ⟨t, ht, hs⟩
    · refine ⟨s₁ ++ [g], s₂, by simp, ?_⟩
      rw [hend, hpc, ← hgroup.len_eq, extent_append]
      rfl
    · rw [hpc] at ht
      have hmem := mem_targets_of_origin hv ht
      obtain ⟨a, g', b, hsplit, rfl⟩ := target_segment hv ha hmem (hu t hmem)
      exact ⟨a, g' :: b, hsplit, hs⟩
  · cases h

theorem segmentStep_ends_iff (ha : Aligned M.toLayout (origins segs))
    (hu : Unswallowed M.toLayout segs) (hs : Boundary M.toLayout segs s.pc) (r : Result D R W X) :
    Ends (segmentStep M P segs) s r ↔ Ends (step M P (origins segs)) s r := by
  refine ends_iff_of_steps (I := fun s => Boundary M.toLayout segs s.pc) ?_ ?_ hs
  · intro s _ s' h
    refine ⟨segmentStep_boundary hv ha hu h, ?_⟩
    rw [segmentStep] at h
    split at h
    · rename_i g hg
      exact (segmentStep_steps hv hg).1 s' h
    · cases h
  · rintro s ⟨s₁, s₂, rfl, hpc⟩ r h
    rw [segmentStep] at h
    split at h
    · rename_i g hg
      exact (segmentStep_steps hv hg).2 r h
    · rename_i hnone
      cases h
      cases s₂ with
      | cons g s₂ =>
        rw [hpc, locate_middle Segment.len_pos] at hnone
        cases hnone
      | nil =>
        rw [List.append_nil] at hv ⊢
        refine Ends.here ?_
        rw [step, hpc, ← extent_origins hv, locate_end peepholeInstructionLen_pos]

theorem jump_ne_zero (hu : Unswallowed M.toLayout segs)
    {s₁ s₂ : List (Segment O)} (hs : segs = s₁ ++ g :: s₂) {off : Int}
    (hg : g.origin = [.jumpIfFalse off, .pop]) : off ≠ 0 := by
  rintro rfl
  subst hs
  have hvalid : ∀ g' ∈ s₁, g'.Valid := fun g' hg' => hv g' (by simp [hg'])
  refine hu _ (mem_targets_of_origin hv (t := (extent (Segment.len M.toLayout) s₁ + 3 : Nat)) ?_)
    ⟨s₁, g, s₂, [.jumpIfFalse 0], .pop, [], rfl, hg, by simp, ?_⟩
  · rw [hg]
    simp [targets, jumpTargets]
  · rw [extent_append, extent_origins hvalid]
    rfl

theorem step_instrs_eq (hu : Unswallowed M.toLayout segs) (hpool : PoolFits P (origins segs))
    (h : ∀ g, locate (Segment.len M.toLayout) segs s.pc = some g → ¬Mismatch M s.data g.origin) :
    step M P (segs.map (·.instr)) s = segmentStep M P segs s := by
  rw [step_instrs, segmentStep]
  cases hg : locate (Segment.len M.toLayout) segs s.pc with
  | none => rfl
  | some g =>
    obtain ⟨s₁, s₂, hsegs, -⟩ := exists_of_locate hg
    have hgroup : Group g.origin g.instr := hv g (by simp [hsegs])
    have hfits : PoolFits P g.origin := by
      refine hpool.mono ⟨origins s₁, origins s₂, ?_⟩
      rw [hsegs]
      simp [origins]
    have hjump : ∀ off, g.origin = [.jumpIfFalse off, .pop] → off ≠ 0 :=
      fun off hoff => jump_ne_zero hv hu hsegs hoff
    exact (hgroup.exec_eq hfits hjump (h g hg)).symm

theorem step_instrs_ne (hg : locate (Segment.len M.toLayout) segs s.pc = some g) (hm : Mismatch M s.data g.origin) :
    ∃ r r', step M P (segs.map (·.instr)) s = .inr r ∧ segmentStep M P segs s = .inr r' ∧ r ≠ r' := by
  obtain ⟨s₁, s₂, hsegs, -⟩ := exists_of_locate hg
  have hgroup : Group g.origin g.instr := hv g (by simp [hsegs])
  obtain ⟨e, e', hseq, hfused, hne⟩ := hgroup.exec_ne hm P s.pc
  refine ⟨.error e' s.data.globals s.data.world, .error e s.data.globals s.data.world, ?_, ?_, ?_⟩
  · rw [step_instrs, hg]
    exact hfused
  · rw [segmentStep, hg]
    exact hseq
  · intro h
    cases h
    exact hne rfl

end

/-- A run meets a state in which a group and its replacement raise different errors. -/
def MeetsMismatch (M : Machine O D R W X) (P : Pool D R) (segs : List (Segment O))
    (d : Data D R W) : Prop :=
  ∃ s, Reaches (segmentStep M P segs) ⟨0, d⟩ s ∧
    ∃ g, locate (Segment.len M.toLayout) segs s.pc = some g ∧ Mismatch M s.data g.origin

theorem ends_instrs_iff (hv : ∀ g ∈ segs, g.Valid) (ha : Aligned M.toLayout (origins segs))
    (hu : Unswallowed M.toLayout segs) (hpool : PoolFits P (origins segs)) (d : Data D R W) :
    (∀ r, Ends (step M P (segs.map (·.instr))) ⟨0, d⟩ r ↔ Ends (step M P (origins segs)) ⟨0, d⟩ r)
      ↔ ¬MeetsMismatch M P segs d := by
  have hstart : Boundary M.toLayout segs 0 := ⟨[], segs, rfl, rfl⟩
  simp only [← segmentStep_ends_iff hv ha hu (s := ⟨0, d⟩) hstart]
  rw [ends_iff_forall_agree]
  · constructor
    · rintro h ⟨s, hs, g, hg, hm⟩
      obtain ⟨r, r', hr, hr', hne⟩ := step_instrs_ne (P := P) hv hg hm
      have heq := h s hs
      rw [hr, hr'] at heq
      cases heq
      exact hne rfl
    · intro h s hs
      exact step_instrs_eq hv hu hpool fun g hg hm => h ⟨s, hs, g, hg, hm⟩
  · intro s _ hne
    by_contra hno
    refine hne (step_instrs_eq hv hu hpool fun g hg hm => hno ?_)
    exact step_instrs_ne hv hg hm

end Segments

/-- What the compiler guarantees of the code it emits before this pass: there are no
superinstructions yet, jumps land on instructions, and constants are in the pool. -/
structure Chunk (O D R : Type) (L : Layout O) where
  code : List (Instr O)
  pool : Pool D R
  plain : ∀ i ∈ code, i.plain = true
  aligned : Aligned L code
  fits : PoolFits pool code

def Preserves (M : Machine O D R W X) (c : Chunk O D R M.toLayout) (d : Data D R W) : Prop :=
  Aligned M.toLayout (superinstructionOptimize M.toLayout c.code) ∧
  ∀ r, Ends (step M c.pool (superinstructionOptimize M.toLayout c.code)) ⟨0, d⟩ r ↔
    Ends (step M c.pool c.code) ⟨0, d⟩ r

inductive JoinOp where
  | jumpIfLocalNe (a b : Nat) (offset : Int)
  | ret

def joinMachine : Machine JoinOp Unit Unit Unit (Option (Value Unit Unit)) where
  len
    | .jumpIfLocalNe _ _ _ => 5
    | .ret => 1
  len_pos o := by cases o <;> simp
  jumps
    | .jumpIfLocalNe _ _ offset => [offset]
    | .ret => []
  addDouble _ _ := ()
  subDouble _ _ := ()
  mulDouble _ _ := ()
  divDouble _ _ := ()
  isZero _ := false
  sqrt _ := ()
  recip _ := ()
  arith _ _ _ := .error "Operands must be numbers"
  length _ _ := 0
  count _ _ := 0
  intElement _ _ _ := none
  doubleElement _ _ _ := none
  exec
    | .jumpIfLocalNe a b _, d => if d.locals a = d.locals b then .next d else .jump 0 d
    | .ret, d => .stop d.stack.head?
  addDouble_comm _ _ := rfl
  mulDouble_comm _ _ := rfl

/-- `var x = 0; var y = 0; if (a == b) { x = x + 1; } y = y + 1; return x + y;` with the parameters
in slots 0 and 1. The `if` has no `else`, so its jump lands on the assignment that follows. -/
def joinCode : List (Instr JoinOp) :=
  [.const 0, .storeLocal 2, .const 1, .storeLocal 3, .other (.jumpIfLocalNe 0 1 3),
    .addLocalConst 2 2, .addLocalConst 3 3, .loadLocal 2, .loadLocal 3, .num .addInt, .other .ret,
    .const 255, .other .ret]

def joinChunk : Chunk JoinOp Unit Unit joinMachine.toLayout where
  code := joinCode
  pool := ⟨[.int 0, .int 0, .int 1, .int 1], fun _ => ""⟩
  plain := by decide
  aligned := by
    intro t ht
    have htargets : targets joinMachine.toLayout 0 joinCode = [16] := rfl
    rw [htargets, List.mem_singleton] at ht
    exact ⟨16, ht, rfl⟩
  fits :=
    { addConst := by
        intro slot c h
        simp [joinCode] at h
        rcases h with ⟨-, rfl⟩ | ⟨-, rfl⟩ <;> decide
      constNum := by
        intro c op h
        simp [joinCode, List.infix_cons_iff] at h
      constLocalNum := by
        intro c b op h
        simp [joinCode, List.infix_cons_iff] at h }

def joinData : Data Unit Unit Unit :=
  ⟨[], fun slot => if slot = 0 then .int 1 else if slot = 1 then .int 2 else .nil, fun _ => .nil, ()⟩

end Tablo.Super
