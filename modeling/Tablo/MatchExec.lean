import Tablo.MatchCode

/-! Running the code of a pattern does its tests. -/

namespace Tablo.Match

open Fallible Stepping List State

variable {W E S R : Type} {P : Program W E S R}

/-- The rest of the machine and the slots below `n` are as they were. -/
structure Kept (n : Nat) (s s' : State W) : Prop where
  events : s'.events = s.events
  world : s'.world = s.world
  locals : ∀ k < n, s'.locals k = s.locals k

theorem Kept.refl (n : Nat) (s : State W) : Kept n s s := ⟨rfl, rfl, fun _ _ => rfl⟩

theorem Kept.trans {n m : Nat} {s s' s'' : State W} (h : Kept n s s') (h' : Kept m s' s'') (hnm : n ≤ m) :
    Kept n s s'' :=
  ⟨h'.events.trans h.events, h'.world.trans h.world,
    fun k hk => (h'.locals k (hk.trans_le hnm)).trans (h.locals k hk)⟩

def State.store (s : State W) (pc n : Nat) (v : Value) : State W :=
  { s with pc, locals := Function.update s.locals n v }

theorem Kept.store (s : State W) (pc n : Nat) (v : Value) : Kept n s (s.store pc n v) :=
  ⟨rfl, rfl, fun _ hk => Function.update_of_ne hk.ne _ _⟩

theorem Kept.envOf {n : Nat} {s s' : State W} (h : Kept n s s') {names : List (String × Nat)}
    (hn : ∀ x ∈ names, x.2 < n) : envOf s'.locals names = envOf s.locals names :=
  map_congr_left fun x hx => by rw [h.locals x.2 (hn x hx)]

variable {final : Emitter E S} {s : State W} {i : Instr E S} {c : Emitter E S}

theorem step_instr (h : final.code[s.pc]? = some i) : step P final s = stepInstr P final.targets s i := by
  simp [step, h]

theorem emit_fetch (h : (emit i c).code <+: final.code) :
    c.code <+: final.code ∧ final.code[c.code.length]? = some i := by
  refine ⟨(prefix_append _ _).trans h, ?_⟩
  obtain ⟨rest, hrest⟩ := h
  rw [← hrest]
  simp [emit]

theorem emitFailJump_fetch (h : (emitFailJump c).code <+: final.code) :
    c.code <+: final.code ∧ final.code[c.code.length]? = some .jumpIfFalse :=
  emit_fetch (i := .jumpIfFalse) h

def TestsRun (P : Program W E S R) (final c c' : Emitter E S) (s : State W) : Trial → Prop
  | .matched env => ∃ s', Reaches (step P final) s s' ∧ s'.pc = c'.code.length ∧ s'.stack = s.stack ∧
      Kept c.localCount s s' ∧ envOf s'.locals c'.names = env
  | .failed n => ∃ s', Reaches (step P final) s s' ∧ s'.stack = .bool false :: s.stack ∧
      Kept c.localCount s s' ∧ s'.pc ∈ c'.failJumps ∧ c.code.length ≤ s'.pc ∧ s'.pc < c'.code.length ∧
      final.code[s'.pc]? = some .jumpIfFalse ∧
      codeSize P (final.code.take (s'.pc + 1)) = codeSize P c.code + n
  | .stuck => ∃ f, Ends (step P final) s (.fault f)

variable {d c' : Emitter E S} {s' : State W} {t : Trial} {n m : Nat} {a b : Bool}

theorem TestsRun.after (hr : Reaches (step P final) s s') (hstack : s'.stack = s.stack)
    (hk : Kept c.localCount s s') (he : Emitted P c d n a) (ht : TestsRun P final d c' s' t) :
    TestsRun P final c c' s (t.after n) := by
  cases t with
  | matched env =>
    obtain ⟨s'', hr', hpc, hst, hk', henv⟩ := ht
    exact ⟨s'', hr.trans hr', hpc, hst.trans hstack, hk.trans hk' he.localCount, henv⟩
  | failed k =>
    obtain ⟨s'', hr', hst, hk', hmem, hlo, hhi, hcode, hsize⟩ := ht
    refine ⟨s'', hr.trans hr', by rw [hst, hstack], hk.trans hk' he.localCount, hmem,
      he.length_le.trans hlo, hhi, hcode, ?_⟩
    rw [hsize, he.size, Nat.add_assoc]
  | stuck =>
    obtain ⟨f, hf⟩ := ht
    exact ⟨f, hr.ends_iff.mpr hf⟩

theorem TestsRun.extend_failed (ht : TestsRun P final c d s (.failed n)) (he : Emitted P d c' m b) :
    TestsRun P final c c' s (.failed n) := by
  obtain ⟨s', hr, hst, hk, hmem, hlo, hhi, hcode, hsize⟩ := ht
  obtain ⟨new, heq, -⟩ := he.failJumps
  exact ⟨s', hr, hst, hk, by rw [heq]; exact mem_append_left _ hmem, hlo,
    hhi.trans_le he.length_le, hcode, hsize⟩

variable {st : List Value} {x y v : Value} {slot : Nat} {get : Instr E S} {index : Nat}

theorem comparison_run (h : (emit .pop (emitFailJump (emit .eq d))).code <+: final.code)
    (hpc : s.pc = d.code.length) (hst : s.stack = y :: x :: st) :
    Reaches (step P final) s (if valueEquals x y then { s with pc := d.code.length + 3, stack := st }
        else { s with pc := d.code.length + 1, stack := .bool false :: st }) := by
  obtain ⟨h, hpop⟩ := emit_fetch h
  obtain ⟨h, hjump⟩ := emitFailJump_fetch h
  obtain ⟨-, heq⟩ := emit_fetch h
  simp only [emit, emitFailJump, length_append, length_singleton] at hpop hjump
  have hs : step P final s = .inl { s with pc := d.code.length + 1, stack := .bool (valueEquals x y) :: st } := by
    rw [step_instr (by rw [hpc]; exact heq)]
    simp [stepInstr, hst, push, hpc]
  refine .head hs ?_
  split_ifs with hxy
  · have hj : step P final { s with pc := d.code.length + 1, stack := .bool (valueEquals x y) :: st } =
        .inl { s with pc := d.code.length + 2, stack := .bool (valueEquals x y) :: st } := by
      rw [step_instr hjump]
      simp [stepInstr, hxy]
    refine .head hj (.single ?_)
    rw [step_instr hpop]
    simp [stepInstr]
  · rw [Bool.eq_false_iff.mpr hxy]

theorem codeSize_take (h : (emitFailJump d).code <+: final.code) (he : Emitted P c (emitFailJump d) n a) :
    codeSize P (final.code.take (d.code.length + 1)) = codeSize P c.code + n := by
  have htake := prefix_iff_eq_take.mp h
  rw [← he.size, htake]
  simp [emitFailJump]

theorem TestsRun.comparison (h : (emit .pop (emitFailJump (emit .eq d))).code <+: final.code)
    (he : Emitted P c d n a) (hnames : d.names = c.names) (hc : Named c)
    {s' : State W} (hr : Reaches (step P final) s s') (hk : Kept c.localCount s s')
    (hpc : s'.pc = d.code.length) (hst : s'.stack = y :: x :: s.stack) :
    TestsRun P final c (emit .pop (emitFailJump (emit .eq d))) s
      (if valueEquals x y then .matched (envOf s.locals c.names) else .failed (n + 1 + 3)) := by
  have hrun := hr.trans (comparison_run (P := P) h hpc hst)
  have hfetch := emitFailJump_fetch (emit_fetch h).1
  have hsize := codeSize_take (emit_fetch h).1 ((he.trans (emit_emitted .eq d)).trans (emitFailJump_emitted _))
  have hlen := he.length_le
  split_ifs with hxy
  · rw [if_pos hxy] at hrun
    refine ⟨_, hrun, by simp [emit, emitFailJump], rfl, ⟨hk.events, hk.world, hk.locals⟩, ?_⟩
    change envOf s'.locals d.names = _
    rw [hnames, hk.envOf hc]
  · rw [if_neg hxy] at hrun
    simp only [emit, length_append, length_singleton] at hfetch hsize
    exact ⟨_, hrun, rfl, ⟨hk.events, hk.world, hk.locals⟩, by simp [emit, emitFailJump],
      hlen.trans (Nat.le_succ _), by simp [emit, emitFailJump], hfetch.2, hsize⟩

theorem load_step (h : final.code[s.pc]? = some (.loadLocal slot)) :
    step P final s = .inl (s.push (s.locals slot)) := step_instr h

theorem compare_run {e : E} {c' : Emitter E S} (h : compileMatchValueCompare P slot e c = .ok c')
    (hpre : c'.code <+: final.code) (hpc : s.pc = c.code.length) (hc : Named c) :
    TestsRun P final c c' s (compareTrial P s.world e (s.locals slot) (envOf s.locals c.names)) := by
  obtain ⟨d, hd, rfl⟩ := compileMatchValueCompare_eq h
  have hd' := takeLocals_eq hd
  have hpre' := (emitFailJump_fetch (emit_fetch hpre).1).1
  obtain ⟨hdpre, hcomp⟩ := emit_fetch (emit_fetch hpre').1
  have hload : final.code[s.pc]? = some (.loadLocal slot) := by
    rw [hd'] at hdpre
    rw [hpc]
    exact (emit_fetch hdpre).2
  have hlen : d.code.length = s.pc + 1 := by simp [hd', emit, hpc]
  have hstep := load_step (P := P) hload
  have hcomp' : step P final (s.push (s.locals slot)) =
      stepInstr P final.targets (s.push (s.locals slot)) (.compared e c.names) :=
    step_instr (by rw [push, ← hlen]; exact hcomp)
  unfold compareTrial
  cases hu : P.patternValue e (envOf s.locals c.names) s.world with
  | error r =>
    refine ⟨.compared r, (ends_step_iff hstep).mpr (.here ?_)⟩
    rw [hcomp']
    simp [stepInstr, push, hu]
  | ok u =>
    have hr : Reaches (step P final) s ((s.push (s.locals slot)).push u) := by
      refine .head hstep (.single ?_)
      rw [hcomp']
      simp [stepInstr, push, hu]
    have he := ((emit_emitted (P := P) (.loadLocal slot) c).trans (takeLocals_emitted hd)).trans
      (emit_emitted (.compared e c.names) d)
    refine TestsRun.comparison hpre he (by rw [hd']; rfl) hc hr ⟨rfl, rfl, fun _ _ => rfl⟩ ?_ rfl
    simp [push, emit, hlen]

theorem load_fault {f : Fault R} (h : (emit get (emit (.loadLocal slot) c)).code <+: final.code)
    (hpc : s.pc = c.code.length) (hget : stepInstr P final.targets (s.push (s.locals slot)) get = .inr (.fault f)) :
    Ends (step P final) s (.fault f) := by
  obtain ⟨hpre, hgetAt⟩ := emit_fetch h
  obtain ⟨-, hload⟩ := emit_fetch hpre
  simp only [emit, length_append, length_singleton, ← hpc] at hgetAt hload
  exact (ends_step_iff (load_step hload)).mpr (.here ((step_instr hgetAt).trans hget))

theorem constantTest_fetch {k : Value} (h : (constantTest slot get k index c).code <+: final.code) :
    (emit get (emit (.loadLocal slot) c)).code <+: final.code ∧
      final.code[c.code.length + 2]? = some (.const k index) := by
  obtain ⟨hpre, -⟩ := emit_fetch h
  obtain ⟨hpre, -⟩ := emitFailJump_fetch hpre
  obtain ⟨hpre, -⟩ := emit_fetch hpre
  obtain ⟨hpre, hconst⟩ := emit_fetch hpre
  exact ⟨hpre, by simpa [emit] using hconst⟩

theorem constantTest_run {u k : Value} (h : (constantTest slot get k index c).code <+: final.code)
    (hpc : s.pc = c.code.length) (hc : Named c) (hget : stepInstr P final.targets (s.push (s.locals slot)) get =
      .inl { s with pc := s.pc + 2, stack := u :: s.stack }) :
    TestsRun P final c (constantTest slot get k index c) s (if valueEquals u k then .matched (envOf s.locals c.names)
        else .failed (2 + get.size P + constBytes index + 1 + 3)) := by
  obtain ⟨hpre, hconst⟩ := constantTest_fetch h
  obtain ⟨hpre, hgetAt⟩ := emit_fetch hpre
  obtain ⟨-, hload⟩ := emit_fetch hpre
  simp only [emit, length_append, length_singleton, ← hpc] at hconst hgetAt hload
  have hr : Reaches (step P final) s { s with pc := s.pc + 3, stack := k :: u :: s.stack } := by
    refine .head (load_step hload) (.head ((step_instr hgetAt).trans hget) (.single ?_))
    rw [step_instr hconst]
    rfl
  have he := ((emit_emitted (P := P) (.loadLocal slot) c).trans (emit_emitted get _)).trans
    (emit_emitted (.const k index) _)
  exact TestsRun.comparison h he rfl hc hr ⟨rfl, rfl, fun _ _ => rfl⟩ (by simp [emit, hpc]) rfl

theorem memberTests_run {m : Member} (hpre : (compileMemberTests slot m c).code <+: final.code)
    (hpc : s.pc = c.code.length) (hc : Named c) (hslot : slot < c.localCount) :
    TestsRun P final c (compileMemberTests slot m c) s
      (if valueEquals (.string (typeName P s.world (s.locals slot))) (.string "tuple") then
        match s.locals slot with
        | .tuple _ elements =>
          if valueEquals (element elements 0) (.int m.tag) then .matched (envOf s.locals c.names)
          else .failed (typeTestBytes m + 1 + tagTestBytes m)
        | _ => .stuck
      else .failed (typeTestBytes m)) := by
  rw [compileMemberTests_eq] at hpre ⊢
  have hload := (constantTest_fetch hpre).1
  have hfirst := constantTest_run (P := P) (u := .string (typeName P s.world (s.locals slot)))
    ((emit_fetch (emit_fetch hload).1).1) hpc hc rfl
  by_cases htype : valueEquals (.string (typeName P s.world (s.locals slot))) (.string "tuple") = true
  · rw [if_pos htype] at hfirst ⊢
    obtain ⟨s', hr, hpc', hst, hk, henv⟩ := hfirst
    have hv : s'.locals slot = s.locals slot := hk.locals slot hslot
    cases hval : s.locals slot with
    | tuple ref elements =>
      have hsecond := constantTest_run (P := P) hpre hpc' hc (u := element elements 0) (by
        simp only [stepInstr, push, hv, hval]
        rfl)
      have hh := TestsRun.after hr hst hk (constantTest_emitted .typeOf _ _ c) hsecond
      rw [henv] at hh
      by_cases htag : valueEquals (element elements 0) (.int m.tag) = true
      · rw [if_pos htag] at hh
        simp only [htag, if_true]
        exact hh
      · rw [if_neg htag] at hh
        simp only [htag]
        exact hh
    | _ =>
      refine ⟨.nonTuple, hr.ends_iff.mpr (load_fault hload hpc' ?_)⟩
      simp only [stepInstr, push, hv, hval]
  · rw [if_neg htype] at hfirst ⊢
    exact hfirst.extend_failed (constantTest_emitted (.tupleGet 0) _ _ _)

section Components

variable {final c : Emitter E S} {s : State W} {slot : Nat} {get : Instr E S} {i : Nat} {type : RecordType}
  {fieldNames : List String} {w : W} {elements : List Value}

def Fetches (P : Program W E S R) (w : W) (v : Value) (get : Instr E S) (u : Value) : Prop :=
  ∀ targets (s : State W) st, s.stack = v :: st → s.world = w →
    stepInstr P targets s get = .inl { s with pc := s.pc + 1, stack := u :: st }

theorem tupleElement_eq (h : tupleElement i = .ok get) : get = .tupleGet i := by
  unfold tupleElement at h
  split_ifs at h
  exact (Except.ok.inj h).symm

theorem recordField_eq (h : recordField type fieldNames i = .ok get) :
    ∃ index, (fieldNames[i]?).bind (resolveRecordFieldIndexFromType type) = some index ∧
      get = .recordGetField index := by
  unfold recordField at h
  split at h
  · cases h
  · split_ifs at h
    exact ⟨_, by assumption, (Except.ok.inj h).symm⟩

theorem tupleElement_fetches {ref : Nat}
    (h : tupleElement i = .ok get) : Fetches P w (.tuple ref elements) get (element elements i) := by
  obtain rfl := tupleElement_eq h
  intro targets s st hst _
  simp only [stepInstr, hst]
  rfl

theorem payloadElement_fetches {ref : Nat}
    (h : payloadElement i = .ok get) : Fetches P w (.tuple ref elements) get (element elements (i + 1)) := by
  cases h
  intro targets s st hst _
  simp only [stepInstr, hst]
  rfl

theorem recordField_fetches {ref : Nat} (h : recordField type fieldNames i = .ok get) :
    Fetches P w (.record ref) get (field type fieldNames (P.record w ref) i) := by
  obtain ⟨index, hi, rfl⟩ := recordField_eq h
  intro targets s st hst hw
  simp only [stepInstr, hst, field, hi, hw]
  rfl

theorem fetched_run {u : Value} (h : (fetched slot get c).code <+: final.code)
    (hpc : s.pc = c.code.length) (hget : Fetches P s.world (s.locals slot) get u) :
    Reaches (step P final) s (s.store (fetched slot get c).code.length c.localCount u) := by
  obtain ⟨hpre, hstore⟩ := emit_fetch h
  obtain ⟨hpre, hgetAt⟩ := emit_fetch hpre
  obtain ⟨-, hload⟩ := emit_fetch hpre
  simp only [emit, length_append, length_singleton, ← hpc] at hstore hgetAt hload
  have hg : step P final (s.push (s.locals slot)) = .inl { s with pc := s.pc + 2, stack := u :: s.stack } := by
    rw [step_instr hgetAt, hget final.targets (s.push (s.locals slot)) s.stack rfl rfl]
    rfl
  refine .head (load_step hload) (.head hg (.single ?_))
  rw [step_instr hstore]
  simp [stepInstr, store, fetched, emit, hpc]

theorem misfit_run {fetch : Nat → Except String (Instr E S)} {c' : Emitter E S} {f : Fault R}
    (ps : List (Pattern E)) (hfetch : TwoBytes P fetch) (h : compileComponents P fetch slot i ps c = .ok c')
    (hpre : c'.code <+: final.code) (hpc : s.pc = c.code.length)
    (hget : ∀ i get, fetch i = .ok get → stepInstr P final.targets (s.push (s.locals slot)) get = .inr (.fault f)) :
    TestsRun P final c c' s (if ps.isEmpty then .matched (envOf s.locals c.names) else .stuck) := by
  cases ps with
  | nil =>
    cases h
    exact ⟨s, .refl, hpc, rfl, .refl _ _, rfl⟩
  | cons p ps =>
    obtain ⟨get, d, hgeti, hp, hps⟩ := compileComponents_cons h
    have hfetched := (compilePattern_emitted p hp).code.trans ((compileComponents_emitted ps hfetch hps).code.trans hpre)
    exact ⟨f, load_fault (emit_fetch hfetched).1 hpc (hget i get hgeti)⟩

end Components

mutual

theorem compilePattern_run (p : Pattern E) {final c c' : Emitter E S} {s : State W} {slot : Nat} {allow : Bool}
    (h : compilePattern P p slot allow c = .ok c') (hpre : c'.code <+: final.code)
    (hpc : s.pc = c.code.length) (hslot : slot < c.localCount) (hc : Named c) :
    TestsRun P final c c' s (p.trial P s.world allow (s.locals slot) (envOf s.locals c.names)) := by
  cases p with
  | identifier name e =>
    simp only [compilePattern, Pattern.trial] at h ⊢
    by_cases hb : (allow && compilerMatchBindingNameLooksDestructure name) = true
    · rw [if_pos hb] at h ⊢
      by_cases hname : (name == "_") = true
      · rw [if_pos hname] at h ⊢
        cases h
        exact ⟨s, .refl, hpc, rfl, .refl _ _, rfl⟩
      · rw [if_neg hname] at h ⊢
        obtain ⟨d, hd, hh⟩ := ok_of_bind h
        rw [addLocal_eq hd] at hh
        cases hh
        obtain ⟨hpre, hstore⟩ := emit_fetch hpre
        obtain ⟨-, hload⟩ := emit_fetch hpre
        simp only [emit, length_append, length_singleton, ← hpc] at hstore hload
        have hs : step P final (s.push (s.locals slot)) =
            .inl (s.store (s.pc + 2) c.localCount (s.locals slot)) := by
          rw [step_instr hstore]
          rfl
        have hk := Kept.store s (s.pc + 2) c.localCount (s.locals slot)
        refine ⟨_, .head (load_step hload) (.single hs), by simp [store, emit, hpc], rfl, hk, ?_⟩
        simp only [emit, store, envOf, map_append, map_cons, map_nil, Function.update_self]
        exact congrArg (· ++ _) (hk.envOf hc)
    · rw [if_neg hb] at h ⊢
      exact compare_run h hpre hpc hc
  | value e => exact compare_run h hpre hpc hc
  | tuple ps =>
    simp only [Pattern.trial]
    cases hv : s.locals slot with
    | tuple ref elements =>
      exact compileComponents_run ps tupleElement_twoBytes h hpre hpc hslot hc
        fun i get hget => hv ▸ tupleElement_fetches hget
    | _ =>
      refine misfit_run (f := .nonTuple) ps tupleElement_twoBytes h hpre hpc fun i get hget => ?_
      obtain rfl := tupleElement_eq hget
      simp only [stepInstr, push, hv]
  | record type fieldNames ps =>
    simp only [Pattern.trial]
    cases hv : s.locals slot with
    | record ref =>
      exact compileComponents_run ps (recordField_twoBytes type fieldNames) h hpre hpc hslot hc
        fun i get hget => hv ▸ recordField_fetches hget
    | _ =>
      refine misfit_run (f := .nonRecord) ps (recordField_twoBytes type fieldNames) h hpre hpc fun i get hget => ?_
      obtain ⟨index, -, rfl⟩ := recordField_eq hget
      simp only [stepInstr, push, hv]
  | member m ps =>
    rw [compilePattern] at h
    obtain ⟨-, -, h⟩ := ok_of_bind h
    have heps := compileComponents_emitted ps payloadElement_twoBytes h
    have htests := memberTests_run (P := P) (heps.code.trans hpre) hpc hc hslot
    simp only [Pattern.trial]
    by_cases htype : valueEquals (.string (typeName P s.world (s.locals slot))) (.string "tuple") = true
    · rw [if_pos htype] at htests ⊢
      cases hv : s.locals slot with
      | tuple ref elements =>
        simp only [hv] at htests ⊢
        by_cases htag : valueEquals (element elements 0) (.int m.tag) = true
        · rw [if_pos htag] at htests ⊢
          obtain ⟨s', hr, hpc', hst, hk, henv⟩ := htests
          have hrest := compileComponents_run ps payloadElement_twoBytes h hpre hpc'
            (hslot.trans_le (memberTests_emitted (P := P) m c).localCount)
            ((memberTests_emitted (P := P) m c).named hc) (fun i get hget => by
              rw [hk.locals slot hslot, hv]
              exact payloadElement_fetches hget)
          rw [hk.world, henv] at hrest
          exact TestsRun.after hr hst hk (memberTests_emitted m c) hrest
        · rw [if_neg htag] at htests ⊢
          exact htests.extend_failed heps
      | _ =>
        simp only [hv] at htests ⊢
        exact htests
    · rw [if_neg htype] at htests ⊢
      exact htests.extend_failed heps

theorem compileComponents_run (ps : List (Pattern E)) {fetch : Nat → Except String (Instr E S)}
    (hfetch : TwoBytes P fetch) {final c c' : Emitter E S} {s : State W} {slot i : Nat} {get : Nat → Value}
    (h : compileComponents P fetch slot i ps c = .ok c') (hpre : c'.code <+: final.code)
    (hpc : s.pc = c.code.length) (hslot : slot < c.localCount) (hc : Named c)
    (hget : ∀ i instr, fetch i = .ok instr → Fetches P s.world (s.locals slot) instr (get i)) :
    TestsRun P final c c' s (trialAll P s.world get i ps (envOf s.locals c.names)) := by
  cases ps with
  | nil =>
    cases h
    exact ⟨s, .refl, hpc, rfl, .refl _ _, rfl⟩
  | cons p ps =>
    obtain ⟨instr, d, hinstr, hp, hps⟩ := compileComponents_cons h
    have hef : Emitted P c (fetched slot instr c) 6 false := fetched_emitted (hfetch i instr hinstr) c
    have hep := compilePattern_emitted p hp
    have heps := compileComponents_emitted ps hfetch hps
    have hrun := fetched_run (P := P) (hep.code.trans (heps.code.trans hpre)) hpc (hget i instr hinstr)
    have hk := Kept.store s (fetched slot instr c).code.length c.localCount (get i)
    have hhead := compilePattern_run p hp (heps.code.trans hpre)
      (s := s.store (fetched slot instr c).code.length c.localCount (get i)) rfl (Nat.lt_succ_self _)
      (fun k hk => (hc k hk).trans (Nat.lt_succ_self _))
    rw [show (fetched slot instr c).names = c.names from rfl, hk.envOf hc] at hhead
    simp only [store, Function.update_self] at hhead
    rw [trialAll]
    cases ht : p.trial P s.world true (get i) (envOf s.locals c.names) with
    | matched env =>
      rw [ht] at hhead
      obtain ⟨s', hr, hpc', hst, hk', henv⟩ := hhead
      have hkept := hk.trans hk' hef.localCount
      have hrest := compileComponents_run ps hfetch hps hpre hpc'
        (hslot.trans_le (hef.trans hep).localCount) ((hef.trans hep).named hc) (fun i instr hinstr => by
          rw [hkept.locals slot hslot, hkept.world]
          exact hget i instr hinstr)
      rw [hkept.world, henv] at hrest
      exact TestsRun.after (hrun.trans hr) hst hkept (hef.trans hep) hrest
    | failed n =>
      rw [ht] at hhead
      exact (TestsRun.after hrun rfl hk hef hhead).extend_failed heps
    | stuck =>
      rw [ht] at hhead
      exact TestsRun.after hrun rfl hk hef hhead

end

end Tablo.Match
