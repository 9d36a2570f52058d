import Tablo.MatchRun

/-! Compiled matches choose the right arm exactly when the arms tried are
clean. -/

namespace Tablo.Match

open Fallible Stepping List Function

variable {W E S R : Type} {P : Program W E S R}

section Arms

variable {final c c₁ c₂ c₃ c₄ c' cElse : Emitter E S} {s : State W} {slot r i n : Nat} {a : Arm E S}
  {elseBody : Option (Body E S)} {res : Result W R}

theorem Emitted.failJumps_mem {tests : Bool} (h : Emitted P c c' n tests) {k : Nat} (hk : k ∈ c.failJumps) :
    k ∈ c'.failJumps := by
  obtain ⟨new, heq, -⟩ := h.failJumps
  rw [heq]
  exact mem_append_left _ hk

section

variable (hp : ArmParts P slot r i a c c₁ c₂ c₃ c₄ c')

include hp

theorem ArmParts.drop_size (hfinal : c'.code <+: final.code)
    {k m : Nat} (hk : k < c₄.code.length) (htake : codeSize P (final.code.take (k + 1)) = m) :
    m + codeSize P (c₄.code.drop (k + 1)) = codeSize P c₄.code := by
  obtain ⟨-, -, -, hpre⟩ := hp.prefixes
  obtain ⟨rest, heq⟩ := hpre.trans hfinal
  rw [← heq, take_append_of_le_length (by omega)] at htake
  rw [← htake, codeSize_drop]

theorem ArmParts.failed_le (hfinal : c'.code <+: final.code)
    {k m : Nat} (hk : k < c₁.code.length) (htake : codeSize P (final.code.take (k + 1)) = codeSize P c.code + m) :
    m ≤ a.pattern.bytes P false := by
  obtain ⟨hpre₂, hpre₃, hpre₄, hpre'⟩ := hp.prefixes
  obtain ⟨rest, heq⟩ := hpre₂.trans (hpre₃.trans (hpre₄.trans (hpre'.trans hfinal)))
  rw [← heq, take_append_of_le_length (by omega)] at htake
  have htotal := codeSize_drop (P := P) c₁.code (k + 1)
  have hsize := (compilePattern_emitted a.pattern hp.pattern).size
  omega

end

theorem Kept.outStack {n : Nat} {s s' : State W} {isExpr : Bool} (hk : Kept n s s') (hst : s'.stack = s.stack)
    (hr : isExpr = true → r < n) : outStack isExpr r s' = outStack isExpr r s := by
  unfold Match.outStack
  split_ifs with hx
  · rw [hk.locals r (hr hx), hst]
  · exact hst

structure GuardCode (P : Program W E S R) (final c₁ c₂ c₃ c₄ : Emitter E S) (i : Nat) (a : Arm E S) (g : E) :
    Prop where
  guard : final.code[c₁.code.length]? = some (.guard i g c₁.names)
  jump : final.code[c₁.code.length + 1]? = some .jumpIfFalse
  pop : final.code[c₁.code.length + 2]? = some .pop
  length : c₂.code.length = c₁.code.length + 3
  names : c₂.names = c₁.names
  listed : c₁.code.length + 1 ∈ c₃.failJumps
  distance : codeSize P (c₄.code.drop (c₁.code.length + 2)) = 1 + a.tailBytes P

theorem ArmParts.guardCode (hp : ArmParts P slot r i a c c₁ c₂ c₃ c₄ c') (hfinal : c'.code <+: final.code)
    {g : E} (hg : a.guard = some g) : GuardCode P final c₁ c₂ c₃ c₄ i a g := by
  obtain ⟨hpre₂, hpre₃, hpre₄, hpre'⟩ := hp.prefixes
  have hguard := hp.guard
  rw [hg] at hguard
  obtain ⟨d, hd, rfl⟩ := compileGuard_some hguard
  have hlen : d.code.length = c₁.code.length := by rw [takeLocals_eq hd]
  obtain ⟨hpre, hpop⟩ := emit_fetch (hpre₃.trans (hpre₄.trans (hpre'.trans hfinal)))
  have htake := codeSize_take (P := P) hpre
    (((takeLocals_emitted hd).trans (emit_emitted (.guard i g c₁.names) d)).trans (emitFailJump_emitted _))
  obtain ⟨hpre, hjump⟩ := emitFailJump_fetch hpre
  obtain ⟨-, hguardAt⟩ := emit_fetch hpre
  simp only [emit, emitFailJump, length_append, hlen] at hpop hjump hguardAt htake
  have hlen₂ := hpre₃.length_le
  simp only [emit, emitFailJump, length_append, length_singleton] at hlen₂
  have hlen₄ := hpre₄.length_le
  refine ⟨hguardAt, hjump, hpop, by simp [emit, emitFailJump, hlen], by rw [takeLocals_eq hd]; rfl, ?_, ?_⟩
  · refine (compileBody_emitted hp.body).failJumps_mem ?_
    simp [emit, emitFailJump, hlen]
  · have hdrop : _ + codeSize P (c₄.code.drop (c₁.code.length + 2)) = _ :=
      hp.drop_size (k := c₁.code.length + 1) hfinal (by omega) htake
    have hsize := hp.size
    have hpat := (compilePattern_emitted a.pattern hp.pattern).size
    have hinstr : Instr.size P (.guard i g c₁.names) = P.exprSize g := rfl
    rw [hg, guardBytes] at hsize
    omega

def Later (P : Program W E S R) (final : Emitter E S) (slot r i : Nat) (isExpr : Bool)
    (elseBody : Option (Body E S)) (arms : List (Arm E S)) (c' : Emitter E S) : Prop :=
  ∀ s : State W, s.pc = c'.code.length → (Ends (step P final) s
        ((firstArm P (s.locals slot) elseBody (i + 1) arms s.events s.world).result P s.stack (outStack isExpr r s)) ↔
      Clean P (s.locals slot) elseBody arms s.world)

theorem ArmParts.guard_iff {arms : List (Arm E S)} (hp : ArmParts P slot r i a c c₁ c₂ c₃ c₄ c')
    (hrest : Rest P c' cElse (armsBytes P arms + elseBytes P elseBody)) (hlink : Linked P final cElse)
    (hprev : ∀ k ∈ c.endJumps, k < c.code.length) (hfinish : Finishes P final cElse a.body.isValue r)
    (hlater : Later P final slot r i a.body.isValue elseBody arms c')
    (hpc : s.pc = c₁.code.length) {g : E} (hg : a.guard = some g) {env : Env} (henv : envOf s.locals c₁.names = env) :
    Ends (step P final) s ((match P.exprValue g env s.world with
          | .error e => Choice.raised (.raised e) (s.events ++ [Event.guard i env])
          | .ok (.bool true, w) => .arm (some i) a.body env (s.events ++ [Event.guard i env]) w
          | .ok (.bool false, w) =>
            firstArm P (s.locals slot) elseBody (i + 1) arms (s.events ++ [Event.guard i env]) w
          | .ok _ => .raised .conditionNotBool (s.events ++ [Event.guard i env])).result
          P s.stack (outStack a.body.isValue r s)) ↔
      match P.exprValue g env s.world with
      | .ok (.bool true, w) => a.body.falls P env w = true →
          a.popBytes + armsBytes P arms + elseBytes P elseBody ≤ 32767
      | .ok (.bool false, w) => 1 + a.tailBytes P ≤ 32767 ∧ Clean P (s.locals slot) elseBody arms w
      | _ => True := by
  have hfinal := hrest.code.trans hlink.code
  have hcode := hp.guardCode hfinal hg
  have hguard := hcode.guard
  have hjump := hcode.jump
  have hpop := hcode.pop
  rw [← hpc] at hguard hjump hpop
  have hstep := step_instr (P := P) hguard
  simp only [stepInstr, henv] at hstep
  cases hval : P.exprValue g env s.world with
  | error e =>
    rw [hval] at hstep
    exact ⟨fun _ => trivial, fun _ => .here hstep⟩
  | ok vw =>
    obtain ⟨v, w⟩ := vw
    rw [hval] at hstep
    have hpushed : Reaches (step P final) s
        ⟨s.pc + 1, v :: s.stack, s.locals, s.events ++ [.guard i env], w⟩ := .single hstep
    have hjump' := step_instr (P := P) (s := ⟨s.pc + 1, v :: s.stack, s.locals, s.events ++ [.guard i env], w⟩) hjump
    rw [hpushed.ends_iff]
    cases v with
    | bool b =>
      cases b with
      | true =>
        have hpop' := step_instr (P := P)
          (s := ⟨s.pc + 2, .bool true :: s.stack, s.locals, s.events ++ [.guard i env], w⟩) hpop
        have hbody := hp.body_iff hrest hlink hfinish
          (s := ⟨s.pc + 3, s.stack, s.locals, s.events ++ [.guard i env], w⟩)
          (by rw [hcode.length, ← hpc]) (outStack a.body.isValue r s)
        have hreach : Reaches (step P final)
            ⟨s.pc + 1, .bool true :: s.stack, s.locals, s.events ++ [.guard i env], w⟩
            ⟨s.pc + 3, s.stack, s.locals, s.events ++ [.guard i env], w⟩ := .head hjump' (.single hpop')
        rw [hcode.names, henv, ← Nat.add_assoc] at hbody
        rw [hreach.ends_iff]
        exact hbody
      | false =>
        obtain ⟨-, hpre₃, -, -⟩ := hp.prefixes
        have hlen := hcode.length
        have hlen₁ := (compilePattern_emitted a.pattern hp.pattern).length_le
        have hlen₃ := hpre₃.length_le
        rw [hp.fail_iff hrest hlink hprev hcode.listed (by omega) (by omega) (by rw [← hpc]) rfl hcode.jump
          (fun f => firstArm_ne_fault), hcode.distance]
        exact and_congr_right fun _ =>
          hlater ⟨c'.code.length, s.stack, s.locals, s.events ++ [.guard i env], w⟩ rfl
    | _ => exact ⟨fun _ => trivial, fun _ => .here hjump'⟩

theorem heard_of_step {x : Event} {events : List Event} (hends : Ends (step P final) s res)
    (hres : res.events? = some events) (hstep : eventsOf (step P final s) = some (s.events ++ [x])) :
    s.events ++ [x] <+: events := by
  cases hs : step P final s with
  | inl s' =>
    rw [hs] at hstep
    exact Option.some_inj.mp hstep ▸ ends_events ((ends_step_iff hs).mp hends) hres
  | inr r =>
    obtain rfl := Ends.unique hends (.here hs)
    rw [hs] at hstep
    cases hstep.symm.trans hres
    exact prefix_rfl

theorem ArmParts.heard (hp : ArmParts P slot r i a c c₁ c₂ c₃ c₄ c') (hfinal : c'.code <+: final.code)
    (hpc : s.pc = c₁.code.length) {events : List Event} (hends : Ends (step P final) s res)
    (hres : res.events? = some events) : ∃ x : Event, x.arm? = some i ∧ s.events ++ [x] <+: events := by
  cases hg : a.guard with
  | some g =>
    have hguard := (hp.guardCode hfinal hg).guard
    rw [← hpc] at hguard
    refine ⟨.guard i (envOf s.locals c₁.names), rfl, heard_of_step hends hres ?_⟩
    rw [step_instr hguard]
    simp only [stepInstr]
    split <;> rfl
  | none =>
    have hguard := hp.guard
    rw [hg] at hguard
    cases hguard
    obtain ⟨-, -, hpre₄, hpre'⟩ := hp.prefixes
    obtain ⟨d, hd, hc₃⟩ := compileBody_eq hp.body
    have hpre : (emit (.body (some i) a.body c₁.names) d).code <+: c₃.code := by
      rw [hc₃]
      cases a.body with
      | statement st => exact prefix_rfl
      | value e => exact prefix_append _ _
    have hbody := (emit_fetch (hpre.trans (hpre₄.trans (hpre'.trans hfinal)))).2
    rw [takeLocals_eq hd, ← hpc] at hbody
    refine ⟨.body (some i) (envOf s.locals c₁.names), rfl, heard_of_step hends hres ?_⟩
    rw [step_instr hbody]
    exact stepBody_events ..

theorem ArmsEmitted.endJumps_lt (h : ArmsEmitted P c c' n) (hprev : ∀ k ∈ c.endJumps, k < c.code.length) :
    ∀ k ∈ c'.endJumps, k < c'.code.length := by
  obtain ⟨new, heq, hnew⟩ := h.endJumps
  intro k hk
  rw [heq] at hk
  rcases mem_append.mp hk with hk | hk
  · exact (hprev k hk).trans_le h.code.length_le
  · exact (hnew k hk).2.1

variable {cEnd : Emitter E S} {isExpr : Bool}

/-- From the first test of an arm, the code does what the match means exactly
if the arms from there on are clean. -/
theorem arms_ends_iff (hlink : Linked P final cElse) (hfinish : Finishes P final cElse isExpr r)
    (helseKind : ∀ b ∈ elseBody, b.isValue = isExpr) (arms : List (Arm E S))
    (hkind : ∀ a ∈ arms, a.body.isValue = isExpr) (harms : compileArms P slot r i arms c = .ok cEnd)
    (helse : compileElse P r elseBody cEnd = .ok cElse)
    (hc : Fresh c) (hprev : ∀ k ∈ c.endJumps, k < c.code.length)
    (hslot : slot < c.localCount) (hr : isExpr = true → r < c.localCount) (hpc : s.pc = c.code.length) :
    Ends (step P final) s
        ((firstArm P (s.locals slot) elseBody i arms s.events s.world).result P s.stack (outStack isExpr r s)) ↔
      Clean P (s.locals slot) elseBody arms s.world := by
  induction arms generalizing c s i with
  | nil =>
    cases harms
    simp only [Clean, iff_true]
    cases elseBody with
    | none =>
      cases helse
      exact hfinish s hpc
    | some b =>
      have hrun := compileBody_run helse hlink.code hpc (outStack isExpr r s)
      rw [hc.names] at hrun
      split_ifs at hrun with hfalls
      · obtain ⟨s', hreach, hpc', hres⟩ := hrun
        change Ends _ _ ((Choice.arm none b (envOf s.locals []) s.events s.world).result _ _ _)
        rw [hreach.ends_iff, hres, helseKind b rfl]
        exact hfinish s' hpc'
      · exact hrun
  | cons a arms ih =>
    obtain ⟨c', hc', harms⟩ := ok_of_bind harms
    obtain ⟨c₁, c₂, c₃, c₄, hp⟩ := compileArm_spec hc' hc
    have hrest := rest_of_compiled harms helse hp.emitted.fresh
    have hfinal := hrest.code.trans hlink.code
    obtain ⟨hpre₂, hpre₃, hpre₄, hpre'⟩ := hp.prefixes
    have hbodyKind := hkind a mem_cons_self
    subst hbodyKind
    have hlater : Later P final slot r i a.body.isValue elseBody arms c' := fun s hs =>
      ih (fun b hb => hkind b (mem_cons_of_mem _ hb)) harms hp.emitted.fresh
        (hp.emitted.endJumps_lt hprev) (hslot.trans_le hp.emitted.localCount)
        (fun hx => (hr hx).trans_le hp.emitted.localCount) hs
    have htests := compilePattern_run (P := P) a.pattern hp.pattern
      (hpre₂.trans (hpre₃.trans (hpre₄.trans (hpre'.trans hfinal)))) hpc hslot (by simp [Named, hc.names])
    rw [hc.names] at htests
    change TestsRun P final c c₁ s (a.pattern.trial P s.world false (s.locals slot) []) at htests
    have hne : ∀ f, (firstArm P (s.locals slot) elseBody i (a :: arms) s.events s.world).result P s.stack
        (outStack a.body.isValue r s) ≠ .fault f := fun f => firstArm_ne_fault
    simp only [firstArm, Clean] at hne ⊢
    have hmatch := a.pattern.trial_tells P s.world false (s.locals slot) []
    cases ht : a.pattern.trial P s.world false (s.locals slot) [] with
    | stuck =>
      rw [ht] at htests
      obtain ⟨f, hf⟩ := htests
      exact ⟨fun hh => absurd (Ends.unique hh hf) (hne f), False.elim⟩
    | failed n =>
      rw [ht] at htests
      rw [ht, Trial.Tells] at hmatch
      obtain ⟨s', hreach, hst, hkept, hmem, hlo, hhi, hjump, hsize⟩ := htests
      have hlen := hpre₂.length_le.trans hpre₃.length_le
      have hlen₄ := hpre₄.length_le
      have hdrop := hp.drop_size hfinal (by omega) hsize
      have hpat := hp.failed_le hfinal hhi hsize
      have htotal := hp.size
      have hland : Kept c.localCount s { s' with pc := c'.code.length, stack := s.stack } :=
        ⟨hkept.events, hkept.world, hkept.locals⟩
      have hgo := hlater { s' with pc := c'.code.length, stack := s.stack } rfl
      rw [hland.outStack rfl hr, hland.locals slot hslot, hland.events, hland.world] at hgo
      rw [hmatch, hreach.ends_iff,
        hp.fail_iff hrest hlink hprev
          ((compileBody_emitted hp.body).failJumps_mem ((compileGuard_emitted hp.guard).failJumps_mem hmem)) hlo
          (by omega) rfl hst hjump
          (fun f => firstArm_ne_fault), hkept.events, hkept.world]
      exact and_congr (by omega) hgo
    | matched env =>
      rw [ht] at htests
      rw [ht, Trial.Tells] at hmatch
      obtain ⟨s', hreach, hpc', hst, hkept, henv⟩ := htests
      by_cases hshape : a.pattern.shaped P s.world (s.locals slot) = true
      · rw [hmatch, hreach.ends_iff]
        simp only [hshape, true_and]
        have hout := hkept.outStack hst hr
        cases hg : a.guard with
        | none =>
          have hguard := hp.guard
          rw [hg] at hguard
          cases hguard
          have hbody := hp.body_iff hrest hlink hfinish hpc' (outStack a.body.isValue r s)
          rw [henv, hkept.events, hkept.world, hst, ← Nat.add_assoc] at hbody
          exact hbody
        | some g =>
          have hguard := hp.guard_iff hrest hlink hprev hfinish hlater hpc' hg henv
          rw [hkept.events, hkept.world, hst, hkept.locals slot hslot, hout] at hguard
          exact hguard
      · rw [if_neg hshape] at hmatch
        rw [hmatch, hreach.ends_iff]
        refine ⟨fun hh => ?_, fun hh => absurd hh.1 hshape⟩
        -- the code hears of arm `i`, the match only of later ones
        obtain ⟨more, hmore, hlate⟩ := firstArm_events (P := P) (s.locals slot) elseBody s.stack
          (outStack a.body.isValue r s) (i + 1) arms s.events s.world
        obtain ⟨x, hx, hstarts⟩ := hp.heard hfinal hpc' hh hmore
        rw [hkept.events, prefix_append_right_inj] at hstarts
        have hle := hlate x (hstarts.subset (by simp)) i hx
        omega

end Arms

inductive Source (E S : Type) where
  | statement (subject : E) (arms : List (Pattern E × Option E × S)) (elseBranch : Option S)
  | expression (subject : E) (arms : List (Pattern E × Option E × E)) (elseExpr : Option E)

def Source.subject : Source E S → E
  | .statement subject _ _ | .expression subject _ _ => subject

def Source.arms : Source E S → List (Arm E S)
  | .statement _ arms _ => arms.map fun a => ⟨a.1, a.2.1, .statement a.2.2⟩
  | .expression _ arms _ => arms.map fun a => ⟨a.1, a.2.1, .value a.2.2⟩

def Source.elseBody : Source E S → Option (Body E S)
  | .statement _ _ elseBranch => elseBranch.map .statement
  | .expression _ _ elseExpr => elseExpr.map .value

def Source.unmatched (stack : List Value) : Source E S → List Value
  | .statement _ _ _ => stack
  | .expression _ _ _ => .nil :: stack

variable (P)

def Source.compile (n : Nat) : Source E S → Except String (Emitter E S)
  | .statement subject arms elseBranch => compileMatch P n subject arms elseBranch
  | .expression subject arms elseExpr => compileMatchExpression P n subject arms elseExpr

def Source.meaning (m : Source E S) (stack : List Value) (w : W) : Result W R :=
  match P.exprValue m.subject [] w with
  | .error e => .raised (.raised e) []
  | .ok (v, w) => (firstArm P v m.elseBody 0 m.arms [] w).result P stack (m.unmatched stack)

def Source.CleanFrom (m : Source E S) (w : W) : Prop :=
  ∀ v w', P.exprValue m.subject [] w = .ok (v, w') → Clean P v m.elseBody m.arms w'

variable {P}

/-- A match in a function with `localCount` locals, and its code. -/
structure CompiledMatch (P : Program W E S R) where
  source : Source E S
  localCount : Nat
  code : Emitter E S
  compiled : source.compile P localCount = .ok code

variable {c d : Emitter E S} {s : State W} {r : Nat} {subject : E} {arms : List (Arm E S)}
  {elseBody : Option (Body E S)}

section

variable (h : compileDispatch P r subject arms elseBody c = .ok d)
include h

theorem compileDispatch_parts :
    ∃ c₀ c₁ cEnd cElse, takeLocals (P.exprLocals subject) c = .ok c₀ ∧
      takeLocals 1 (emit (.subject subject) c₀) = .ok c₁ ∧
      compileArms P c₀.localCount r 0 arms (emit (.storeLocal c₀.localCount) c₁) = .ok cEnd ∧
      compileElse P r elseBody cEnd = .ok cElse ∧ d = cElse.endJumps.foldl (patchJump P) cElse := by
  obtain ⟨c₀, h₀, h⟩ := ok_of_bind h
  obtain ⟨c₁, h₁, h⟩ := ok_of_bind h
  obtain ⟨cEnd, hEnd, h⟩ := ok_of_bind h
  obtain ⟨cElse, hElse, h⟩ := ok_of_bind h
  exact ⟨c₀, c₁, cEnd, cElse, h₀, h₁, hEnd, hElse, (Except.ok.inj h).symm⟩

theorem dispatch_code (hc : Fresh c) : c.code <+: d.code := by
  obtain ⟨c₀, c₁, cEnd, cElse, h₀, h₁, hEnd, hElse, rfl⟩ := compileDispatch_parts h
  obtain ⟨targets, hpatch, -⟩ := patchJumps_eq P cElse.endJumps cElse
  rw [takeLocals_eq h₁, takeLocals_eq h₀] at hEnd
  have hrest := rest_of_compiled hEnd hElse ⟨hc.names, hc.failJumps⟩
  rw [hpatch]
  exact (prefix_append _ _).trans ((prefix_append _ _).trans hrest.code)

theorem dispatch_ends_iff (final : Emitter E S) (isExpr : Bool) (hc : Fresh c) (hend : c.endJumps = [])
    (hcode : d.code <+: final.code) (htargets : final.targets = d.targets)
    (hfinish : Finishes P final d isExpr r)
    (helseKind : ∀ b ∈ elseBody, b.isValue = isExpr) (hkind : ∀ a ∈ arms, a.body.isValue = isExpr)
    (hr : isExpr = true → r < c.localCount) (hpc : s.pc = c.code.length) :
    Ends (step P final) s (match P.exprValue subject [] s.world with
        | .error e => .raised (.raised e) s.events
        | .ok (v, w) => (firstArm P v elseBody 0 arms s.events w).result P s.stack (outStack isExpr r s)) ↔
      ∀ v w, P.exprValue subject [] s.world = .ok (v, w) → Clean P v elseBody arms w := by
  obtain ⟨c₀, c₁, cEnd, cElse, h₀, h₁, hEnd, hElse, rfl⟩ := compileDispatch_parts h
  obtain ⟨targets, hpatch, hother, hpatched⟩ := patchJumps_eq P cElse.endJumps cElse
  rw [hpatch] at hcode htargets hfinish
  have h₀' := takeLocals_eq h₀
  have h₁' := takeLocals_eq h₁
  obtain ⟨c₂, hc₂⟩ : ∃ c₂, emit (.storeLocal c₀.localCount) c₁ = c₂ := ⟨_, rfl⟩
  rw [hc₂] at hEnd
  have hfresh : Fresh c₂ := by rw [← hc₂, h₁', h₀']; exact ⟨hc.names, hc.failJumps⟩
  have hend₂ : c₂.endJumps = [] := by rw [← hc₂, h₁', h₀']; exact hend
  have hrest := rest_of_compiled hEnd hElse hfresh
  have hlink : Linked P final cElse := by
    refine ⟨hcode, fun k _ hk => by rw [htargets]; exact hother k hk, fun k hk => ?_⟩
    rw [htargets]
    refine hpatched k hk (.inl ((hrest.unpatched k hk).resolve_left ?_))
    simp [hend₂]
  have hpre₂ : (emit (.storeLocal c₀.localCount) c₁).code <+: final.code := by
    rw [hc₂]
    exact hrest.code.trans hcode
  obtain ⟨hpre₁, hstore⟩ := emit_fetch hpre₂
  rw [h₁'] at hpre₁ hstore
  obtain ⟨-, hsubject⟩ := emit_fetch hpre₁
  have hlen₀ : c₀.code.length = s.pc := by rw [h₀', hpc]
  simp only [emit, length_append, hlen₀] at hstore hsubject
  have hstep := step_instr (P := P) hsubject
  simp only [stepInstr] at hstep
  cases hval : P.exprValue subject [] s.world with
  | error e =>
    rw [hval] at hstep
    exact ⟨fun _ v w hv => (by simp at hv), fun _ => .here hstep⟩
  | ok vw =>
    obtain ⟨v, w⟩ := vw
    rw [hval] at hstep
    have hstore' := step_instr (P := P) (s := ⟨s.pc + 1, v :: s.stack, s.locals, s.events, w⟩) hstore
    have hreach : Reaches (step P final) s
        ⟨s.pc + 2, s.stack, update s.locals c₀.localCount v, s.events, w⟩ :=
      .head hstep (.single hstore')
    have hlocals₂ : c₂.localCount = c₀.localCount + 1 := by rw [← hc₂, h₁']; rfl
    have hlocals₀ : c.localCount ≤ c₀.localCount := by rw [h₀']; exact Nat.le_add_right _ _
    have hiff := arms_ends_iff hlink hfinish helseKind arms hkind
      (s := ⟨s.pc + 2, s.stack, update s.locals c₀.localCount v, s.events, w⟩) hEnd hElse hfresh
      (by simp [hend₂]) (by omega) (fun hx => by have hh := hr hx; omega)
      (by simp [← hc₂, h₁', emit, hlen₀])
    have hout : outStack isExpr r ⟨s.pc + 2, s.stack, update s.locals c₀.localCount v, s.events, w⟩ =
        outStack isExpr r s := by
      unfold outStack
      split_ifs with hx
      · have hlt := hr hx
        exact congrArg (· :: s.stack) (update_of_ne (by omega) _ _)
      · rfl
    rw [hout] at hiff
    simp only [update_self] at hiff
    rw [hreach.ends_iff]
    exact hiff.trans ⟨fun hh v' w' hv => by cases hv; exact hh, fun hh => hh v w rfl⟩

end

def literals : Program Unit Value Unit Unit where
  record _ _ := ⟨"", []⟩
  patternValue v _ _ := .ok v
  exprValue v _ w := .ok (v, w)
  execStmt _ _ w := .falls w
  exprSize _ := 2
  exprLocals _ := 0
  stmtSize _ := 0
  stmtLocals _ := 0
  terminates _ := false
  terminates_leaves _ _ _ _ h := nomatch h

def nilAgainstPair : Source Value Unit :=
  .statement .nil [(.tuple [.value (.int 1), .value (.int 2)], none, ())] (some ())

end Tablo.Match
