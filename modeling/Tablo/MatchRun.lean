import Tablo.MatchArms

/-! Running the arms in order. -/

namespace Tablo.Match

open Stepping List Event

variable {W E S R : Type} {P : Program W E S R}

def Result.events? : Result W R → Option (List Event)
  | .finished _ events _ | .left _ events _ | .raised _ events => some events
  | .fault _ => none

def Event.arm? : Event → Option Nat
  | .guard arm _ => some arm
  | .body arm _ => arm

def eventsOf : State W ⊕ Result W R → Option (List Event) := Sum.elim (fun s => some s.events) Result.events?

variable {s : State W} {events : List Event} {c : Emitter E S} {r : Result W R}

theorem stepBody_events (arm : Option Nat) (b : Body E S) (env : Env) (s : State W) :
    eventsOf (stepBody P arm b env s) = some (s.events ++ [.body arm env]) := by
  cases b with
  | statement st | value e =>
    simp only [stepBody]
    split <;> rfl

theorem jumpTo_events {t : Option Nat} (h : eventsOf (jumpTo s t : State W ⊕ Result W R) = some events) :
    s.events <+: events := by
  cases t <;> cases h
  exact prefix_rfl

theorem step_events (h : eventsOf (step P c s) = some events) : s.events <+: events := by
  unfold step at h
  split at h
  · cases h
    exact prefix_rfl
  · rename_i i _
    cases i with
    | body arm b names =>
      cases (stepBody_events ..).symm.trans h
      exact prefix_append _ _
    | guard arm e names =>
      simp only [stepInstr] at h
      split at h <;> cases h <;> exact prefix_append _ _
    | jump => exact jumpTo_events h
    | jumpIfFalse =>
      simp only [stepInstr] at h
      split at h
      · cases h
        exact prefix_rfl
      · exact jumpTo_events h
      · cases h
        exact prefix_rfl
    | loadLocal slot | constNil | const v index =>
      cases h
      exact prefix_rfl
    | _ =>
      simp only [stepInstr] at h
      split at h <;> cases h <;> exact prefix_rfl

theorem ends_events (h : Ends (step P c) s r) (hr : r.events? = some events) : s.events <+: events := by
  obtain ⟨n, hn⟩ := h
  induction n generalizing s with
  | zero => simp [run] at hn
  | succ n ih =>
    cases hs : step P c s with
    | inl s' =>
      simp only [run, hs] at hn
      exact (step_events (by rw [hs]; rfl)).trans (ih hn)
    | inr x =>
      simp only [run, hs, Option.some.injEq] at hn
      subst hn
      exact step_events (by rw [hs]; exact hr)

section Choice

variable {v : Value} {elseBody : Option (Body E S)} {stack unmatched : List Value}

theorem Choice.result_arm_events (i : Option Nat) (b : Body E S) (env : Env) (events : List Event) (w : W) :
    ((Choice.arm i b env events w : Choice W E S R).result P stack unmatched).events? =
      some (events ++ [.body i env]) := by
  cases b with
  | statement st | value e =>
    simp only [Choice.result]
    split <;> rfl

theorem firstArm_events (v : Value) (elseBody : Option (Body E S)) (stack unmatched : List Value) (i : Nat)
    (arms : List (Arm E S)) (events : List Event) (w : W) :
    ∃ more, ((firstArm P v elseBody i arms events w).result P stack unmatched).events? =
        some (events ++ more) ∧ ∀ x ∈ more, ∀ j, x.arm? = some j → i ≤ j := by
  induction arms generalizing i events w with
  | nil =>
    cases elseBody with
    | none => exact ⟨[], by simp [firstArm, Choice.result, Result.events?], by simp⟩
    | some b => exact ⟨[.body none []], Choice.result_arm_events _ _ _ _ _, by simp [arm?]⟩
  | cons a arms ih =>
    have hlater : ∀ (events : List Event) (w : W), ∃ more,
        ((firstArm P v elseBody (i + 1) arms events w).result P stack unmatched).events? =
          some (events ++ more) ∧ ∀ x ∈ more, ∀ j, x.arm? = some j → i ≤ j := by
      intro events w
      obtain ⟨more, heq, hmore⟩ := ih (i + 1) events w
      exact ⟨more, heq, fun x hx j hj => (Nat.le_succ i).trans (hmore x hx j hj)⟩
    simp only [firstArm]
    cases a.pattern.match? P w false v [] with
    | none => exact hlater events w
    | some env =>
      cases a.guard with
      | none => exact ⟨[.body (some i) env], Choice.result_arm_events _ _ _ _ _, by simp [arm?]⟩
      | some g =>
        simp only
        split
        · exact ⟨[.guard i env], rfl, by simp [arm?]⟩
        · refine ⟨[.guard i env, .body (some i) env], ?_, by simp [arm?]⟩
          rw [Choice.result_arm_events, append_assoc]
          rfl
        · rename_i w' _
          obtain ⟨more, heq, hmore⟩ := hlater (events ++ [.guard i env]) w'
          refine ⟨.guard i env :: more, by rw [heq, append_assoc]; rfl, fun x hx j hj => ?_⟩
          rcases mem_cons.mp hx with rfl | hx
          · simp only [arm?, Option.some.injEq] at hj
            omega
          · exact hmore x hx j hj
        · exact ⟨[.guard i env], rfl, by simp [arm?]⟩

theorem firstArm_ne_fault {i : Nat} {arms : List (Arm E S)} {w : W} {f : Fault R} :
    (firstArm P v elseBody i arms events w).result P stack unmatched ≠ .fault f := by
  obtain ⟨more, heq, -⟩ := firstArm_events (P := P) v elseBody stack unmatched i arms events w
  intro hh
  rw [hh] at heq
  cases heq

end Choice

section Body

variable {final c c' : Emitter E S} {s : State W} {r : Nat} {b : Body E S} {a : Option Nat}

def Body.isValue : Body E S → Bool
  | .statement _ => false
  | .value _ => true

def outStack (isExpr : Bool) (r : Nat) (s : State W) : List Value :=
  if isExpr then s.locals r :: s.stack else s.stack

theorem compileBody_run (h : compileBody P a r b c = .ok c') (hpre : c'.code <+: final.code)
    (hpc : s.pc = c.code.length) (unmatched : List Value) :
    if b.falls P (envOf s.locals c.names) s.world then ∃ s', Reaches (step P final) s s' ∧ s'.pc = c'.code.length ∧
        (Choice.arm a b (envOf s.locals c.names) s.events s.world).result P s.stack unmatched =
          .finished (outStack b.isValue r s') s'.events s'.world
    else Ends (step P final) s
      ((Choice.arm a b (envOf s.locals c.names) s.events s.world).result P s.stack unmatched) := by
  obtain ⟨d, hd, rfl⟩ := compileBody_eq h
  have hlen : d.code.length = s.pc := by rw [takeLocals_eq hd, hpc]
  cases b with
  | statement st =>
    have hbody := (emit_fetch hpre).2
    rw [hlen] at hbody
    have hstep := step_instr (P := P) hbody
    simp only [stepInstr, stepBody] at hstep
    cases hex : P.execStmt st (envOf s.locals c.names) s.world with
    | falls w =>
      simp only [Body.falls, hex]
      rw [hex] at hstep
      exact ⟨_, .single hstep, by simp [storeResult, emit, hlen], by simp [Choice.result, hex, outStack, Body.isValue]⟩
    | leaves w | raises e =>
      simp only [Body.falls, hex]
      refine .here ?_
      rw [hstep]
      simp [Choice.result, hex]
  | value e =>
    obtain ⟨hpre', hstore⟩ := emit_fetch hpre
    have hbody := (emit_fetch hpre').2
    rw [hlen] at hbody
    have hstep := step_instr (P := P) hbody
    simp only [stepInstr, stepBody] at hstep
    cases hex : P.exprValue e (envOf s.locals c.names) s.world with
    | ok vw =>
      obtain ⟨v, w⟩ := vw
      simp only [Body.falls, hex]
      rw [hex] at hstep
      have hstore' := step_instr (P := P) (s := { s.push v with
        events := s.events ++ [.body a (envOf s.locals c.names)]
        world := w }) (by simpa [emit, hlen, State.push] using hstore)
      refine ⟨_, .head hstep (.single hstore'), by simp [storeResult, emit, hlen, State.push], ?_⟩
      simp [Choice.result, hex, outStack, Body.isValue]
    | error e' =>
      simp only [Body.falls, hex]
      refine .here ?_
      rw [hstep]
      simp [Choice.result, hex]

end Body

structure Linked (P : Program W E S R) (final cElse : Emitter E S) : Prop where
  code : cElse.code <+: final.code
  other : ∀ k < cElse.code.length, k ∉ cElse.endJumps → final.targets k = cElse.targets k
  ends : ∀ k ∈ cElse.endJumps, final.targets k = patched P cElse k

def Finishes (P : Program W E S R) (final c : Emitter E S) (isExpr : Bool) (r : Nat) : Prop :=
  ∀ s : State W, s.pc = c.code.length → Ends (step P final) s (.finished (outStack isExpr r s) s.events s.world)

structure Rest (P : Program W E S R) (c cElse : Emitter E S) (bytes : Nat) : Prop where
  code : c.code <+: cElse.code
  size : codeSize P cElse.code = codeSize P c.code + bytes
  targets : ∀ k < c.code.length, cElse.targets k = c.targets k
  endJumps : ∀ k, k ∈ cElse.endJumps ↔ k ∈ c.endJumps ∨ k ∈ cElse.endJumps ∧ c.code.length ≤ k
  unpatched : ∀ k ∈ cElse.endJumps, k ∈ c.endJumps ∨ cElse.targets k = none

variable {final c₁ c₂ c₃ c₄ c' cElse : Emitter E S} {slot r i n : Nat} {a : Arm E S} {res : Result W R}

theorem rest_of_compiled {cEnd : Emitter E S} {arms : List (Arm E S)} {elseBody : Option (Body E S)}
    (harms : compileArms P slot r i arms c = .ok cEnd) (helse : compileElse P r elseBody cEnd = .ok cElse)
    (hc : Fresh c) : Rest P c cElse (armsBytes P arms + elseBytes P elseBody) := by
  have ha := compileArms_emitted harms hc
  have he : Emitted P cEnd cElse (elseBytes P elseBody) false := by
    cases elseBody with
    | none =>
      cases helse
      exact .refl _
    | some b => exact compileBody_emitted helse
  have hlen := ha.code.length_le
  obtain ⟨new, heq, hnew⟩ := ha.endJumps
  refine ⟨ha.code.trans he.code, ?_, ?_, ?_, ?_⟩
  · rw [he.size, ha.size, Nat.add_assoc]
  · intro k hk
    rw [he.targets k (by omega), ha.targets k hk]
  · intro k
    rw [he.endJumps, heq, mem_append]
    constructor
    · rintro (hk | hk)
      · exact .inl hk
      · exact .inr ⟨.inr hk, (hnew k hk).1⟩
    · rintro (hk | ⟨hk, -⟩)
      · exact .inl hk
      · exact hk
  · intro k hk
    rw [he.endJumps, heq, mem_append] at hk
    refine hk.imp_right fun hk => ?_
    obtain ⟨-, hhi, hnone⟩ := hnew k hk
    rw [he.targets k hhi, hnone]

theorem falls_not_terminates {b : Body E S} {env : Env} {w : W} (h : b.falls P env w = true) :
    armTerminates P b = false := by
  cases b with
  | value e => rfl
  | statement st =>
    rw [Bool.eq_false_iff]
    intro hterm
    simp only [Body.falls] at h
    split at h
    · rename_i w' hw
      exact P.terminates_leaves st env w w' hterm hw
    · cases h

variable (hp : ArmParts P slot r i a c c₁ c₂ c₃ c₄ c')

include hp

theorem ArmParts.prefixes : c₁.code <+: c₂.code ∧ c₂.code <+: c₃.code ∧ c₃.code <+: c₄.code ∧ c₄.code <+: c'.code :=
  ⟨(compileGuard_emitted hp.guard).code, (compileBody_emitted hp.body).code,
    by rw [hp.ending.code]; exact prefix_append _ _, by rw [hp.landing.code]; exact prefix_append _ _⟩

variable (hrest : Rest P c' cElse n) (hlink : Linked P final cElse)

include hrest hlink

theorem ArmParts.fail_iff (hprev : ∀ k ∈ c.endJumps, k < c.code.length)
    {k : Nat} (hk : k ∈ c₃.failJumps) (hlo : c.code.length ≤ k) (hhi : k < c₃.code.length)
    (hpc : s.pc = k) {st : List Value} (hst : s.stack = .bool false :: st)
    (hcode : final.code[k]? = some .jumpIfFalse) (hres : ∀ f, res ≠ .fault f) :
    Ends (step P final) s res ↔ codeSize P (c₄.code.drop (k + 1)) ≤ 32767 ∧
      Ends (step P final) { s with pc := c'.code.length, stack := st } res := by
  have hlen₃ := hp.prefixes.2.2.1.length_le
  rw [← hp.ending.failJumps] at hk
  have hcode' : c'.code = c₄.code ++ [.pop] := by rw [hp.landing.code, if_neg (ne_nil_of_mem hk)]
  have hlen' : c'.code.length = c₄.code.length + 1 := by simp [hcode']
  have hlenE := hrest.code.length_le
  have htarget : final.targets k = patched P c₄ k := by
    rw [hlink.other k (by omega), hrest.targets k (by omega), hp.landing.patches k hk]
    rw [hrest.endJumps, hp.endJumps]
    rintro (hmem | ⟨-, hge⟩)
    · rcases mem_append.mp hmem with hmem | hmem
      · have hlt := hprev k hmem
        omega
      · split_ifs at hmem
        · simp at hmem
        · have heq : k = c₃.code.length := by simpa using hmem
          omega
    · omega
  have hpop : final.code[c₄.code.length]? = some .pop := by
    obtain ⟨rest, hrest'⟩ := hrest.code.trans hlink.code
    rw [← hrest', hcode']
    simp
  have hstep : step P final s = jumpTo s (patched P c₄ k) := by
    rw [step_instr (by rw [hpc]; exact hcode)]
    simp only [stepInstr, hst, hpc, htarget]
  unfold patched at hstep
  split_ifs at hstep with hsize
  · have hpopStep : step P final { s with pc := c₄.code.length } =
        .inl { s with pc := c'.code.length, stack := st } := by
      rw [step_instr (by exact hpop)]
      simp only [stepInstr, hst, hlen']
    rw [ends_step_iff hstep, ends_step_iff hpopStep]
    exact ⟨fun hh => ⟨hsize, hh⟩, fun hh => hh.2⟩
  · refine ⟨fun hh => absurd (Ends.unique hh (.here hstep)) (hres _), fun hh => absurd hh.1 hsize⟩

theorem ArmParts.body_iff
    (hfinish : Finishes P final cElse a.body.isValue r) (hpc : s.pc = c₂.code.length) (unmatched : List Value) :
    Ends (step P final) s
        ((Choice.arm (some i) a.body (envOf s.locals c₂.names) s.events s.world).result P s.stack unmatched) ↔
      (a.body.falls P (envOf s.locals c₂.names) s.world = true → a.popBytes + n ≤ 32767) := by
  obtain ⟨-, -, hpre₃, hpre₄⟩ := hp.prefixes
  have hfinal := hrest.code.trans hlink.code
  have hrun := compileBody_run hp.body (hpre₃.trans (hpre₄.trans hfinal)) hpc unmatched
  by_cases hfalls : a.body.falls P (envOf s.locals c₂.names) s.world = true
  · rw [if_pos hfalls] at hrun
    obtain ⟨s', hr, hpc', hres⟩ := hrun
    have hterm := falls_not_terminates hfalls
    have hcode₄ : c₄.code = c₃.code ++ [.jump] := by simp [hp.ending.code, hterm]
    have hjump : final.code[c₃.code.length]? = some .jump := by
      obtain ⟨rest, heq⟩ := hpre₄.trans hfinal
      rw [← heq, hcode₄]
      simp
    have htarget : final.targets c₃.code.length = patched P cElse c₃.code.length := by
      refine hlink.ends _ ((hrest.endJumps _).mpr (.inl ?_))
      simp [hp.endJumps, hterm]
    have hdist : codeSize P (cElse.code.drop (c₃.code.length + 1)) = a.popBytes + n := by
      have htake : cElse.code.take (c₃.code.length + 1) = c₄.code := by
        have heq := prefix_iff_eq_take.mp (hpre₄.trans hrest.code)
        rw [heq, hcode₄]
        simp
      have htotal := codeSize_drop (P := P) cElse.code (c₃.code.length + 1)
      rw [htake, hrest.size, hp.pop] at htotal
      omega
    have hstep : step P final s' = jumpTo s' (patched P cElse c₃.code.length) := by
      rw [step_instr (by rw [hpc']; exact hjump)]
      simp only [stepInstr, hpc', htarget]
    rw [hr.ends_iff, hres]
    unfold patched at hstep
    rw [hdist] at hstep
    split_ifs at hstep with hsize
    · rw [ends_step_iff hstep]
      exact ⟨fun _ _ => hsize, fun _ => hfinish { s' with pc := cElse.code.length } rfl⟩
    · refine ⟨fun hh => ?_, fun hh => absurd (hh hfalls) hsize⟩
      have hbad := Ends.unique hh (.here hstep)
      cases hbad
  · rw [if_neg hfalls] at hrun
    exact ⟨fun _ hh => absurd hh hfalls, fun _ => hrun⟩

end Tablo.Match
