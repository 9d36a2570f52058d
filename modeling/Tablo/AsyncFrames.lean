import Tablo.AsyncMoves

/-! A task runs on top of what it interrupted. The values and the frames below
its own stay as they are until its frame is gone. -/

namespace Tablo.Async

open List Instruction

/-- The frames of a task from the top down: calls it has made, and at the
bottom the frame of the task, whose slots start at `base`. -/
def Layers (base : Nat) : List CallFrame → Prop
  | [] => False
  | [root] => root.slotsStart = base ∧ root.isAsyncRoot = true
  | fr :: below :: rest => base ≤ fr.slotsStart ∧ Layers base (below :: rest)

def SameFrame (fr fr' : CallFrame) : Prop :=
  fr.slotsStart = fr'.slotsStart ∧ fr.isAsyncRoot = fr'.isAsyncRoot

/-- A task runs on top of the values `S` and the frames `F`. -/
structure Upon (S : List Value) (F : List CallFrame) (vm : VM) : Prop where
  stack : S <+: vm.stack
  layers : ∃ top rest, vm.frames = top :: rest ++ F ∧ Layers S.length (top :: rest) ∧ SameFrame top vm.frame

structure Left (S : List Value) (F : List CallFrame) (vm : VM) : Prop where
  stack : vm.stack = S
  frames : vm.frames = F
  frame : ∀ top rest, F = top :: rest → vm.frame = top

variable {S : List Value} {F : List CallFrame} {vm vm' : VM} {base : Nat} {rest : List CallFrame} {fr top : CallFrame}
  {stack : List Value}

theorem Layers.le (h : Layers base (top :: rest)) : base ≤ top.slotsStart := by
  cases rest with
  | nil => exact Nat.le_of_eq h.1.symm
  | cons below rest => exact h.1

theorem Layers.congr {top' : CallFrame} (h : Layers base (top :: rest))
    (hs : SameFrame top top') : Layers base (top' :: rest) := by
  cases rest with
  | nil => exact ⟨hs.1 ▸ h.1, hs.2 ▸ h.2⟩
  | cons below rest => exact ⟨hs.1 ▸ h.1, h.2⟩

theorem Layers.cons (h : Layers base (top :: rest))
    (hb : base ≤ fr.slotsStart) : Layers base (fr :: top :: rest) :=
  ⟨hb, h⟩

section

variable (h : Upon S F vm)

include h

theorem Upon.le : S.length ≤ vm.frame.slotsStart := by
  obtain ⟨top, rest, _, hl, hs⟩ := h.layers
  exact hs.1 ▸ hl.le

theorem Upon.frames_ne : vm.frames ≠ [] := by
  obtain ⟨top, rest, hf, _⟩ := h.layers
  simp [hf]

theorem Upon.with_stack (hs : S <+: vm'.stack) (hf : vm'.frames = vm.frames)
    (hr : SameFrame vm.frame vm'.frame) : Upon S F vm' := by
  obtain ⟨top, rest, hframes, hl, hsame⟩ := h.layers
  exact ⟨hs, top, rest, hf.trans hframes, hl, hsame.1.trans hr.1, hsame.2.trans hr.2⟩

theorem Upon.saveFrame : Upon S F (saveFrame vm) := by
  obtain ⟨top, rest, hframes, hl, hsame⟩ := h.layers
  have hsave : Async.saveFrame vm = { vm with frames := vm.frame :: rest ++ F } := by
    rw [Async.saveFrame, hframes]
    rfl
  rw [hsave]
  exact ⟨h.stack, vm.frame, rest, rfl, hl.congr hsame, rfl, rfl⟩

theorem Upon.vmRuntimeError (cfg : Config) (m : String) : Upon S F (vmRuntimeError cfg vm m) :=
  h.with_stack h.stack rfl ⟨rfl, rfl⟩

theorem Upon.cut {n : Nat} (hn : S.length ≤ n) (values : List Value) : S <+: vm.stack.take n ++ values :=
  (prefix_take_iff.mpr ⟨h.stack, hn⟩).trans (prefix_append _ _)

theorem Upon.push_frame (hs : S <+: stack) (hb : S.length ≤ fr.slotsStart) :
    Upon S F { vm with stack, frames := fr :: vm.frames, frame := fr } := by
  obtain ⟨top, rest, hframes, hl, _⟩ := h.layers
  exact ⟨hs, fr, top :: rest, by simp [hframes], hl.cons hb, rfl, rfl⟩

end

theorem Upon.pop (h : Upon S F vm) (hs : vm'.stack = vm.stack.take vm.frame.slotsStart)
    (hf : vm'.frames = vm.frames.tail) : Upon S F (reload vm') ∨ vm.frame.isAsyncRoot = true ∧ Left S F (reload vm') := by
  obtain ⟨top, rest, hframes, hl, hsame⟩ := h.layers
  rw [hframes] at hf
  cases rest with
  | nil =>
    have hstack : vm'.stack = S := by
      rw [hs, ← hsame.1, hl.1]
      exact (prefix_iff_eq_take.mp h.stack).symm
    refine .inr ⟨hsame.2 ▸ hl.2, ?_⟩
    cases hF : F with
    | nil =>
      have hnil : vm'.frames = [] := by simpa [hF] using hf
      have hload : reload vm' = vm' := by rw [reload, hnil]
      rw [hload]
      exact ⟨hstack, hnil, by rintro _ _ ⟨⟩⟩
    | cons fr frs =>
      have hcons : vm'.frames = fr :: frs := by simpa [hF] using hf
      have hload : reload vm' = { vm' with frame := fr } := by rw [reload, hcons]
      rw [hload]
      exact ⟨hstack, hcons, fun top rest h => (List.cons.inj h).1⟩
  | cons below rest =>
    have hcons : vm'.frames = below :: rest ++ F := by simpa using hf
    have hload : reload vm' = { vm' with frame := below } := by
      rw [reload, hcons]
      rfl
    rw [hload]
    refine .inl ⟨?_, below, rest, hcons, hl.2, rfl, rfl⟩
    rw [hs]
    exact prefix_take_iff.mpr ⟨h.stack, h.le⟩

theorem prefix_set (h : S <+: stack) {i : Nat} (hi : S.length ≤ i) (v : Value) :
    S <+: stack.set i v := by
  obtain ⟨own, rfl⟩ := h
  rw [set_append_right _ _ hi]
  exact prefix_append _ _

theorem prefix_dropLast (h : S <+: stack) (hi : S.length < stack.length) :
    S <+: stack.dropLast := by
  rw [dropLast_eq_take]
  exact prefix_take_iff.mpr ⟨h, by omega⟩

theorem prefix_bindCaptures {first bound : Nat} {captures : List (Nat × Value)} {stack' : List Value}
    (h : S <+: stack) (hb : S.length ≤ base) (hc : bindCaptures first bound base captures stack = some stack') :
    S <+: stack' := by
  induction captures generalizing stack with
  | nil => exact Option.some.inj hc ▸ h
  | cons capture captures ih =>
    obtain ⟨slot, v⟩ := capture
    rw [bindCaptures] at hc
    split at hc
    · exact ih (prefix_set h (by omega) v) hc
    · exact nomatch hc

variable (cfg : Config)

def Keeps (S : List Value) (F : List CallFrame) (r : LoopResult) : Prop :=
  ∀ vm', r = .running vm' → Upon S F vm' ∨ vm'.error = none ∧ Left S F vm'

theorem keeps_running (h : Upon S F vm) : Keeps S F (.running vm) := by
  intro vm' he
  exact .inl (LoopResult.running.inj he ▸ h)

theorem keeps_failed (vm : VM) : Keeps S F (.failed vm) := fun _ he => nomatch he

theorem keeps_returned (vm : VM) : Keeps S F (.returned vm) := fun _ he => nomatch he

theorem Upon.keeps_pop (h : Upon S F vm) (hs : vm'.stack = vm.stack.take vm.frame.slotsStart)
    (hf : vm'.frames = vm.frames.tail) (he : vm'.error = none) : Keeps S F (.running (reload vm')) := by
  intro vm'' heq
  obtain rfl := LoopResult.running.inj heq
  refine (h.pop hs hf).imp id fun hl => ⟨?_, hl.2⟩
  rw [reload]
  split <;> exact he

theorem Upon.vmFinishAsyncPanicFrame (h : Upon S F vm) : Keeps S F (vmFinishAsyncPanicFrame cfg vm) := by
  rw [Async.vmFinishAsyncPanicFrame]
  split
  · exact keeps_failed _
  · dsimp only
    split
    next => exact keeps_failed _
    next => exact h.keeps_pop rfl rfl rfl

theorem startPanic_same (fr : CallFrame) (error : Option String) : SameFrame fr (startPanic fr error) := by
  rw [startPanic.eq_def]
  split <;> exact ⟨rfl, rfl⟩

theorem Upon.vmHandleAsyncFrameError (h : Upon S F vm) : Keeps S F (vmHandleAsyncFrameError cfg vm) := by
  rw [Async.vmHandleAsyncFrameError]
  split
  · exact keeps_failed _
  · have hpanic : Upon S F { vm with frame := startPanic vm.frame vm.error, error := none } :=
      h.with_stack h.stack rfl (startPanic_same _ _)
    dsimp only
    split
    · split
      · exact keeps_failed _
      · refine keeps_running (saveFrame ?_)
        refine hpanic.with_stack (prefix_set h.stack ?_ _) rfl ⟨rfl, rfl⟩
        have hle := hpanic.le
        dsimp only at hle
        omega
    · exact hpanic.vmFinishAsyncPanicFrame cfg

theorem Upon.handleError (h : Upon S F vm) : Keeps S F (handleError cfg vm) := by
  rw [Async.handleError]
  split
  · exact h.vmHandleAsyncFrameError cfg
  · exact keeps_failed _

theorem Keeps.checkError {r : LoopResult} (h : Keeps S F r) : Keeps S F (checkError cfg r) := by
  cases r with
  | running vm =>
    rw [Async.checkError]
    split
    next he =>
      rcases h vm rfl with h | ⟨hnone, _⟩
      · exact h.handleError cfg
      · simp [hnone] at he
    next => exact h
  | returned vm | failed vm => exact h

theorem Upon.push (h : Upon S F vm) (v : Value) : Upon S F (push cfg vm v) := by
  rw [Async.push]
  split
  · exact h.vmRuntimeError cfg _
  · exact h.with_stack (h.stack.trans (prefix_append _ _)) rfl ⟨rfl, rfl⟩

theorem Upon.pushNilCount (h : Upon S F vm) (n : Nat) : Upon S F (pushNilCount cfg vm n) := by
  rw [Async.pushNilCount]
  split
  · exact h.vmRuntimeError cfg _
  · exact h.with_stack (h.stack.trans (prefix_append _ _)) rfl ⟨rfl, rfl⟩

def HasRoom (cfg : Config) (vm : VM) : Prop :=
  vm.frame.slotsStart < vm.stack.length ∨ vm.stack.length < cfg.maxStackSize

section

variable (h : Upon S F vm)

include h

theorem Upon.invokeNullary (hr : HasRoom cfg vm) (v : Value) : Upon S F (invokeNullary cfg vm v) := by
  have hle := h.le
  have hlen := h.stack.length_le
  have hup := h.pushNilCount cfg 1
  rw [Async.invokeNullary]
  refine hup.with_stack (prefix_set hup.stack ?_ v) rfl ⟨rfl, rfl⟩
  rw [Async.pushNilCount]
  split
  next hfull =>
    have hstack : (Async.vmRuntimeError cfg vm "Stack overflow").stack.length = vm.stack.length := rfl
    rcases hr with hr | hr <;> omega
  next =>
    simp only [length_append, length_replicate]
    omega

theorem Upon.advance (n : Int) : Upon S F (vm.advance n) :=
  h.with_stack h.stack rfl ⟨rfl, rfl⟩

theorem Upon.vmSpawnAsyncCall {pos : Nat} (hp : S.length ≤ pos) (fn : ObjFunction)
    (args : List Value) : Keeps S F (vmSpawnAsyncCall cfg vm fn pos args) := by
  rw [Async.vmSpawnAsyncCall]
  split
  · exact keeps_failed _
  · dsimp only
    split
    next => exact keeps_failed _
    next =>
      split
      · exact keeps_failed _
      · exact keeps_running (h.with_stack (h.cut hp _) rfl ⟨rfl, rfl⟩)

theorem Upon.enterFunction {base : Nat} (hb : S.length ≤ base) (fn : ObjFunction)
    (args : List Value) : Keeps S F (enterFunction cfg vm fn base args) := by
  have hargs : Upon S F { vm with stack := vm.stack.take base ++ args } :=
    h.with_stack (h.cut hb args) rfl ⟨rfl, rfl⟩
  have hnils := hargs.saveFrame.pushNilCount cfg (fn.localCount - args.length)
  rw [Async.enterFunction]
  dsimp only
  split
  next => exact keeps_failed _
  next stack hc => exact keeps_running (hnils.push_frame (prefix_bindCaptures hnils.stack hb hc) hb)

theorem Upon.opCall {argCount : Nat} {calleeOnStack : Bool}
    (ho : vm.frame.slotsStart + (argCount + calleeOnStack.toNat) ≤ vm.stack.length) (fn : ObjFunction) :
    Keeps S F (opCall cfg vm fn argCount calleeOnStack) := by
  have hle := h.le
  have hpos : S.length ≤ vm.stack.length - argCount - calleeOnStack.toNat := by omega
  rw [Async.opCall]
  split_ifs
  · exact keeps_failed _
  · exact keeps_failed _
  · exact keeps_failed _
  · exact h.vmSpawnAsyncCall cfg hpos fn _
  · exact h.enterFunction cfg hpos fn _

theorem Upon.opAwait (he : vm.error = none) : Keeps S F (opAwait cfg vm) := by
  have hle := h.le
  rw [Async.opAwait]
  split_ifs with hunder hroot
  · exact keeps_failed _
  · exact keeps_failed _
  · have hpop : Upon S F { vm with stack := vm.stack.dropLast } :=
      h.with_stack (prefix_dropLast h.stack (by omega)) rfl ⟨rfl, rfl⟩
    dsimp only
    split
    next f _ =>
      split
      next => exact keeps_running (hpop.push cfg _)
      next => exact keeps_running (hpop.vmRuntimeError cfg _)
      next => exact hpop.keeps_pop rfl rfl he
      next => exact keeps_failed _
    next => exact keeps_failed _

theorem Upon.opRet (he : vm.error = none) (ho : vm.frame.slotsStart + 1 ≤ vm.stack.length) :
    Keeps S F (opRet cfg vm) := by
  have hle := h.le
  have hpop : Upon S F { vm with stack := vm.stack.dropLast } :=
    h.with_stack (prefix_dropLast h.stack (by omega)) rfl ⟨rfl, rfl⟩
  rw [Async.opRet]
  split
  next => exact keeps_failed _
  next result _ =>
    split
    · exact hpop.vmFinishAsyncPanicFrame cfg
    · dsimp only
      split
      · split
        next => exact keeps_failed _
        next => exact hpop.keeps_pop rfl rfl he
      next hroot =>
        split
        · exact keeps_returned _
        · rcases @pop S F { vm with stack := vm.stack.dropLast } { vm with
            stack := vm.stack.dropLast.take vm.frame.slotsStart, frames := vm.frames.tail } hpop rfl rfl with hu | hl
          · exact keeps_running (hu.push cfg result)
          · exact absurd hl.1 hroot

end

def Instruction.isNullary : Instruction → Bool
  | .nullary _ => true
  | .futurePending => true
  | _ => false

theorem Upon.execute (h : Upon S F vm) (he : vm.error = none) (now : Int) (i : Instruction)
    (ho : vm.frame.slotsStart + i.operands ≤ vm.stack.length) (hr : i.isNullary = true → HasRoom cfg vm) :
    Keeps S F (execute cfg now vm i) := by
  have hle := h.le
  have hsave : Upon S F (Async.saveFrame (vm.advance 2)) := (h.advance 2).saveFrame
  have hstack : (Async.saveFrame (vm.advance 2)).stack = vm.stack := saveFrame_stack _
  have hroom (hn : i.isNullary = true) : HasRoom cfg (Async.saveFrame (vm.advance 2)) := by
    have hframe : (Async.saveFrame (vm.advance 2)).frame.slotsStart = vm.frame.slotsStart := by
      rw [Async.saveFrame]
      split <;> rfl
    rw [HasRoom, hstack, hframe]
    exact hr hn
  cases i with
  | compute values | raise values => exact keeps_running (h.with_stack (h.cut hle values) rfl ⟨rfl, rfl⟩)
  | fatal message => exact keeps_failed _
  | nullary result => exact keeps_running (hsave.invokeNullary cfg (hroom rfl) result)
  | futurePending =>
    have hcreate : Upon S F { Async.saveFrame (vm.advance 2) with
        sched := objFutureCreate (Async.saveFrame (vm.advance 2)).sched .pending } :=
      hsave.with_stack hsave.stack rfl ⟨rfl, rfl⟩
    exact keeps_running (hcreate.invokeNullary cfg (hroom rfl) _)
  | futureResolved =>
    refine keeps_running (hsave.with_stack ?_ rfl ⟨rfl, rfl⟩)
    exact (prefix_dropLast hsave.stack (by rw [hstack]; simp only [operands] at ho; omega)).trans
      (prefix_append _ _)
  | futureComplete =>
    simp only [operands] at ho
    rw [Async.execute, builtinFutureComplete]
    dsimp only
    split
    next f _ =>
      refine keeps_running (hsave.with_stack ?_ rfl ⟨rfl, rfl⟩)
      have hone := prefix_dropLast hsave.stack (by rw [hstack]; omega)
      have htwo := prefix_dropLast hone (by rw [length_dropLast, hstack]; omega)
      exact htwo.trans (prefix_append _ _)
    next => exact keeps_running (hsave.vmRuntimeError cfg _)
  | asyncSleep =>
    simp only [operands] at ho
    rw [Async.execute, builtinAsyncSleep]
    split
    next delayMs _ =>
      refine keeps_running (hsave.with_stack ?_ rfl ⟨rfl, rfl⟩)
      exact (prefix_dropLast hsave.stack (by rw [hstack]; omega)).trans (prefix_append _ _)
    next => exact keeps_running (hsave.vmRuntimeError cfg _)
  | call fn argCount calleeOnStack => exact (h.advance 2).opCall cfg ho fn
  | await => exact (h.advance 1).opAwait cfg he
  | ret => exact (h.advance 1).opRet cfg he ho

theorem saveFrame_frames (vm : VM) (sched : Scheduler) :
    (saveFrame { vm with sched }).frames = (saveFrame vm).frames := by
  cases hf : vm.frames <;> simp [saveFrame, hf]

theorem vmResumeReadyTask_running (h : vmResumeReadyTask cfg vm = some (.running vm')) :
    ∃ values fr, vm'.stack = vm.stack ++ values ∧ fr.slotsStart = vm.stack.length ∧ fr.isAsyncRoot = true ∧
      vm'.frames = fr :: (saveFrame vm).frames ∧ vm'.frame = fr := by
  rw [vmResumeReadyTask] at h
  split at h
  · cases h
  next task sched _ =>
    dsimp only at h
    rw [saveFrame_stack, saveFrame_frames] at h
    split at h
    · cases h
    · refine ⟨task.stackValues ++ task.resumeValue.toList, taskFrame task vm.stack.length, ?_⟩
      cases hp : task.resumePanic with
      | none | some m =>
        rw [hp] at h
        obtain rfl := LoopResult.running.inj (Option.some.inj h)
        exact ⟨rfl, rfl, rfl, rfl, rfl⟩

theorem resume_upon (h : vmResumeReadyTask cfg vm = some (.running vm')) :
    Upon vm.stack (saveFrame vm).frames vm' := by
  obtain ⟨values, fr, hstack, hbase, hroot, hframes, hframe⟩ := vmResumeReadyTask_running cfg h
  exact ⟨hstack ▸ prefix_append _ _, fr, [], hframes, ⟨hbase, hroot⟩, by rw [hframe]; exact ⟨rfl, rfl⟩⟩

theorem Upon.resume (h : Upon S F vm) {r : LoopResult} (hr : vmResumeReadyTask cfg vm = some r) : Keeps S F r := by
  intro vm' heq
  rw [heq] at hr
  obtain ⟨values, fr, hstack, hbase, _, hframes, hframe⟩ := vmResumeReadyTask_running cfg hr
  obtain ⟨top, rest, hsaved, hl, _⟩ := h.saveFrame.layers
  refine .inl ⟨hstack ▸ h.stack.trans (prefix_append _ _), fr, top :: rest, ?_, hl.cons ?_, ?_⟩
  · rw [hframes, hsaved]
    rfl
  · rw [hbase]
    exact h.stack.length_le
  · rw [hframe]
    exact ⟨rfl, rfl⟩

theorem Upon.dispatch (h : Upon S F vm) (tick : Tick)
    (ho : vm.frame.slotsStart + tick.instruction.operands ≤ vm.stack.length)
    (hr : tick.instruction.isNullary = true → HasRoom cfg vm) : Keeps S F (dispatch cfg tick vm) := by
  rw [Async.dispatch, if_neg h.frames_ne]
  split
  next => exact h.handleError cfg
  next he =>
    have hnone : vm.error = none := by simpa using he
    cases hresume : vmResumeReadyTask cfg vm with
    | none => exact (h.execute cfg hnone tick.later tick.instruction ho hr).checkError cfg
    | some r => exact h.resume cfg hresume

theorem Upon.turn (h : Upon S F vm) {tick : Tick} (hs : tick.Sound vm)
    (hr : tick.instruction.isNullary = true → HasRoom cfg vm) : Keeps S F (turn cfg tick vm) := by
  have hevents : Upon S F { vm with
      sched := vmProcessExpiredTimers (vmProcessPollWaiters tick.polls vm.sched) tick.now } :=
    h.with_stack h.stack rfl ⟨rfl, rfl⟩
  exact hevents.dispatch cfg tick hs.operands hr

end Tablo.Async
