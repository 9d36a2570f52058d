import Mathlib.Logic.Relation
import Tablo.Async

/-! What a turn of the loop can do to the scheduler: a sequence of moves, each of
which is one operation. -/

namespace Tablo.Async

open Option LoopResult

section Completion

def Scheduler.waitersOf (s : Scheduler) (f : Nat) : List AsyncTask :=
  ((vmFindFutureWaitEntry s f).map FutureWaitEntry.tasks).getD []

def Scheduler.complete (s : Scheduler) (f : Nat) (state : FutureState) : Scheduler :=
  { s with
    futures := s.futures.set f state
    futureWaiters := s.futureWaiters.eraseP (·.future = f)
    readyTasks := s.readyTasks ++ (s.waitersOf f).map (·.wake state)
    history := s.history ++ (s.waitersOf f).map (Event.enqueued ·.id) }

variable {s s' : Scheduler} {f : Nat} {state : FutureState}

@[simp] theorem AsyncTask.wake_id (task : AsyncTask) (state : FutureState) : (task.wake state).id = task.id := by
  cases state <;> rfl

theorem wakeTasks_eq (state : FutureState) (tasks : List AsyncTask) (s : Scheduler) :
    wakeTasks state tasks s = { s with
      readyTasks := s.readyTasks ++ tasks.map (·.wake state)
      history := s.history ++ tasks.map (Event.enqueued ·.id) } := by
  induction tasks generalizing s with
  | nil => simp [wakeTasks]
  | cons task tasks ih => simp [wakeTasks, ih, vmEnqueueReadyTask, Scheduler.emit]

theorem vmWakeFutureWaiters_eq (hs : s.futures[f]? = some state) (hr : state ≠ .pending) :
    vmWakeFutureWaiters s f = { s with
      futureWaiters := s.futureWaiters.eraseP (·.future = f)
      readyTasks := s.readyTasks ++ (s.waitersOf f).map (·.wake state)
      history := s.history ++ (s.waitersOf f).map (Event.enqueued ·.id) } := by
  rw [vmWakeFutureWaiters, hs]
  cases he : vmFindFutureWaitEntry s f with
  | none =>
    have hnone : ∀ e ∈ s.futureWaiters, ¬ e.future = f := by
      simpa [vmFindFutureWaitEntry] using he
    have herase : s.futureWaiters.eraseP (·.future = f) = s.futureWaiters :=
      List.eraseP_of_forall_not (by simpa using hnone)
    simp [Scheduler.waitersOf, he, herase]
  | some entry =>
    cases state with
    | pending => exact absurd rfl hr
    | resolved v | panicked m => simp [Scheduler.waitersOf, he, wakeTasks_eq]

theorem wake_set (hp : s.futures[f]? = some .pending) (hr : state ≠ .pending) :
    vmWakeFutureWaiters { s with futures := s.futures.set f state } f = s.complete f state := by
  have hlt : f < s.futures.length := (List.getElem?_eq_some_iff.mp hp).1
  rw [vmWakeFutureWaiters_eq (by simp [hlt]) hr]
  rfl

theorem vmFutureComplete_some {v : Value} (h : vmFutureComplete s f v = some s') :
    s.futures[f]? = some .pending ∧ s' = s.complete f (.resolved v) := by
  rw [vmFutureComplete, objFutureResolve] at h
  by_cases hp : s.futures[f]? = some .pending
  · simp only [hp, if_true, some.injEq] at h
    exact ⟨hp, h ▸ wake_set hp (by simp)⟩
  · simp [hp] at h

theorem vmFutureCompletePanic_some {m : String} (h : vmFutureCompletePanic s f m = some s') :
    s.futures[f]? = some .pending ∧ ∃ text, s' = s.complete f (.panicked text) := by
  rw [vmFutureCompletePanic, objFutureResolvePanic] at h
  by_cases hp : s.futures[f]? = some .pending
  · simp only [hp, if_true, some.injEq] at h
    exact ⟨hp, _, h ▸ wake_set hp (by simp)⟩
  · simp [hp] at h

variable (s)

theorem completeQuietly_cases (f : Nat) (v : Value) :
    s.futures[f]? = some .pending ∧ completeQuietly s f v = s.complete f (.resolved v) ∨
      s.futures[f]? ≠ some .pending ∧ completeQuietly s f v = s := by
  by_cases hp : s.futures[f]? = some .pending
  · refine .inl ⟨hp, ?_⟩
    simp only [completeQuietly, vmFutureComplete, objFutureResolve, hp, if_true]
    exact wake_set hp (by simp)
  · exact .inr ⟨hp, by simp [completeQuietly, vmFutureComplete, objFutureResolve, hp]⟩

@[simp] theorem completeQuietly_clock (f : Nat) (v : Value) :
    (completeQuietly s f v).clock = s.clock := by
  rcases completeQuietly_cases s f v with ⟨_, h⟩ | ⟨_, h⟩ <;> rw [h] <;> rfl

@[simp] theorem completeQuietly_timerWaiters (f : Nat) (v : Value) :
    (completeQuietly s f v).timerWaiters = s.timerWaiters := by
  rcases completeQuietly_cases s f v with ⟨_, h⟩ | ⟨_, h⟩ <;> rw [h] <;> rfl

variable {s}

end Completion

section Moves

structure AsyncTask.New (task : AsyncTask) (s : Scheduler) : Prop where
  id : task.id = s.taskCount
  value : task.resumeValue = none
  panic : task.resumePanic = none

variable (s : Scheduler) {now : Int}

def Scheduler.spawn (task : AsyncTask) : Scheduler :=
  vmEnqueueReadyTask ({ s with taskCount := s.taskCount + 1 }.emit (.spawned task.id)) task

def Scheduler.suspend (f : Nat) (task : AsyncTask) : Scheduler :=
  vmEnqueueFutureWaiter ({ s with taskCount := s.taskCount + 1 }.emit (.suspended task.id f)) f task

def Scheduler.resume (task : AsyncTask) (rest : List AsyncTask) : Scheduler :=
  { s with readyTasks := rest }.emit (.resumed task.id task.resumeValue task.resumePanic)

def Scheduler.expire (t : TimerWaitEntry) (ts : List TimerWaitEntry) : Scheduler :=
  completeQuietly ({ s with timerWaiters := ts }.emit (.expired t.future)) t.future .nil

/-- The operations, with a bound `due` on the times at which sleeps end. -/
inductive Move (due : Int → Prop) : Scheduler → Scheduler → Prop
  | create (s : Scheduler) (state : FutureState) : Move due s (objFutureCreate s state)
  | spawn (s : Scheduler) (task : AsyncTask) (hn : task.New s) : Move due s (s.spawn task)
  | suspend (s : Scheduler) (f : Nat) (task : AsyncTask) (hn : task.New s)
      (hp : s.futures[f]? = some .pending) : Move due s (s.suspend f task)
  | complete (s : Scheduler) (f : Nat) (state : FutureState) (hp : s.futures[f]? = some .pending)
      (hr : state ≠ .pending) : Move due s (s.complete f state)
  | resume (s : Scheduler) (task : AsyncTask) (rest : List AsyncTask)
      (h : s.readyTasks = task :: rest) : Move due s (s.resume task rest)
  | sleep (s : Scheduler) (now delayMs : Int) (hc : s.clock ≤ now) (hd : 0 < delayMs)
      (hb : due (now + delayMs)) : Move due s (vmFutureSleep s now delayMs)
  | expire (s : Scheduler) (t : TimerWaitEntry) (ts : List TimerWaitEntry)
      (h : s.timerWaiters = t :: ts) (hd : t.deadlineMs ≤ s.clock) : Move due s (s.expire t ts)
  | read (s : Scheduler) (now : Int) (hc : s.clock ≤ now) : Move due s { s with clock := now }

abbrev Moves (due : Int → Prop) := Relation.ReflTransGen (Move due)

variable {due : Int → Prop} {s s' : Scheduler}

theorem Move.single (h : Move due s s') : Moves due s s' := Relation.ReflTransGen.single h

theorem moves_completeQuietly (s : Scheduler) (f : Nat) (v : Value) : Moves due s (completeQuietly s f v) := by
  rcases completeQuietly_cases s f v with ⟨hp, h⟩ | ⟨_, h⟩
  · rw [h]
    exact (Move.complete s f _ hp (by simp)).single
  · rw [h]

theorem moves_vmProcessPollWaiters (polls : List (Nat × Value)) (s : Scheduler) :
    Moves due s (vmProcessPollWaiters polls s) ∧ (vmProcessPollWaiters polls s).clock = s.clock := by
  induction polls generalizing s with
  | nil => exact ⟨.refl, rfl⟩
  | cons poll polls ih =>
    obtain ⟨f, v⟩ := poll
    obtain ⟨hm, hc⟩ := ih (completeQuietly s f v)
    exact ⟨(moves_completeQuietly s f v).trans hm, hc.trans (completeQuietly_clock s f v)⟩

theorem moves_expireTimers {now : Int} {ts : List TimerWaitEntry} (ht : s.timerWaiters = ts)
    (hc : s.clock = now) : Moves due s (expireTimers now ts s) ∧ (expireTimers now ts s).clock = now := by
  induction ts generalizing s with
  | nil => exact ⟨.refl, hc⟩
  | cons t ts ih =>
    rw [expireTimers]
    split
    next hd =>
      have hmove : Move due s (s.expire t ts) := Move.expire s t ts ht (hc ▸ hd)
      obtain ⟨hm, hclock⟩ := @ih (s.expire t ts) (completeQuietly_timerWaiters _ _ _)
        ((completeQuietly_clock _ _ _).trans hc)
      exact ⟨.head hmove hm, hclock⟩
    next => exact ⟨.refl, hc⟩

theorem moves_vmProcessExpiredTimers (hc : s.clock ≤ now) :
    Moves due s (vmProcessExpiredTimers s now) ∧ (vmProcessExpiredTimers s now).clock = now := by
  obtain ⟨hm, hclock⟩ := @moves_expireTimers due { s with clock := now } now s.timerWaiters rfl rfl
  exact ⟨.head (Move.read s now hc) hm, hclock⟩

theorem moves_vmFutureSleep (hc : s.clock ≤ now) (delayMs : Int) (hb : due (now + delayMs)) :
    Moves due s (vmFutureSleep s now delayMs) := by
  by_cases hd : 0 < delayMs
  · exact (Move.sleep s now delayMs hc hd hb).single
  · rw [vmFutureSleep, if_pos (by omega)]
    exact (Move.create s _).single

end Moves

def LoopResult.vm : LoopResult → VM
  | .running vm => vm
  | .returned vm => vm
  | .failed vm => vm

@[simp] theorem LoopResult.vm_running (vm : VM) : (LoopResult.running vm).vm = vm := rfl
@[simp] theorem LoopResult.vm_failed (vm : VM) : (LoopResult.failed vm).vm = vm := rfl

/-- The clock does not go back, and the operands of the instruction are in the
frame's own part of the stack, as in all compiled code. -/
structure Tick.Sound (tick : Tick) (vm : VM) : Prop where
  now : vm.sched.clock ≤ tick.now
  later : tick.now ≤ tick.later
  operands : vm.frame.slotsStart + tick.instruction.operands ≤ vm.stack.length

def Tick.Due (tick : Tick) (vm : VM) (due : Int → Prop) : Prop :=
  ∀ delayMs, tick.instruction = .asyncSleep → vm.stack.getLast? = some (.int delayMs) → due (tick.later + delayMs)

variable {due : Int → Prop} (cfg : Config) (vm : VM) {now : Int} {tick : Tick}

@[simp] theorem reload_sched : (reload vm).sched = vm.sched := by
  rw [reload]
  split <;> rfl

@[simp] theorem vmRuntimeError_sched (m : String) : (vmRuntimeError cfg vm m).sched = vm.sched := rfl

@[simp] theorem saveFrame_sched : (saveFrame vm).sched = vm.sched := by
  rw [saveFrame]
  split <;> rfl

@[simp] theorem push_sched (v : Value) : (push cfg vm v).sched = vm.sched := by
  rw [push]
  split <;> rfl

@[simp] theorem pushNilCount_sched (n : Nat) : (pushNilCount cfg vm n).sched = vm.sched := by
  rw [pushNilCount]
  split <;> rfl

@[simp] theorem invokeNullary_sched (v : Value) : (invokeNullary cfg vm v).sched = vm.sched := by
  simp [invokeNullary]

theorem moves_vmResumeReadyTask {r : LoopResult} (h : vmResumeReadyTask cfg vm = some r) :
    Moves due vm.sched r.vm.sched := by
  rw [vmResumeReadyTask, vmDequeueReadyTask] at h
  cases hq : vm.sched.readyTasks with
  | nil => simp [hq] at h
  | cons task rest =>
    simp only [hq] at h
    have hmove : Moves due vm.sched (vm.sched.resume task rest) := (Move.resume vm.sched task rest hq).single
    split at h
    · cases h
      simpa [Scheduler.resume] using hmove
    · cases hp : task.resumePanic with
      | none | some m =>
        simp only [hp] at h
        cases h
        simpa [Scheduler.resume, hp] using hmove

theorem moves_vmFinishAsyncPanicFrame : Moves due vm.sched (vmFinishAsyncPanicFrame cfg vm).vm.sched := by
  rw [vmFinishAsyncPanicFrame]
  split
  · exact .refl
  · dsimp only
    split
    next => exact .refl
    next sched h =>
      obtain ⟨f, _, hf⟩ := bind_eq_some_iff.mp h
      obtain ⟨hp, text, rfl⟩ := vmFutureCompletePanic_some hf
      simpa using (Move.complete vm.sched f (.panicked text) hp (by simp)).single

theorem moves_vmHandleAsyncFrameError : Moves due vm.sched (vmHandleAsyncFrameError cfg vm).vm.sched := by
  rw [vmHandleAsyncFrameError]
  split
  · exact .refl
  · dsimp only
    split
    · split
      · exact .refl
      · simp only [vm_running, saveFrame_sched]
        exact .refl
    · exact moves_vmFinishAsyncPanicFrame cfg { vm with frame := startPanic vm.frame vm.error, error := none }

theorem moves_handleError : Moves due vm.sched (handleError cfg vm).vm.sched := by
  rw [handleError]
  split
  · exact moves_vmHandleAsyncFrameError cfg vm
  · exact .refl

theorem moves_checkError (r : LoopResult) : Moves due r.vm.sched (checkError cfg r).vm.sched := by
  cases r with
  | running vm =>
    rw [checkError]
    split
    · exact moves_handleError cfg vm
    · exact .refl
  | returned vm | failed vm => exact .refl

theorem moves_vmSpawnAsyncCall (fn : ObjFunction) (pos : Nat) (args : List Value) :
    Moves due vm.sched (vmSpawnAsyncCall cfg vm fn pos args).vm.sched := by
  rw [vmSpawnAsyncCall]
  split
  · exact .refl
  · dsimp only
    split
    next => exact .refl
    next values _ =>
      split
      · exact .refl
      · exact .head (Move.create vm.sched .pending)
          (Move.spawn (objFutureCreate vm.sched .pending) (spawnTask vm fn values) ⟨rfl, rfl, rfl⟩).single

theorem moves_opCall (fn : ObjFunction) (argCount : Nat) (calleeOnStack : Bool) :
    Moves due vm.sched (opCall cfg vm fn argCount calleeOnStack).vm.sched := by
  rw [opCall]
  split_ifs
  · exact .refl
  · exact .refl
  · exact .refl
  · exact moves_vmSpawnAsyncCall cfg vm fn _ _
  · rw [enterFunction]
    split <;> simp only [vm_failed, vmRuntimeError_sched,
      pushNilCount_sched, saveFrame_sched] <;> exact .refl

theorem moves_opAwait : Moves due vm.sched (opAwait cfg vm).vm.sched := by
  rw [opAwait]
  split_ifs
  · exact .refl
  · exact .refl
  · split
    next f _ =>
      split
      next => rw [vm_running, push_sched]
      next => exact .refl
      next hp =>
        rw [vm_running, suspend, reload_sched]
        exact (Move.suspend vm.sched f _ ⟨rfl, rfl, rfl⟩ hp).single
      next => exact .refl
    next => exact .refl

theorem moves_opRet : Moves due vm.sched (opRet cfg vm).vm.sched := by
  rw [opRet]
  split
  next => exact .refl
  next result _ =>
    split
    · exact moves_vmFinishAsyncPanicFrame cfg { vm with stack := vm.stack.dropLast }
    · dsimp only
      split
      · split
        next => exact .refl
        next sched h =>
          obtain ⟨f, _, hf⟩ := bind_eq_some_iff.mp h
          obtain ⟨hp, rfl⟩ := vmFutureComplete_some hf
          simpa using (Move.complete vm.sched f (.resolved result) hp (by simp)).single
      · split
        · exact .refl
        · rw [vm_running, push_sched, reload_sched]

theorem moves_builtinFutureComplete : Moves due vm.sched (builtinFutureComplete cfg vm).sched := by
  rw [builtinFutureComplete]
  split
  next f _ => exact moves_completeQuietly vm.sched f (vm.stack.getLastD .nil)
  next => exact .refl

theorem moves_builtinAsyncSleep (hc : vm.sched.clock ≤ now)
    (hb : ∀ delayMs, vm.stack.getLast? = some (.int delayMs) → due (now + delayMs)) :
    Moves due vm.sched (builtinAsyncSleep cfg now vm).sched := by
  rw [builtinAsyncSleep]
  split
  next delayMs hd => exact moves_vmFutureSleep hc delayMs (hb delayMs hd)
  next => exact .refl

@[simp] theorem saveFrame_stack : (saveFrame vm).stack = vm.stack := by
  rw [saveFrame]
  split <;> rfl

theorem moves_execute (hc : vm.sched.clock ≤ now) (i : Instruction)
    (hb : ∀ delayMs, i = .asyncSleep → vm.stack.getLast? = some (.int delayMs) → due (now + delayMs)) :
    Moves due vm.sched (execute cfg now vm i).vm.sched := by
  have hsave : (saveFrame (vm.advance 2)).sched = vm.sched := saveFrame_sched _
  cases i with
  | compute values ip defers | raise values ip message | fatal message => exact .refl
  | nullary result =>
    rw [execute, vm_running, invokeNullary_sched, hsave]
  | futurePending =>
    rw [execute, vm_running, builtinFuturePending, invokeNullary_sched, hsave]
    exact (Move.create _ _).single
  | futureResolved =>
    rw [execute, builtinFutureResolved, hsave]
    exact (Move.create _ _).single
  | futureComplete =>
    have h : Moves due _ (builtinFutureComplete cfg (saveFrame (vm.advance 2))).sched :=
      moves_builtinFutureComplete cfg _
    rwa [hsave] at h
  | asyncSleep =>
    have h : Moves due _ (builtinAsyncSleep cfg now (saveFrame (vm.advance 2))).sched :=
      moves_builtinAsyncSleep cfg _ (by rwa [hsave]) fun delayMs hd =>
        hb delayMs rfl (by rwa [saveFrame_stack] at hd)
    rwa [hsave] at h
  | call fn argCount calleeOnStack => exact moves_opCall cfg (vm.advance 2) fn argCount calleeOnStack
  | await => exact moves_opAwait cfg (vm.advance 1)
  | ret => exact moves_opRet cfg (vm.advance 1)

theorem moves_idle (hc : vm.sched.clock ≤ tick.later) : Moves due vm.sched (idle tick vm).vm.sched := by
  have hm : Moves due _ (vmProcessExpiredTimers vm.sched tick.later) := (moves_vmProcessExpiredTimers hc).1
  rw [idle, vmWaitForNextIdleWork]
  by_cases hw : tick.pollWaiting
  · simp only [hw]
    exact hm.trans (moves_vmProcessPollWaiters _ _).1
  · by_cases ht : vm.sched.timerWaiters = []
    · simp only [hw, ht]
      exact .refl
    · simpa [hw, ht] using hm

theorem moves_dispatch (hc : vm.sched.clock ≤ tick.later) (hb : tick.Due vm due) :
    Moves due vm.sched (dispatch cfg tick vm).vm.sched := by
  have hrun (other : LoopResult) (ho : Moves due vm.sched other.vm.sched) :
      Moves due vm.sched ((vmResumeReadyTask cfg vm).getD other).vm.sched := by
    cases h : vmResumeReadyTask cfg vm with
    | none => exact ho
    | some r => exact moves_vmResumeReadyTask cfg vm h
  rw [dispatch]
  split_ifs
  · exact hrun _ (moves_idle vm hc)
  · exact moves_handleError cfg vm
  · exact hrun _ ((moves_execute cfg vm hc tick.instruction hb).trans (moves_checkError cfg _))

theorem moves_turn (h : tick.Sound vm) (hb : tick.Due vm due) : Moves due vm.sched (turn cfg tick vm).vm.sched := by
  obtain ⟨hpoll, hclock⟩ := moves_vmProcessPollWaiters tick.polls vm.sched
  have hbefore : (vmProcessPollWaiters tick.polls vm.sched).clock ≤ tick.now := hclock ▸ h.now
  obtain ⟨htimers, hnow⟩ := moves_vmProcessExpiredTimers hbefore
  have hlater := le_of_eq_of_le hnow h.later
  exact (hpoll.trans htimers).trans (moves_dispatch cfg
    { vm with sched := vmProcessExpiredTimers (vmProcessPollWaiters tick.polls vm.sched) tick.now } hlater hb)

end Tablo.Async
