import Tablo.AsyncTimers
import Tablo.AsyncFrames

/-! Whole runs of the loop. -/

namespace Tablo.Async

open List Tick

variable (cfg : Config) (frame : CallFrame) (stack : List Value) {tick : Tick} {vm : VM} {P : Tick → VM → Prop}
  {ticks : List Tick} {S : List Value} {F : List CallFrame}

def vmRunLoop : List Tick → VM → LoopResult
  | [], vm => .running vm
  | tick :: ticks, vm =>
    match turn cfg tick vm with
    | .running vm => vmRunLoop ticks vm
    | result => result

def Throughout (P : Tick → VM → Prop) : List Tick → VM → Prop
  | [], _ => True
  | tick :: ticks, vm => P tick vm ∧ ∀ vm', turn cfg tick vm = .running vm' → Throughout P ticks vm'

instance decidableThroughout (P : Tick → VM → Prop) [∀ tick vm, Decidable (P tick vm)] :
    ∀ ticks vm, Decidable (Throughout cfg P ticks vm)
  | [], _ => isTrue trivial
  | tick :: ticks, vm =>
    match h : turn cfg tick vm with
    | .running vm' =>
      have := decidableThroughout P ticks vm'
      decidable_of_iff (P tick vm ∧ Throughout cfg P ticks vm') (by simp [Throughout, h])
    | .returned _ => decidable_of_iff (P tick vm) (by simp [Throughout, h])
    | .failed _ => decidable_of_iff (P tick vm) (by simp [Throughout, h])

instance (tick : Tick) (vm : VM) : Decidable (tick.Sound vm) :=
  decidable_of_iff (vm.sched.clock ≤ tick.now ∧ tick.now ≤ tick.later ∧
    vm.frame.slotsStart + tick.instruction.operands ≤ vm.stack.length)
    ⟨fun h => ⟨h.1, h.2.1, h.2.2⟩, fun h => ⟨h.now, h.later, h.operands⟩⟩

def VM.delayMs? (vm : VM) : Option Int :=
  match vm.stack.getLast? with
  | some (.int delayMs) => some delayMs
  | _ => none

/-- No sleep ends behind the last time there is, and no native without arguments
is called where the stack is full and its last value belongs to another frame. -/
def Tick.Within (tick : Tick) (vm : VM) : Prop :=
  (tick.instruction = .asyncSleep → ∀ delayMs ∈ vm.delayMs?, Representable (tick.later + delayMs)) ∧
    (tick.instruction.isNullary = true → HasRoom cfg vm)

instance (due : Int) : Decidable (Representable due) := inferInstanceAs (Decidable (due < _))

instance (vm : VM) : Decidable (HasRoom cfg vm) := inferInstanceAs (Decidable (_ ∨ _))

instance (tick : Tick) (vm : VM) : Decidable (tick.Within cfg vm) := inferInstanceAs (Decidable (_ ∧ _))

def start (clock : Int) : VM where
  sched := ⟨[], [], [], [], clock, 0, []⟩
  stack
  frames := [frame]
  frame
  error := none

def Resumes (tick : Tick) (vm vm' : VM) : Prop :=
  turn cfg tick vm = .running vm' ∧ vmResumeReadyTask cfg { vm with
      sched := vmProcessExpiredTimers (vmProcessPollWaiters tick.polls vm.sched) tick.now } = some (.running vm')

def StaysAbove (depth : Nat) (ticks : List Tick) (vm : VM) : Prop :=
  ∀ before vm', before <+: ticks → before ≠ ticks → vmRunLoop cfg before vm = .running vm' → depth < vm'.frames.length

structure Restored (vm vm' : VM) : Prop where
  stack : vm'.stack = vm.stack
  below : vm'.frames.tail = vm.frames.tail
  frame : vm.frames ≠ [] → vm'.frame = vm.frame

/-- Every task is in one place and leaves it in order with what it waited for,
timers expire as they are due, and when a task that was put on top of a frame
leaves, that frame is as it was. -/
structure SchedulerLaw (ticks : List Tick) (vm : VM) : Prop where
  queues : Queues (vmRunLoop cfg ticks vm).vm.sched
  once : (resumedTasks (vmRunLoop cfg ticks vm).vm.sched.history).Nodup
  timers : InDueOrder (vmRunLoop cfg ticks vm).vm.sched
  intact : ∀ before tick during after vm₀ vm₁ vm₂, ticks = before ++ tick :: (during ++ after) →
    vmRunLoop cfg before vm = .running vm₀ → Resumes cfg tick vm₀ vm₁ →
    vmRunLoop cfg during vm₁ = .running vm₂ → StaysAbove cfg vm₀.frames.length during vm₁ →
    vm₂.frames.length ≤ vm₀.frames.length → Restored vm₀ vm₂

variable {cfg} {after before : List Tick}

theorem queues_start (clock : Int) : Queues (start frame stack clock).sched := by
  constructor <;> simp [start, createdTasks, enqueuedTasks, resumedTasks, waitingTasks, suspendedOn,
    Scheduler.waitersOf, vmFindFutureWaitEntry]

theorem timeline_start {clock : Int} (hc : 0 ≤ clock) :
    Timeline (start frame stack clock).sched [] := by
  constructor <;> simp [start, expirations, hc]

theorem Queues.nodup {s : Scheduler} (h : Queues s) : (resumedTasks s.history).Nodup := by
  have hall : (enqueuedTasks s.history ++ waitingTasks s.futureWaiters).Nodup :=
    h.places.nodup_iff.mpr nodup_range
  have henq := (nodup_append.mp hall).1
  rw [h.fifo] at henq
  exact (nodup_append.mp henq).1

theorem Tick.Within.due (h : tick.Within cfg vm) : tick.Due vm Representable := by
  intro delayMs hi hd
  exact h.1 hi delayMs (by simp [VM.delayMs?, hd])

theorem Throughout.of_append {vm' : VM}
    (h : Throughout cfg P (before ++ after) vm) (hr : vmRunLoop cfg before vm = .running vm') :
    Throughout cfg P after vm' := by
  induction before generalizing vm with
  | nil => exact LoopResult.running.inj hr ▸ h
  | cons tick before ih =>
    rw [vmRunLoop] at hr
    cases ht : turn cfg tick vm with
    | running vm₁ =>
      simp only [ht] at hr
      exact ih (h.2 vm₁ ht) hr
    | returned vm₁ | failed vm₁ => simp [ht] at hr

theorem Throughout.take (h : Throughout cfg P (before ++ after) vm) : Throughout cfg P before vm := by
  induction before generalizing vm with
  | nil => trivial
  | cons tick before ih => exact ⟨h.1, fun vm' ht => ih (h.2 vm' ht)⟩

theorem moves_vmRunLoop (hl : Throughout cfg Sound ticks vm) (hw : Throughout cfg (Within cfg) ticks vm) :
    Moves Representable vm.sched (vmRunLoop cfg ticks vm).vm.sched := by
  induction ticks generalizing vm with
  | nil => exact .refl
  | cons tick ticks ih =>
    have hturn := moves_turn cfg vm hl.1 hw.1.due
    rw [vmRunLoop]
    cases ht : turn cfg tick vm with
    | running vm' =>
      rw [ht] at hturn
      exact hturn.trans (ih (hl.2 vm' ht) (hw.2 vm' ht))
    | returned vm' | failed vm' => rwa [ht] at hturn

theorem Upon.above (h : Upon S F vm) : F.length < vm.frames.length := by
  obtain ⟨top, rest, hframes, _⟩ := h.layers
  simp only [hframes, length_append, length_cons]
  omega

/-- The induction is on the turns; before the last one the task is still there,
since the run has not come back yet. -/
theorem Upon.vmRunLoop {vm₁ : VM} (h : Upon S F vm)
    (hl : Throughout cfg Sound ticks vm) (hw : Throughout cfg (Within cfg) ticks vm)
    (hrun : vmRunLoop cfg ticks vm = .running vm₁) (habove : StaysAbove cfg F.length ticks vm) :
    Upon S F vm₁ ∨ Left S F vm₁ := by
  induction ticks generalizing vm with
  | nil => exact .inl (LoopResult.running.inj hrun ▸ h)
  | cons tick ticks ih =>
    have hkeeps := h.turn cfg hl.1 hw.1.2
    rw [Async.vmRunLoop] at hrun
    cases ht : Async.turn cfg tick vm with
    | running vm' =>
      simp only [ht] at hrun
      rcases hkeeps vm' ht with hup | ⟨_, hleft⟩
      · refine ih hup (hl.2 vm' ht) (hw.2 vm' ht) hrun fun before vm₂ hb hne hrun' => ?_
        refine habove (tick :: before) vm₂ ((prefix_cons_inj tick).mpr hb) (by simpa using hne) ?_
        rw [Async.vmRunLoop, ht]
        exact hrun'
      · cases ticks with
        | nil => exact .inr (LoopResult.running.inj hrun ▸ hleft)
        | cons next ticks =>
          have hback := habove [tick] vm' (by simp) (by simp) (by simp [Async.vmRunLoop, ht])
          rw [hleft.frames] at hback
          omega
    | returned vm' | failed vm' => simp [ht] at hrun

theorem restored_of_resumes {during : List Tick} {vm₁ vm₂ : VM} (h : Resumes cfg tick vm vm₁)
    (hl : Throughout cfg Sound during vm₁) (hw : Throughout cfg (Within cfg) during vm₁)
    (hrun : vmRunLoop cfg during vm₁ = .running vm₂) (habove : StaysAbove cfg vm.frames.length during vm₁)
    (hback : vm₂.frames.length ≤ vm.frames.length) : Restored vm vm₂ := by
  obtain ⟨_, hresume⟩ := h
  have hlen : (saveFrame vm).frames.length = vm.frames.length := by
    cases hf : vm.frames <;> simp [saveFrame, hf]
  have hupon := resume_upon cfg hresume
  rw [saveFrame_frames] at hupon
  rcases hupon.vmRunLoop hl hw hrun (by rwa [hlen]) with hup | hleft
  · have := hup.above
    omega
  · refine ⟨hleft.stack, ?_, fun hne => ?_⟩
    · rw [hleft.frames]
      cases hf : vm.frames <;> simp [saveFrame, hf]
    · obtain ⟨top, rest, hf⟩ := exists_cons_of_ne_nil hne
      exact hleft.frame vm.frame rest (by simp [saveFrame, hf])

def plainConfig : Config := ⟨2, 1000, fun _ m => m⟩

def mainFrame : CallFrame := ⟨⟨0, 0, [], -1, -1, false⟩, 0, 0, 0, [], false, none, false, none⟩

def Tick.at (now : Int) (instruction : Instruction) : Tick := ⟨[], now, false, [], now, instruction⟩

def sleepTicks : List Tick :=
  [.at 10 .asyncSleep, .at 11 (.compute [] 4 []), .at 15 (.compute [.nil] 6 [])]

/-- A sleep of five milliseconds and then one of nearly three hundred million
years, which is over at once. -/
def overflowTicks : List Tick :=
  [.at 10 .asyncSleep, .at 11 (.compute [.int 9223372036854775807] 4 []), .at 11 .asyncSleep,
    .at 12 (.compute [] 6 []), .at 20 (.compute [] 7 [])]

/-- The task has no slots and is put on a full stack; its first call is of a
native without arguments. -/
def fullTicks : List Tick :=
  [.at 10 (.call ⟨0, 0, [], -1, -1, true⟩ 0 false), .at 11 .await, .at 12 (.nullary (.int 7))]

end Tablo.Async
