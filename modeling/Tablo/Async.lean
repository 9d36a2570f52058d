import Mathlib.Data.List.Basic

/-! The async scheduler of `vm.c`. Between any two instructions a ready task is
put on top of the frame that runs; it leaves by suspending, returning or
panicking. Futures and tasks are numbered as they are allocated. -/

namespace Tablo.Async

inductive Value where
  | nil
  | bool (b : Bool)
  | int (n : Int)
  | future (id : Nat)
  | object (id : Nat)
  deriving DecidableEq, Repr

inductive FutureState where
  | pending
  | resolved (v : Value)
  | panicked (message : String)
  deriving DecidableEq, Repr

structure ObjFunction where
  paramCount : Nat
  localCount : Nat
  captures : List (Nat × Value)
  deferHandlerIp : Int
  deferReturnSlot : Int
  isAsync : Bool
  deriving DecidableEq, Repr

structure CallFrame where
  function : ObjFunction
  ip : Int
  slotsStart : Nat
  slotsCount : Nat
  defers : List Value
  isAsyncRoot : Bool
  asyncResultFuture : Option Nat
  panicUnwinding : Bool
  panicMessage : Option String
  deriving DecidableEq, Repr

structure AsyncTask where
  id : Nat
  function : ObjFunction
  ip : Int
  stackValues : List Value
  slotsCount : Nat
  defers : List Value
  asyncResultFuture : Option Nat
  resumeValue : Option Value
  resumePanic : Option String
  panicUnwinding : Bool
  panicMessage : Option String
  deriving DecidableEq, Repr

structure FutureWaitEntry where
  future : Nat
  tasks : List AsyncTask
  deriving DecidableEq, Repr

structure TimerWaitEntry where
  future : Nat
  deadlineMs : Int
  deriving DecidableEq, Repr

/-- What can be observed of the scheduler, in order. A sleep is recorded with
the time it is due as a number without bound. -/
inductive Event where
  | spawned (task : Nat)
  | suspended (task future : Nat)
  | enqueued (task : Nat)
  | resumed (task : Nat) (value : Option Value) (panic : Option String)
  | slept (future : Nat) (due : Int)
  | expired (future : Nat)
  deriving DecidableEq, Repr

/-- The lists of the scheduler, the last reading of the clock and the events. -/
structure Scheduler where
  futures : List FutureState
  futureWaiters : List FutureWaitEntry
  readyTasks : List AsyncTask
  timerWaiters : List TimerWaitEntry
  clock : Int
  taskCount : Nat
  history : List Event
  deriving DecidableEq, Repr

def Scheduler.emit (s : Scheduler) (e : Event) : Scheduler := { s with history := s.history ++ [e] }

section Futures

variable (s : Scheduler) (f : Nat) (task : AsyncTask)

def objFutureCreate (state : FutureState) : Scheduler := { s with futures := s.futures ++ [state] }

def objFutureResolve (v : Value) : Option Scheduler :=
  if s.futures[f]? = some .pending then some { s with futures := s.futures.set f (.resolved v) } else none

def objFutureResolvePanic (message : String) : Option Scheduler :=
  if s.futures[f]? = some .pending then
    some { s with futures := s.futures.set f (.panicked (if message ≠ "" then message else "Runtime error")) }
  else none

def vmEnqueueReadyTask : Scheduler :=
  { s with readyTasks := s.readyTasks ++ [task] }.emit (.enqueued task.id)

def vmDequeueReadyTask : Option (AsyncTask × Scheduler) :=
  match s.readyTasks with
  | [] => none
  | task :: rest => some (task, { s with readyTasks := rest })

def vmFindFutureWaitEntry : Option FutureWaitEntry := s.futureWaiters.find? (·.future = f)

def appendWaiter (f : Nat) (task : AsyncTask) : List FutureWaitEntry → List FutureWaitEntry
  | [] => []
  | entry :: entries =>
    if entry.future = f then { entry with tasks := entry.tasks ++ [task] } :: entries
    else entry :: appendWaiter f task entries

def vmEnqueueFutureWaiter : Scheduler :=
  match vmFindFutureWaitEntry s f with
  | none => { s with futureWaiters := ⟨f, [task]⟩ :: s.futureWaiters }
  | some _ => { s with futureWaiters := appendWaiter f task s.futureWaiters }

def AsyncTask.wake : FutureState → AsyncTask
  | .pending => task
  | .resolved v => { task with resumeValue := some v }
  | .panicked message => { task with resumePanic := some message }

def wakeTasks (state : FutureState) : List AsyncTask → Scheduler → Scheduler
  | [], s => s
  | task :: tasks, s => wakeTasks state tasks (vmEnqueueReadyTask s (task.wake state))

def vmWakeFutureWaiters : Scheduler :=
  match vmFindFutureWaitEntry s f, s.futures[f]? with
  | none, _ => s
  | _, none => s
  | _, some .pending => s
  | some entry, some state =>
    { wakeTasks state entry.tasks s with futureWaiters := s.futureWaiters.eraseP (·.future = f) }

def vmFutureComplete (v : Value) : Option Scheduler :=
  match objFutureResolve s f v with
  | none => none
  | some s => some (vmWakeFutureWaiters s f)

def vmFutureCompletePanic (message : String) : Option Scheduler :=
  match objFutureResolvePanic s f message with
  | none => none
  | some s => some (vmWakeFutureWaiters s f)

def completeQuietly (v : Value) : Scheduler := (vmFutureComplete s f v).getD s

end Futures

section Timers

def insertTimer (entry : TimerWaitEntry) : List TimerWaitEntry → List TimerWaitEntry
  | [] => [entry]
  | t :: ts => if t.deadlineMs ≤ entry.deadlineMs then t :: insertTimer entry ts else entry :: t :: ts

variable (s : Scheduler)

def vmEnqueueTimerWaiter (f : Nat) (deadlineMs : Int) : Scheduler :=
  { s with timerWaiters := insertTimer ⟨f, deadlineMs⟩ s.timerWaiters }

def expireTimers (now : Int) : List TimerWaitEntry → Scheduler → Scheduler
  | [], s => s
  | t :: ts, s =>
    if t.deadlineMs ≤ now then
      expireTimers now ts (completeQuietly ({ s with timerWaiters := ts }.emit (.expired t.future)) t.future .nil)
    else s

def vmProcessExpiredTimers (now : Int) : Scheduler :=
  expireTimers now s.timerWaiters { s with clock := now }

def addInt64 (a b : Int) : Int := (a + b).bmod 18446744073709551616

def vmFutureSleep (now delayMs : Int) : Scheduler :=
  if delayMs ≤ 0 then objFutureCreate s (.resolved .nil)
  else
    let f := s.futures.length
    let s := { objFutureCreate s .pending with clock := now }
    (vmEnqueueTimerWaiter s f (addInt64 now delayMs)).emit (.slept f (now + delayMs))

end Timers

section Frames

/-- Limits, and the text that an error message gets from the frames. -/
structure Config where
  maxStackSize : Nat
  maxCallDepth : Nat
  buildRuntimeErrorMessage : List CallFrame → String → String

/-- The scheduler, the operand stack, the saved frames from the top down, the
frame that runs and the error. -/
structure VM where
  sched : Scheduler
  stack : List Value
  frames : List CallFrame
  frame : CallFrame
  error : Option String

inductive LoopResult where
  | running (vm : VM)
  | returned (vm : VM)
  | failed (vm : VM)

variable (cfg : Config) (vm : VM)

def vmRuntimeError (message : String) : VM :=
  { vm with error := some (cfg.buildRuntimeErrorMessage vm.frames message) }

def push (v : Value) : VM :=
  if cfg.maxStackSize ≤ vm.stack.length then vmRuntimeError cfg vm "Stack overflow"
  else { vm with stack := vm.stack ++ [v] }

def reload : VM :=
  match vm.frames with
  | [] => vm
  | top :: _ => { vm with frame := top }

def saveFrame : VM :=
  match vm.frames with
  | [] => vm
  | _ :: rest => { vm with frames := vm.frame :: rest }

def taskFrame (task : AsyncTask) (base : Nat) : CallFrame where
  function := task.function
  ip := task.ip
  slotsStart := base
  slotsCount := task.slotsCount
  defers := task.defers
  isAsyncRoot := true
  asyncResultFuture := task.asyncResultFuture
  panicUnwinding := task.panicUnwinding
  panicMessage := task.panicMessage

def vmResumeReadyTask : Option LoopResult :=
  match vmDequeueReadyTask vm.sched with
  | none => none
  | some (task, sched) =>
    let vm := saveFrame { vm with sched := sched.emit (.resumed task.id task.resumeValue task.resumePanic) }
    let values := task.stackValues ++ task.resumeValue.toList
    if values ≠ [] ∧ cfg.maxStackSize < vm.stack.length + values.length then
      some (.failed (vmRuntimeError cfg vm "Stack overflow"))
    else
      let frame := taskFrame task vm.stack.length
      let vm := { vm with stack := vm.stack ++ values, frames := frame :: vm.frames, frame }
      match task.resumePanic with
      | some message => some (.running (vmRuntimeError cfg vm message))
      | none => some (.running vm)

def vmFinishAsyncPanicFrame : LoopResult :=
  if vm.frame.isAsyncRoot = false then .failed vm
  else
    let message := match vm.frame.panicMessage with
      | some m => if m ≠ "" then m else "Runtime error"
      | none => "Runtime error"
    let popped := { vm with stack := vm.stack.take vm.frame.slotsStart, frames := vm.frames.tail }
    match vm.frame.asyncResultFuture.bind (vmFutureCompletePanic vm.sched · message) with
    | none => .failed (vmRuntimeError cfg popped "Failed to resolve async future panic")
    | some sched => .running (reload { popped with sched, error := none })

def startPanic (frame : CallFrame) (error : Option String) : CallFrame :=
  if frame.panicUnwinding then frame
  else
    let message := match error with
      | some m => if m ≠ "" then m else "Runtime error"
      | none => "Runtime error"
    { frame with panicMessage := some message, panicUnwinding := true }

def vmHandleAsyncFrameError : LoopResult :=
  if vm.frame.isAsyncRoot = false then .failed vm
  else
    let frame := startPanic vm.frame vm.error
    let vm := { vm with frame, error := none }
    if 0 ≤ frame.function.deferHandlerIp ∧ 0 ≤ frame.function.deferReturnSlot then
      let slot := frame.slotsStart + frame.function.deferReturnSlot.toNat
      if vm.stack.length ≤ slot then
        .failed (vmRuntimeError cfg vm "Async panic defer return slot out of bounds")
      else
        .running (saveFrame { vm with
          stack := vm.stack.set slot .nil
          frame := { frame with ip := frame.function.deferHandlerIp } })
    else vmFinishAsyncPanicFrame cfg vm

end Frames

section Instructions

/-- One instruction, with its operands on the stack. All that neither calls,
awaits, returns nor touches a future is `compute`, or `raise` if it ends in an
error; `values` is what it leaves of the frame's own part of the stack. Natives
without arguments, `nullary`, are apart. -/
inductive Instruction where
  | compute (values : List Value) (ip : Int) (defers : List Value)
  | raise (values : List Value) (ip : Int) (message : String)
  | fatal (message : String)
  | nullary (result : Value)
  | futurePending
  | futureResolved
  | futureComplete
  | asyncSleep
  | call (function : ObjFunction) (argCount : Nat) (calleeOnStack : Bool)
  | await
  | ret
  deriving DecidableEq, Repr

variable (cfg : Config) (vm : VM) (function : ObjFunction)

/-- `none` if a slot is not below the bound, or is below `first`. -/
def bindCaptures (first bound base : Nat) : List (Nat × Value) → List Value → Option (List Value)
  | [], stack => some stack
  | (slot, v) :: captures, stack =>
    if first ≤ slot ∧ slot < bound then bindCaptures first bound base captures (stack.set (base + slot) v)
    else none

def VM.withValues (values : List Value) : VM :=
  { vm with stack := vm.stack.take vm.frame.slotsStart ++ values }

def VM.advance (count : Int) : VM := { vm with frame := { vm.frame with ip := vm.frame.ip + count } }

def spawnTask (values : List Value) : AsyncTask where
  id := vm.sched.taskCount
  function
  ip := 0
  stackValues := values
  slotsCount := function.localCount
  defers := []
  asyncResultFuture := some vm.sched.futures.length
  resumeValue := none
  resumePanic := none
  panicUnwinding := false
  panicMessage := none

def vmSpawnAsyncCall (resultPos : Nat) (args : List Value) : LoopResult :=
  if function.localCount < args.length then
    .failed (vmRuntimeError cfg vm "Function local slots less than arguments")
  else
    let slots := args ++ List.replicate (function.localCount - args.length) .nil
    match bindCaptures 0 slots.length 0 function.captures slots with
    | none => .failed (vmRuntimeError cfg vm "Closure capture slot out of bounds")
    | some values =>
      if vm.stack.length ≤ resultPos ∧ cfg.maxStackSize < vm.stack.length + 1 then
        .failed (vmRuntimeError cfg vm "Stack overflow")
      else
        let task := spawnTask vm function values
        let sched := { objFutureCreate vm.sched .pending with taskCount := vm.sched.taskCount + 1 }
        .running { vm with
          stack := vm.stack.take resultPos ++ [.future vm.sched.futures.length]
          sched := vmEnqueueReadyTask (sched.emit (.spawned task.id)) task }

def callFrame (base : Nat) : CallFrame where
  function
  ip := 0
  slotsStart := base
  slotsCount := function.localCount
  defers := []
  isAsyncRoot := false
  asyncResultFuture := none
  panicUnwinding := false
  panicMessage := none

/-- The locals that are not parameters; too many of them are an error, with
which the call goes on. -/
def pushNilCount (count : Nat) : VM :=
  if 0 < count ∧ cfg.maxStackSize < vm.stack.length + count then vmRuntimeError cfg vm "Stack overflow"
  else { vm with stack := vm.stack ++ List.replicate count .nil }

def enterFunction (base : Nat) (args : List Value) : LoopResult :=
  let vm := saveFrame { vm with stack := vm.stack.take base ++ args }
  let vm := pushNilCount cfg vm (function.localCount - args.length)
  match bindCaptures function.paramCount function.localCount base function.captures vm.stack with
  | none => .failed (vmRuntimeError cfg vm "Closure capture slot out of bounds")
  | some stack =>
    let frame := callFrame function base
    .running { vm with stack, frames := frame :: vm.frames, frame }

def opCall (argCount : Nat) (calleeOnStack : Bool) : LoopResult :=
  let resultPos := vm.stack.length - argCount - calleeOnStack.toNat
  let args := vm.stack.drop (vm.stack.length - argCount)
  if function.paramCount ≠ argCount then .failed (vmRuntimeError cfg vm "Wrong number of arguments")
  else if cfg.maxCallDepth < vm.frames.length + 1 then
    .failed (vmRuntimeError cfg vm "Stack overflow: maximum call depth exceeded")
  else if function.localCount < argCount then
    .failed (vmRuntimeError cfg vm "Function local slots less than arguments")
  else if function.isAsync then vmSpawnAsyncCall cfg vm function resultPos args
  else enterFunction cfg vm function resultPos args

def suspendTask : AsyncTask where
  id := vm.sched.taskCount
  function := vm.frame.function
  ip := vm.frame.ip
  stackValues := vm.stack.drop vm.frame.slotsStart
  slotsCount := vm.frame.slotsCount
  defers := vm.frame.defers
  asyncResultFuture := vm.frame.asyncResultFuture
  resumeValue := none
  resumePanic := none
  panicUnwinding := vm.frame.panicUnwinding
  panicMessage := vm.frame.panicMessage

def suspend (f : Nat) : VM :=
  let task := suspendTask vm
  let sched := { vm.sched with taskCount := vm.sched.taskCount + 1 }.emit (.suspended task.id f)
  reload { vm with
    sched := vmEnqueueFutureWaiter sched f task
    stack := vm.stack.take vm.frame.slotsStart
    frames := vm.frames.tail }

def opAwait : LoopResult :=
  if vm.stack.length ≤ vm.frame.slotsStart then .failed (vmRuntimeError cfg vm "Stack underflow in await")
  else if vm.frame.isAsyncRoot = false ∨ vm.frame.asyncResultFuture = none then
    .failed (vmRuntimeError cfg vm "await is only valid in async task frames")
  else
    let popped := { vm with stack := vm.stack.dropLast }
    match vm.stack.getLast? with
    | some (.future f) =>
      match vm.sched.futures[f]? with
      | some (.resolved v) => .running (push cfg popped v)
      | some (.panicked message) => .running (vmRuntimeError cfg popped message)
      | some .pending => .running (suspend popped f)
      | none => .failed (vmRuntimeError cfg popped "await expects Future<T>")
    | _ => .failed (vmRuntimeError cfg popped "await expects Future<T>")

def opRet : LoopResult :=
  match vm.stack.getLast? with
  | none => .failed (vmRuntimeError cfg vm "Stack underflow")
  | some result =>
    if vm.frame.panicUnwinding then vmFinishAsyncPanicFrame cfg { vm with stack := vm.stack.dropLast }
    else
      let popped := { vm with stack := vm.stack.dropLast.take vm.frame.slotsStart, frames := vm.frames.tail }
      if vm.frame.isAsyncRoot then
        match vm.frame.asyncResultFuture.bind (vmFutureComplete vm.sched · result) with
        | none => .failed (vmRuntimeError cfg popped "Failed to resolve async future")
        | some sched => .running (reload { popped with sched })
      else if popped.frames = [] then .returned popped
      else .running (push cfg (reload popped) result)

/-- A native without arguments gets a slot pushed for its result, and is called
and writes the top of the stack even if there was no room for that slot. -/
def invokeNullary (result : Value) : VM :=
  let vm := pushNilCount cfg vm 1
  { vm with stack := vm.stack.set (vm.stack.length - 1) result }

def builtinFuturePending : VM :=
  invokeNullary cfg { vm with sched := objFutureCreate vm.sched .pending } (.future vm.sched.futures.length)

def builtinFutureResolved : VM :=
  { vm with
    sched := objFutureCreate vm.sched (.resolved (vm.stack.getLastD .nil))
    stack := vm.stack.dropLast ++ [.future vm.sched.futures.length] }

def builtinFutureComplete : VM :=
  let rest := vm.stack.dropLast
  match rest.getLast? with
  | some (.future f) =>
    let done := vmFutureComplete vm.sched f (vm.stack.getLastD .nil)
    { vm with sched := done.getD vm.sched, stack := rest.dropLast ++ [.bool done.isSome] }
  | _ => vmRuntimeError cfg vm "futureComplete expects Future<T>"

def builtinAsyncSleep (now : Int) (vm : VM) : VM :=
  match vm.stack.getLast? with
  | some (.int delayMs) =>
    { vm with
      sched := vmFutureSleep vm.sched now delayMs
      stack := vm.stack.dropLast ++ [.future vm.sched.futures.length] }
  | _ => vmRuntimeError cfg vm "asyncSleep expects int milliseconds"

/-- The body of the switch; `now` is what the clock says if it is asked. -/
def execute (now : Int) (vm : VM) : Instruction → LoopResult
  | .compute values ip defers =>
    .running { vm.withValues values with frame := { vm.frame with ip, defers } }
  | .raise values ip message =>
    .running (vmRuntimeError cfg { vm.withValues values with frame := { vm.frame with ip } } message)
  | .fatal message => .failed (vmRuntimeError cfg vm message)
  | .nullary result => .running (invokeNullary cfg (saveFrame (vm.advance 2)) result)
  | .futurePending => .running (builtinFuturePending cfg (saveFrame (vm.advance 2)))
  | .futureResolved => .running (builtinFutureResolved (saveFrame (vm.advance 2)))
  | .futureComplete => .running (builtinFutureComplete cfg (saveFrame (vm.advance 2)))
  | .asyncSleep => .running (builtinAsyncSleep cfg now (saveFrame (vm.advance 2)))
  | .call function argCount calleeOnStack => opCall cfg (vm.advance 2) function argCount calleeOnStack
  | .await => opAwait cfg (vm.advance 1)
  | .ret => opRet cfg (vm.advance 1)

/-- How many values of the stack an instruction takes unchecked. -/
def Instruction.operands : Instruction → Nat
  | .futureResolved => 1
  | .futureComplete => 2
  | .asyncSleep => 1
  | .call _ argCount calleeOnStack => argCount + calleeOnStack.toNat
  | .ret => 1
  | _ => 0

end Instructions

variable (cfg : Config) (tick : Tick) (vm : VM)

/-- What the outside does in one turn of the loop: futures that poll waiters
complete, readings of the clock, the instruction that is next. -/
structure Tick where
  polls : List (Nat × Value)
  now : Int
  pollWaiting : Bool
  idlePolls : List (Nat × Value)
  later : Int
  instruction : Instruction

def vmProcessPollWaiters : List (Nat × Value) → Scheduler → Scheduler
  | [], s => s
  | (f, v) :: polls, s => vmProcessPollWaiters polls (completeQuietly s f v)

def vmWaitForNextIdleWork (s : Scheduler) : Option Scheduler :=
  if tick.pollWaiting then some (vmProcessPollWaiters tick.idlePolls (vmProcessExpiredTimers s tick.later))
  else if s.timerWaiters ≠ [] then some (vmProcessExpiredTimers s tick.later)
  else none

def handleError : LoopResult :=
  if vm.frame.isAsyncRoot then vmHandleAsyncFrameError cfg vm else .failed vm

def checkError : LoopResult → LoopResult
  | .running vm => if vm.error.isSome then handleError cfg vm else .running vm
  | result => result

def idle : LoopResult :=
  match vmWaitForNextIdleWork tick vm.sched with
  | some sched => .running { vm with sched }
  | none => .returned vm

def dispatch : LoopResult :=
  if vm.frames = [] then (vmResumeReadyTask cfg vm).getD (idle tick vm)
  else if vm.error.isSome then handleError cfg vm
  else (vmResumeReadyTask cfg vm).getD (checkError cfg (execute cfg tick.later vm tick.instruction))

/-- One turn of the loop of `vm_run_loop`. -/
def turn : LoopResult :=
  dispatch cfg tick { vm with sched := vmProcessExpiredTimers (vmProcessPollWaiters tick.polls vm.sched) tick.now }

end Tablo.Async
