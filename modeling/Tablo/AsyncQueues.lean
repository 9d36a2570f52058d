import Mathlib.Data.List.Perm.Basic
import Mathlib.Data.List.Nodup
import Mathlib.Data.List.Range
import Tablo.AsyncMoves

/-! Tasks between a suspension and the resumption that ends it: where they are,
in which order they leave, and with what. -/

namespace Tablo.Async

open List Event

section Histories

def Event.created? : Event → Option Nat
  | .spawned task => some task
  | .suspended task _ => some task
  | _ => none

def Event.enqueued? : Event → Option Nat
  | .enqueued task => some task
  | _ => none

def Event.resumed? : Event → Option Nat
  | .resumed task _ _ => some task
  | _ => none

def Event.suspendedOn? (f : Nat) : Event → Option Nat
  | .suspended task g => if g = f then some task else none
  | _ => none

def createdTasks (h : List Event) : List Nat := h.filterMap Event.created?
def enqueuedTasks (h : List Event) : List Nat := h.filterMap Event.enqueued?
def resumedTasks (h : List Event) : List Nat := h.filterMap Event.resumed?
def suspendedOn (h : List Event) (f : Nat) : List Nat := h.filterMap (Event.suspendedOn? f)

variable {h : List Event} {t f g : Nat}

@[simp] theorem createdTasks_append (h k : List Event) : createdTasks (h ++ k) = createdTasks h ++ createdTasks k :=
  filterMap_append

@[simp] theorem enqueuedTasks_append (h k : List Event) :
    enqueuedTasks (h ++ k) = enqueuedTasks h ++ enqueuedTasks k :=
  filterMap_append

@[simp] theorem resumedTasks_append (h k : List Event) : resumedTasks (h ++ k) = resumedTasks h ++ resumedTasks k :=
  filterMap_append

@[simp] theorem suspendedOn_append (h k : List Event) (f : Nat) :
    suspendedOn (h ++ k) f = suspendedOn h f ++ suspendedOn k f :=
  filterMap_append

theorem mem_suspendedOn : t ∈ suspendedOn h f ↔ Event.suspended t f ∈ h := by
  constructor
  · intro ht
    obtain ⟨e, he, heq⟩ := mem_filterMap.mp ht
    cases e with
    | suspended t' g =>
      by_cases hg : g = f
      · simp only [suspendedOn?, hg, if_true, Option.some.injEq] at heq
        rwa [← heq, ← hg]
      · simp [suspendedOn?, hg] at heq
    | _ => simp [suspendedOn?] at heq
  · intro hm
    exact mem_filterMap.mpr ⟨_, hm, by simp [suspendedOn?]⟩

theorem mem_createdTasks_of_suspended (hm : Event.suspended t f ∈ h) : t ∈ createdTasks h :=
  mem_filterMap.mpr ⟨_, hm, rfl⟩

theorem suspended_unique (hn : (createdTasks h).Nodup) (hf : Event.suspended t f ∈ h)
    (hg : Event.suspended t g ∈ h) : f = g := by
  induction h with
  | nil => simp at hf
  | cons e h ih =>
    have hcons : createdTasks (e :: h) = createdTasks [e] ++ createdTasks h := createdTasks_append [e] h
    rw [hcons, nodup_append] at hn
    have hone (k : Nat) (he : e = .suspended t k) (j : Nat) : Event.suspended t j ∉ h := by
      intro hj
      exact hn.2.2 t (by simp [createdTasks, he, created?]) t (mem_createdTasks_of_suspended hj) rfl
    rcases mem_cons.mp hf with hf | hf
    · rcases mem_cons.mp hg with hg | hg
      · have heq := hf.trans hg.symm
        exact (Event.suspended.inj heq).2
      · exact absurd hg (hone f hf.symm g)
    · rcases mem_cons.mp hg with hg | hg
      · exact absurd hf (hone g hg.symm f)
      · exact ih hn.2.1 hf hg

end Histories

variable {ws : List FutureWaitEntry} {f g : Nat} {task : AsyncTask}

def waitingTasks (ws : List FutureWaitEntry) : List Nat := ws.flatMap (·.tasks.map (·.id))

def entryTasks (ws : List FutureWaitEntry) (f : Nat) : List AsyncTask :=
  ((ws.find? (·.future = f)).map FutureWaitEntry.tasks).getD []

theorem entryTasks_cons (e : FutureWaitEntry) (ws : List FutureWaitEntry) (f : Nat) :
    entryTasks (e :: ws) f = if e.future = f then e.tasks else entryTasks ws f := by
  by_cases he : e.future = f <;> simp [entryTasks, he]

theorem mem_entryTasks (h : task ∈ entryTasks ws f) : ∃ e ∈ ws, e.future = f ∧ task ∈ e.tasks := by
  induction ws with
  | nil => simp [entryTasks] at h
  | cons e ws ih =>
    rw [entryTasks_cons] at h
    by_cases he : e.future = f
    · rw [if_pos he] at h
      exact ⟨e, by simp, he, h⟩
    · rw [if_neg he] at h
      obtain ⟨e', hm, hrest⟩ := ih h
      exact ⟨e', by simp [hm], hrest⟩

theorem entryTasks_of_notMem (h : f ∉ ws.map (·.future)) : entryTasks ws f = [] := by
  induction ws with
  | nil => rfl
  | cons e ws ih =>
    simp only [map_cons, mem_cons, not_or] at h
    rw [entryTasks_cons, if_neg (Ne.symm h.1), ih h.2]

theorem appendWaiter_futures (ws : List FutureWaitEntry) :
    (appendWaiter f task ws).map (·.future) = ws.map (·.future) := by
  induction ws with
  | nil => rfl
  | cons e ws ih =>
    rw [appendWaiter]
    split <;> simp [ih]

theorem entryTasks_appendWaiter (hf : f ∈ ws.map (·.future)) (g : Nat) :
    entryTasks (appendWaiter f task ws) g = if g = f then entryTasks ws f ++ [task] else entryTasks ws g := by
  induction ws with
  | nil => simp at hf
  | cons e ws ih =>
    rw [appendWaiter]
    by_cases he : e.future = f
    · by_cases hg : g = f
      · simp [entryTasks_cons, he, hg]
      · simp [entryTasks_cons, he, hg, Ne.symm hg]
    · have hf' : f ∈ ws.map (·.future) := by
        simpa [Ne.symm he] using hf
      rw [if_neg he, entryTasks_cons, entryTasks_cons, entryTasks_cons, ih hf']
      by_cases hg : g = f
      · simp [hg, he]
      · simp [hg]

theorem waitingTasks_appendWaiter (hf : f ∈ ws.map (·.future)) :
    (waitingTasks (appendWaiter f task ws)).Perm (waitingTasks ws ++ [task.id]) := by
  induction ws with
  | nil => simp at hf
  | cons e ws ih =>
    rw [appendWaiter]
    by_cases he : e.future = f
    · rw [if_pos he]
      simp only [waitingTasks, flatMap_cons, map_append, append_assoc]
      exact List.Perm.append_left _ perm_append_comm
    · have hf' : f ∈ ws.map (·.future) := by
        simpa [Ne.symm he] using hf
      rw [if_neg he]
      simp only [waitingTasks, flatMap_cons, append_assoc]
      exact List.Perm.append_left _ (ih hf')

theorem mem_appendWaiter {e : FutureWaitEntry} (h : e ∈ appendWaiter f task ws) :
    ∃ e' ∈ ws, e'.future = e.future ∧ ∀ t ∈ e.tasks, t ∈ e'.tasks ∨ e.future = f ∧ t = task := by
  induction ws with
  | nil => simp [appendWaiter] at h
  | cons e₀ ws ih =>
    rw [appendWaiter] at h
    split at h
    next he =>
      rcases mem_cons.mp h with rfl | hm
      · refine ⟨e₀, by simp, rfl, ?_⟩
        intro t ht
        rcases mem_append.mp ht with ht | ht
        · exact .inl ht
        · exact .inr ⟨he, mem_singleton.mp ht⟩
      · exact ⟨e, by simp [hm], rfl, fun t ht => .inl ht⟩
    next =>
      rcases mem_cons.mp h with rfl | hm
      · exact ⟨e, by simp, rfl, fun t ht => .inl ht⟩
      · obtain ⟨e', hm', hrest⟩ := ih hm
        exact ⟨e', by simp [hm'], hrest⟩

theorem waitingTasks_eraseP (ws : List FutureWaitEntry) (f : Nat) :
    (waitingTasks ws).Perm ((entryTasks ws f).map (·.id) ++ waitingTasks (ws.eraseP (·.future = f))) := by
  induction ws with
  | nil => exact .refl _
  | cons e ws ih =>
    rw [entryTasks_cons]
    by_cases he : e.future = f
    · rw [if_pos he, eraseP_cons_of_pos (by simpa using he)]
      exact .refl _
    · rw [if_neg he, eraseP_cons_of_neg (by simpa using he)]
      exact (List.Perm.append_left _ ih).trans (perm_append_comm_assoc _ _ _)

theorem notMem_eraseP (hn : (ws.map (·.future)).Nodup) : f ∉ (ws.eraseP (·.future = f)).map (·.future) := by
  induction ws with
  | nil => simp
  | cons e ws ih =>
    obtain ⟨he', hn'⟩ := nodup_cons.mp hn
    by_cases he : e.future = f
    · rw [eraseP_cons_of_pos (by simpa using he), ← he]
      exact he'
    · rw [eraseP_cons_of_neg (by simpa using he)]
      simp only [map_cons, mem_cons, not_or]
      exact ⟨Ne.symm he, ih hn'⟩

theorem entryTasks_eraseP (hg : g ≠ f) (ws : List FutureWaitEntry) :
    entryTasks (ws.eraseP (·.future = f)) g = entryTasks ws g := by
  induction ws with
  | nil => rfl
  | cons e ws ih =>
    by_cases he : e.future = f
    · rw [eraseP_cons_of_pos (by simpa using he), entryTasks_cons, if_neg (by rw [he]; exact Ne.symm hg)]
    · rw [eraseP_cons_of_neg (by simpa using he), entryTasks_cons, entryTasks_cons, ih]

def Outcome (futures : List FutureState) (f : Nat) (value : Option Value) (panic : Option String) : Prop :=
  (∃ v, futures[f]? = some (.resolved v) ∧ value = some v ∧ panic = none) ∨
    ∃ m, futures[f]? = some (.panicked m) ∧ value = none ∧ panic = some m

/-- A spawned task starts with nothing, one that waited gets the outcome of the
future it waited for. -/
def Delivers (s : Scheduler) (t : Nat) (value : Option Value) (panic : Option String) : Prop :=
  Event.spawned t ∈ s.history ∧ value = none ∧ panic = none ∨
    ∃ f, Event.suspended t f ∈ s.history ∧ Outcome s.futures f value panic

/-- Where the tasks are. Those that were created and not resumed are in the
ready queue or with one future that is pending, each of them once. -/
structure Queues (s : Scheduler) : Prop where
  created : createdTasks s.history = List.range s.taskCount
  places : (enqueuedTasks s.history ++ waitingTasks s.futureWaiters).Perm (List.range s.taskCount)
  fifo : enqueuedTasks s.history = resumedTasks s.history ++ s.readyTasks.map (·.id)
  entries : (s.futureWaiters.map (·.future)).Nodup
  pending : ∀ e ∈ s.futureWaiters, s.futures[e.future]? = some .pending
  waiting : ∀ e ∈ s.futureWaiters, ∀ task ∈ e.tasks, Event.suspended task.id e.future ∈ s.history ∧
    task.resumeValue = none ∧ task.resumePanic = none
  order : ∀ f, suspendedOn s.history f =
    (enqueuedTasks s.history).filter (· ∈ suspendedOn s.history f) ++ (s.waitersOf f).map (·.id)
  ready : ∀ task ∈ s.readyTasks, Delivers s task.id task.resumeValue task.resumePanic
  resumed : ∀ t value panic, Event.resumed t value panic ∈ s.history → Delivers s t value panic

variable {due : Int → Prop} {s s' : Scheduler} {state : FutureState}

theorem Delivers.mono (hh : s.history ⊆ s'.history)
    (hf : ∀ (f : Nat) (state : FutureState), state ≠ .pending → s.futures[f]? = some state →
      s'.futures[f]? = some state) (t : Nat) (value : Option Value) (panic : Option String)
    (h : Delivers s t value panic) : Delivers s' t value panic := by
  rcases h with ⟨hs, hv, hp⟩ | ⟨f, hs, ⟨v, hstate, hv, hp⟩ | ⟨m, hstate, hv, hp⟩⟩
  · exact .inl ⟨hh hs, hv, hp⟩
  · exact .inr ⟨f, hh hs, .inl ⟨v, hf f _ (by simp) hstate, hv, hp⟩⟩
  · exact .inr ⟨f, hh hs, .inr ⟨m, hf f _ (by simp) hstate, hv, hp⟩⟩

theorem mem_createdTasks_of_mem_suspendedOn {h : List Event} {t : Nat} (ht : t ∈ suspendedOn h f) :
    t ∈ createdTasks h :=
  mem_createdTasks_of_suspended (mem_suspendedOn.mp ht)

/-- What an operation with the events `es` has to do for the queues: complete futures stay so, and
what is new in one place is recorded or comes from another. -/
structure Extends (s s' : Scheduler) (es : List Event) : Prop where
  history : s'.history = s.history ++ es
  kept : ∀ (f : Nat) (state : FutureState), state ≠ .pending → s.futures[f]? = some state →
    s'.futures[f]? = some state
  created : List.range s'.taskCount = List.range s.taskCount ++ createdTasks es
  places : (enqueuedTasks es ++ waitingTasks s'.futureWaiters).Perm
    (waitingTasks s.futureWaiters ++ createdTasks es)
  fifo : s.readyTasks.map (·.id) ++ enqueuedTasks es = resumedTasks es ++ s'.readyTasks.map (·.id)
  entries : (s'.futureWaiters.map (·.future)).Nodup
  pending : ∀ e ∈ s'.futureWaiters, s'.futures[e.future]? = some .pending
  waiting : ∀ e ∈ s'.futureWaiters, ∀ task ∈ e.tasks,
    (∃ e' ∈ s.futureWaiters, e'.future = e.future ∧ task ∈ e'.tasks) ∨
      Event.suspended task.id e.future ∈ es ∧ task.resumeValue = none ∧ task.resumePanic = none
  order : ∀ f, (s.waitersOf f).map (·.id) ++ suspendedOn es f =
    (enqueuedTasks es).filter (· ∈ suspendedOn s.history f ++ suspendedOn es f) ++ (s'.waitersOf f).map (·.id)
  ready : ∀ task ∈ s'.readyTasks, task ∈ s.readyTasks ∨ Delivers s' task.id task.resumeValue task.resumePanic
  resumed : ∀ t value panic, Event.resumed t value panic ∈ es → Delivers s t value panic

def Event.Quiet : Event → Prop
  | .slept _ _ => True
  | .expired _ => True
  | _ => False

theorem Event.Quiet.unread {e : Event} (h : e.Quiet) :
    e.created? = none ∧ e.enqueued? = none ∧ e.resumed? = none ∧ ∀ f, e.suspendedOn? f = none := by
  cases e <;> first | exact h.elim | exact ⟨rfl, rfl, rfl, fun _ => rfl⟩

theorem vmEnqueueFutureWaiter_spec (s : Scheduler) (f : Nat) (task : AsyncTask)
    (hn : (s.futureWaiters.map (·.future)).Nodup) :
    ∃ ws, vmEnqueueFutureWaiter s f task = { s with futureWaiters := ws } ∧ (ws.map (·.future)).Nodup ∧
      (waitingTasks ws).Perm (waitingTasks s.futureWaiters ++ [task.id]) ∧
      (∀ g, entryTasks ws g =
        if g = f then entryTasks s.futureWaiters f ++ [task] else entryTasks s.futureWaiters g) ∧
      ∀ e ∈ ws, (e.future = f ∨ ∃ e' ∈ s.futureWaiters, e'.future = e.future) ∧
        ∀ t ∈ e.tasks, (∃ e' ∈ s.futureWaiters, e'.future = e.future ∧ t ∈ e'.tasks) ∨ e.future = f ∧ t = task := by
  cases he : vmFindFutureWaitEntry s f with
  | none =>
    have hnot : f ∉ s.futureWaiters.map (·.future) := by
      have hne : ∀ e ∈ s.futureWaiters, ¬ e.future = f := by simpa [vmFindFutureWaitEntry] using he
      intro hm
      obtain ⟨e, hm, hef⟩ := mem_map.mp hm
      exact hne e hm hef
    have hperm : ([task.id] ++ waitingTasks s.futureWaiters).Perm (waitingTasks s.futureWaiters ++ [task.id]) :=
      perm_append_comm
    refine ⟨⟨f, [task]⟩ :: s.futureWaiters, by rw [vmEnqueueFutureWaiter, he], nodup_cons.mpr ⟨hnot, hn⟩,
      hperm, ?_, ?_⟩
    · intro g
      rw [entryTasks_cons, entryTasks_of_notMem hnot]
      simp [eq_comm]
    · intro e hm
      rcases mem_cons.mp hm with rfl | hm
      · exact ⟨.inl rfl, fun t ht => .inr ⟨rfl, mem_singleton.mp ht⟩⟩
      · exact ⟨.inr ⟨e, hm, rfl⟩, fun t ht => .inl ⟨e, hm, rfl, ht⟩⟩
  | some entry =>
    have hmem : f ∈ s.futureWaiters.map (·.future) := by
      have hfound := find?_some he
      exact mem_map.mpr ⟨entry, mem_of_find?_eq_some he, by simpa using hfound⟩
    refine ⟨appendWaiter f task s.futureWaiters, by rw [vmEnqueueFutureWaiter, he],
      by rw [appendWaiter_futures]; exact hn, waitingTasks_appendWaiter hmem, entryTasks_appendWaiter hmem, ?_⟩
    intro e hm
    obtain ⟨e', hm', hfut, htasks⟩ := mem_appendWaiter hm
    refine ⟨.inr ⟨e', hm', hfut⟩, fun t ht => ?_⟩
    rcases htasks t ht with ht | ht
    · exact .inl ⟨e', hm', hfut, ht⟩
    · exact .inr ht

theorem futures_extend {futures : List FutureState} (extra : List FutureState)
    (hf : futures[f]? = some state) : (futures ++ extra)[f]? = some state := by
  have hlt := (List.getElem?_eq_some_iff.mp hf).1
  rw [getElem?_append_left hlt, hf]

variable (h : Queues s)

include h

theorem Queues.lt_of_enqueued {t : Nat} (ht : t ∈ enqueuedTasks s.history) : t < s.taskCount :=
  mem_range.mp (h.places.subset (mem_append_left _ ht))

theorem Queues.extend {es : List Event} (hx : Extends s s' es) : Queues s' := by
  have hsub : s.history ⊆ s'.history := by simp [hx.history]
  have hmono := Delivers.mono hsub hx.kept
  refine ⟨?_, ?_, ?_, hx.entries, hx.pending, ?_, ?_, ?_, ?_⟩
  · rw [hx.history, createdTasks_append, h.created, hx.created]
  · rw [hx.history, enqueuedTasks_append, hx.created, append_assoc]
    refine (List.Perm.append_left _ hx.places).trans ?_
    rw [← append_assoc]
    exact List.Perm.append_right _ h.places
  · rw [hx.history, enqueuedTasks_append, resumedTasks_append, h.fifo, append_assoc, hx.fifo, append_assoc]
  · intro e he task ht
    rcases hx.waiting e he task ht with ⟨e', he', hf, ht'⟩ | ⟨hs, hrest⟩
    · obtain ⟨hs, hrest⟩ := h.waiting e' he' task ht'
      exact ⟨hsub (hf ▸ hs), hrest⟩
    · exact ⟨by simp [hx.history, hs], hrest⟩
  · intro f
    -- a task that is new was not enqueued before
    have hfilter : (enqueuedTasks s.history).filter (· ∈ suspendedOn s.history f ++ suspendedOn es f) =
        (enqueuedTasks s.history).filter (· ∈ suspendedOn s.history f) := by
      refine filter_congr fun t ht => ?_
      have hnew : t ∉ suspendedOn es f := by
        intro hm
        have hn : (List.range s'.taskCount).Nodup := nodup_range
        rw [hx.created, nodup_append] at hn
        exact hn.2.2 t (mem_range.mpr (h.lt_of_enqueued ht)) t (mem_createdTasks_of_mem_suspendedOn hm) rfl
      simp [hnew]
    rw [hx.history, suspendedOn_append, enqueuedTasks_append, filter_append, hfilter, append_assoc, ← hx.order f,
      ← append_assoc, ← h.order f]
  · intro task ht
    rcases hx.ready task ht with ht | hd
    · exact hmono _ _ _ (h.ready task ht)
    · exact hd
  · intro t value panic hm
    rw [hx.history, mem_append] at hm
    rcases hm with hm | hm
    · exact hmono _ _ _ (h.resumed t value panic hm)
    · exact hmono _ _ _ (hx.resumed t value panic hm)

/-- Futures, timers and the clock are no part of the queues as long as what is
complete stays so. -/
theorem Queues.of_quiet (es : List Event) (hq : ∀ e ∈ es, e.Quiet)
    (hh : s'.history = s.history ++ es) (hw : s'.futureWaiters = s.futureWaiters)
    (hr : s'.readyTasks = s.readyTasks) (hc : s'.taskCount = s.taskCount)
    (hf : ∀ (f : Nat) (state : FutureState), s.futures[f]? = some state → s'.futures[f]? = some state) :
    Queues s' := by
  have hcreated : createdTasks es = [] := filterMap_eq_nil_iff.mpr fun e he => (hq e he).unread.1
  have henq : enqueuedTasks es = [] := filterMap_eq_nil_iff.mpr fun e he => (hq e he).unread.2.1
  have hres : resumedTasks es = [] := filterMap_eq_nil_iff.mpr fun e he => (hq e he).unread.2.2.1
  have hsus (f : Nat) : suspendedOn es f = [] := filterMap_eq_nil_iff.mpr fun e he => (hq e he).unread.2.2.2 f
  have hwf (f : Nat) : s'.waitersOf f = s.waitersOf f := by rw [Scheduler.waitersOf, vmFindFutureWaitEntry, hw]; rfl
  refine h.extend ⟨hh, fun f state _ => hf f state, by rw [hc, hcreated, append_nil], ?_, by simp [henq, hres, hr],
    by rw [hw]; exact h.entries, fun e he => hf _ _ (h.pending e (hw ▸ he)),
    fun e he task ht => .inl ⟨e, hw ▸ he, rfl, ht⟩, fun f => by simp [henq, hsus, hwf],
    fun task ht => .inl (hr ▸ ht), fun t value panic hm => (hq _ hm).elim⟩
  rw [henq, hcreated, hw, append_nil]
  exact .refl _

theorem Queues.not_suspended (hn : task.New s) (f : Nat) : task.id ∉ suspendedOn s.history f := by
  intro hm
  have hc := mem_createdTasks_of_mem_suspendedOn hm
  rw [h.created, mem_range, hn.id] at hc
  exact hc.false

theorem Queues.spawn (hn : task.New s) : Queues (s.spawn task) := by
  have hhist : (s.spawn task).history = s.history ++ [.spawned task.id, .enqueued task.id] := by
    simp [Scheduler.spawn, vmEnqueueReadyTask, Scheduler.emit]
  refine h.extend ⟨hhist, fun f state _ hs => hs, ?_, perm_append_comm, ?_, h.entries, h.pending,
    fun e he task' ht => .inl ⟨e, he, rfl, ht⟩, fun f => ?_, fun task' ht => ?_, by simp⟩
  · rw [hn.id]
    exact range_succ
  · change _ ++ [task.id] = ((s.readyTasks ++ [task]).map (·.id))
    rw [map_append]
    rfl
  · have hsus : suspendedOn [.spawned task.id, .enqueued task.id] f = [] := rfl
    have henq : enqueuedTasks [.spawned task.id, .enqueued task.id] = [task.id] := rfl
    have hwf : (s.spawn task).waitersOf f = s.waitersOf f := rfl
    simp [hsus, henq, hwf, h.not_suspended hn f]
  · rcases mem_append.mp ht with ht | ht
    · exact .inl ht
    · obtain rfl := mem_singleton.mp ht
      exact .inr (.inl ⟨by simp [hhist], hn.value, hn.panic⟩)

theorem Queues.suspend (hn : task.New s) (hp : s.futures[f]? = some .pending) : Queues (s.suspend f task) := by
  obtain ⟨ws, heq, hnodup, hperm, hentry, hmem⟩ := vmEnqueueFutureWaiter_spec
    ({ s with taskCount := s.taskCount + 1 }.emit (.suspended task.id f)) f task h.entries
  have hs' : s.suspend f task = { s with
      taskCount := s.taskCount + 1
      history := s.history ++ [.suspended task.id f]
      futureWaiters := ws } := heq
  rw [hs']
  refine h.extend ⟨rfl, fun g state _ hg => hg, ?_, hperm, append_nil _, hnodup, ?_, ?_, fun g => ?_,
    fun task' ht => .inl ht, by simp⟩
  · rw [hn.id]
    exact range_succ
  · intro e he
    rcases (hmem e he).1 with hf | ⟨e', he', hf⟩
    · rw [hf]
      exact hp
    · rw [← hf]
      exact h.pending e' he'
  · intro e he task' ht
    rcases (hmem e he).2 task' ht with hold | ⟨hf, rfl⟩
    · exact .inl hold
    · exact .inr ⟨by simp [hf], hn.value, hn.panic⟩
  · change (entryTasks s.futureWaiters g).map _ ++ _ = [] ++ (entryTasks ws g).map _
    have hentry : entryTasks ws g =
        if g = f then entryTasks s.futureWaiters f ++ [task] else entryTasks s.futureWaiters g := hentry g
    rw [hentry]
    by_cases hg : g = f
    · simp [hg, suspendedOn, suspendedOn?]
    · simp [hg, Ne.symm hg, suspendedOn, suspendedOn?]

theorem Queues.complete (hp : s.futures[f]? = some .pending)
    (hr : state ≠ .pending) : Queues (s.complete f state) := by
  have hlt : f < s.futures.length := (List.getElem?_eq_some_iff.mp hp).1
  have henq : enqueuedTasks ((s.waitersOf f).map (Event.enqueued ·.id)) = (s.waitersOf f).map (·.id) := by
    simp [enqueuedTasks, Function.comp_def, enqueued?]
  have hnone (read : Event → Option Nat) (hread : ∀ t, read (.enqueued t) = none) :
      ((s.waitersOf f).map (Event.enqueued ·.id)).filterMap read = [] := by
    simp [hread]
  have hcreated : createdTasks ((s.waitersOf f).map (Event.enqueued ·.id)) = [] := hnone _ fun _ => rfl
  have hres : resumedTasks ((s.waitersOf f).map (Event.enqueued ·.id)) = [] := hnone _ fun _ => rfl
  have hsus (g : Nat) : suspendedOn ((s.waitersOf f).map (Event.enqueued ·.id)) g = [] := hnone _ fun _ => rfl
  have hwait (task : AsyncTask) (ht : task ∈ s.waitersOf f) : Event.suspended task.id f ∈ s.history ∧
      task.resumeValue = none ∧ task.resumePanic = none := by
    obtain ⟨e, he, hef, hte⟩ := mem_entryTasks ht
    exact hef ▸ h.waiting e he task hte
  refine h.extend ⟨rfl, ?_, by rw [hcreated, append_nil]; rfl, ?_, ?_,
    h.entries.sublist (eraseP_sublist.map _), ?_, fun e he task ht => .inl ⟨e, mem_of_mem_eraseP he, rfl, ht⟩,
    ?_, ?_, by simp⟩
  · intro g st hst hg
    have hne : f ≠ g := by
      rintro rfl
      exact hst (Option.some.inj (hg.symm.trans hp))
    simpa [Scheduler.complete, getElem?_set_ne hne] using hg
  · rw [henq, hcreated, append_nil]
    exact (waitingTasks_eraseP s.futureWaiters f).symm
  · rw [henq, hres]
    simp [Scheduler.complete]
  · intro e he
    have hne : f ≠ e.future := fun heq => notMem_eraseP h.entries (heq ▸ mem_map.mpr ⟨e, he, rfl⟩)
    rw [Scheduler.complete, getElem?_set_ne hne]
    exact h.pending e (mem_of_mem_eraseP he)
  · intro g
    have hnew : (s.complete f state).waitersOf g = entryTasks (s.futureWaiters.eraseP (·.future = f)) g := rfl
    rw [hsus, henq, hnew, append_nil, append_nil]
    by_cases hg : g = f
    · subst hg
      have hall : ((s.waitersOf g).map (·.id)).filter (· ∈ suspendedOn s.history g) = (s.waitersOf g).map (·.id) := by
        refine filter_eq_self.mpr fun t ht => ?_
        obtain ⟨task, htask, rfl⟩ := mem_map.mp ht
        simpa using mem_suspendedOn.mpr (hwait task htask).1
      rw [hall, entryTasks_of_notMem (notMem_eraseP h.entries), map_nil, append_nil]
    · have hempty : ((s.waitersOf f).map (·.id)).filter (· ∈ suspendedOn s.history g) = [] := by
        refine filter_eq_nil_iff.mpr fun t ht hm => ?_
        obtain ⟨task, htask, rfl⟩ := mem_map.mp ht
        have hcreated : (createdTasks s.history).Nodup := h.created ▸ nodup_range
        exact hg (suspended_unique hcreated (mem_suspendedOn.mp (of_decide_eq_true hm)) (hwait task htask).1)
      rw [hempty, nil_append, entryTasks_eraseP hg]
      rfl
  · intro task' ht
    rcases mem_append.mp ht with ht | ht
    · exact .inl ht
    · obtain ⟨task, htask, rfl⟩ := mem_map.mp ht
      obtain ⟨hs, hv, hpanic⟩ := hwait task htask
      refine .inr (.inr ⟨f, by rw [AsyncTask.wake_id]; exact mem_append_left _ hs, ?_⟩)
      cases state with
      | pending => exact absurd rfl hr
      | resolved v => exact .inl ⟨v, by simp [Scheduler.complete, hlt], rfl, hpanic⟩
      | panicked m => exact .inr ⟨m, by simp [Scheduler.complete, hlt], hv, rfl⟩

theorem Queues.resume {rest : List AsyncTask} (hq : s.readyTasks = task :: rest) : Queues (s.resume task rest) := by
  refine h.extend ⟨rfl, fun f state _ hs => hs, (append_nil _).symm, ?_, ?_, h.entries, h.pending,
    fun e he task' ht => .inl ⟨e, he, rfl, ht⟩, fun f => append_nil _, fun task' ht => .inl ?_, ?_⟩
  · exact .of_eq (append_nil _).symm
  · rw [hq]
    exact append_nil _
  · rw [hq]
    exact mem_cons_of_mem _ ht
  · intro t value panic hm
    obtain ⟨rfl, rfl, rfl⟩ := Event.resumed.inj (mem_singleton.mp hm)
    exact h.ready task (by simp [hq])

theorem Queues.move (hm : Move due s s') : Queues s' := by
  cases hm with
  | create state =>
    exact h.of_quiet [] (by simp) (by simp [objFutureCreate]) rfl rfl rfl fun f st hf => futures_extend _ hf
  | spawn task hn => exact h.spawn hn
  | suspend f task hn hp => exact h.suspend hn hp
  | complete f state hp hr => exact h.complete hp hr
  | resume task rest hq => exact h.resume hq
  | sleep now delayMs hc hd hb =>
    rw [vmFutureSleep, if_neg (by omega)]
    exact h.of_quiet [.slept s.futures.length (now + delayMs)] (by simp [Quiet]) rfl rfl rfl rfl
      fun f st hf => futures_extend _ hf
  | expire t ts ht hd =>
    have hquiet : Queues ({ s with timerWaiters := ts }.emit (.expired t.future)) :=
      h.of_quiet [.expired t.future] (by simp [Quiet]) rfl rfl rfl rfl fun f st hf => hf
    rw [Scheduler.expire]
    rcases completeQuietly_cases ({ s with timerWaiters := ts }.emit (.expired t.future)) t.future .nil with
      ⟨hp, heq⟩ | ⟨_, heq⟩
    · rw [heq]
      exact hquiet.complete hp (by simp)
    · rwa [heq]
  | read now hc => exact h.of_quiet [] (by simp) (by simp) rfl rfl rfl fun f st hf => hf

theorem Queues.moves (hm : Moves due s s') : Queues s' := by
  induction hm with
  | refl => exact h
  | tail _ hm ih => exact ih.move hm

end Tablo.Async
