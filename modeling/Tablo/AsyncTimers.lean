import Mathlib.Algebra.Order.Ring.Int
import Tablo.AsyncQueues

/-! Timers expire in the order in which they are due, and those that are due at
the same time in the order of their creation, as long as the time at which a
sleep ends is a 64-bit number. -/

namespace Tablo.Async

open List

def Event.expired? : Event → Option Nat
  | .expired f => some f
  | _ => none

def expirations (h : List Event) : List Nat := h.filterMap Event.expired?

@[simp] theorem expirations_append (h k : List Event) : expirations (h ++ k) = expirations h ++ expirations k :=
  filterMap_append

def Representable (due : Int) : Prop := due < 9223372036854775808

def TimerWaitEntry.Before (t u : TimerWaitEntry) : Prop :=
  t.deadlineMs < u.deadlineMs ∨ t.deadlineMs = u.deadlineMs ∧ t.future < u.future

/-- The timers that have expired, in the order in which they did, followed by
those that have not are sorted. -/
structure Timeline (s : Scheduler) (past : List TimerWaitEntry) : Prop where
  expired : expirations s.history = past.map (·.future)
  slept : ∀ t ∈ past ++ s.timerWaiters, Event.slept t.future t.deadlineMs ∈ s.history
  sorted : (past ++ s.timerWaiters).Pairwise TimerWaitEntry.Before
  due : ∀ t ∈ past, t.deadlineMs ≤ s.clock
  known : ∀ f due, Event.slept f due ∈ s.history → f < s.futures.length
  unique : ∀ f a b, Event.slept f a ∈ s.history → Event.slept f b ∈ s.history → a = b
  clock : 0 ≤ s.clock
  done : ∀ t ∈ past, s.futures[t.future]? ≠ some .pending

variable {s s' : Scheduler} {past ts : List TimerWaitEntry} {entry t : TimerWaitEntry}

def Event.Untimed : Event → Prop
  | .slept _ _ => False
  | .expired _ => False
  | _ => True

theorem untimed_enqueued (tasks : List AsyncTask) : ∀ e ∈ tasks.map (Event.enqueued ·.id), e.Untimed := by
  intro e he
  obtain ⟨task, _, rfl⟩ := mem_map.mp he
  trivial

theorem expirations_untimed {es : List Event} (hu : ∀ e ∈ es, e.Untimed) : expirations es = [] := by
  refine filterMap_eq_nil_iff.mpr fun e he => ?_
  have hun := hu e he
  cases e <;> first | rfl | exact hun.elim

/-- What an operation with the events `es` has to do for the timers if those in `gone` expire. -/
theorem Timeline.extend (h : Timeline s past) (gone : List TimerWaitEntry) (es : List Event)
    (hh : s'.history = s.history ++ es) (hs : ∀ f due, Event.slept f due ∉ es)
    (hx : expirations es = gone.map (·.future)) (ht : s.timerWaiters = gone ++ s'.timerWaiters)
    (hd : ∀ t ∈ gone, t.deadlineMs ≤ s.clock) (hc : s.clock ≤ s'.clock) (hl : s.futures.length ≤ s'.futures.length)
    (hf : ∀ f, f < s.futures.length → s.futures[f]? ≠ some .pending → s'.futures[f]? ≠ some .pending)
    (hdone : ∀ t ∈ gone, s'.futures[t.future]? ≠ some .pending) : Timeline s' (past ++ gone) := by
  have hall : past ++ gone ++ s'.timerWaiters = past ++ s.timerWaiters := by rw [ht, append_assoc]
  have hslept (f : Nat) (due : Int) : Event.slept f due ∈ s'.history ↔ Event.slept f due ∈ s.history := by
    rw [hh, mem_append, or_iff_left (hs f due)]
  refine ⟨?_, ?_, by rw [hall]; exact h.sorted, ?_, ?_, ?_, h.clock.trans hc, ?_⟩
  · rw [hh, expirations_append, h.expired, hx, map_append]
  · intro t hm
    rw [hall] at hm
    exact (hslept _ _).mpr (h.slept t hm)
  · intro t hm
    exact ((mem_append.mp hm).elim (h.due t) (hd t)).trans hc
  · intro f due hm
    exact (h.known f due ((hslept _ _).mp hm)).trans_le hl
  · intro f a b ha hb
    exact h.unique f a b ((hslept _ _).mp ha) ((hslept _ _).mp hb)
  · intro t hm
    rcases mem_append.mp hm with hm | hm
    · exact hf _ (h.known _ _ (h.slept t (mem_append_left _ hm))) (h.done t hm)
    · exact hdone t hm

theorem Timeline.of_untimed (h : Timeline s past) (es : List Event) (hu : ∀ e ∈ es, e.Untimed)
    (hh : s'.history = s.history ++ es) (ht : s'.timerWaiters = s.timerWaiters) (hc : s.clock ≤ s'.clock)
    (hl : s.futures.length ≤ s'.futures.length)
    (hf : ∀ f, f < s.futures.length → s.futures[f]? ≠ some .pending → s'.futures[f]? ≠ some .pending) :
    Timeline s' past := by
  have hx := h.extend [] es hh (fun f due => hu _) (expirations_untimed hu) ht.symm (by simp) hc hl hf (by simp)
  rwa [append_nil] at hx

theorem mem_insertTimer : t ∈ insertTimer entry ts ↔ t = entry ∨ t ∈ ts := by
  induction ts with
  | nil => simp [insertTimer]
  | cons u ts ih =>
    rw [insertTimer]
    split
    · rw [mem_cons, mem_cons]
      tauto
    · rw [mem_cons]

theorem sorted_insertTimer (hs : ts.Pairwise TimerWaitEntry.Before) (hnew : ∀ t ∈ ts, t.future < entry.future) :
    (insertTimer entry ts).Pairwise TimerWaitEntry.Before := by
  induction ts with
  | nil => simp [insertTimer]
  | cons u ts ih =>
    obtain ⟨hu, hs'⟩ := pairwise_cons.mp hs
    rw [insertTimer]
    split
    next hle =>
      refine pairwise_cons.mpr ⟨?_, ih hs' fun t ht => hnew t (mem_cons_of_mem _ ht)⟩
      intro t ht
      rcases mem_insertTimer.mp ht with rfl | ht
      · have := hnew u mem_cons_self
        rcases lt_or_eq_of_le hle with hlt | heq
        · exact .inl hlt
        · exact .inr ⟨heq, this⟩
      · exact hu t ht
    next hlt =>
      refine pairwise_cons.mpr ⟨?_, hs⟩
      intro t ht
      have hut : u.deadlineMs ≤ t.deadlineMs := by
        rcases mem_cons.mp ht with rfl | ht
        · exact le_refl _
        · rcases hu t ht with h | h
          · exact h.le
          · exact h.1.le
      exact .inl (by omega)

theorem addInt64_eq {a b : Int} (ha : 0 ≤ a) (hb : 0 < b) (hr : Representable (a + b)) : addInt64 a b = a + b := by
  have : a + b < 9223372036854775808 := hr
  rw [addInt64, Int.bmod_def]
  omega

theorem Timeline.sleep (h : Timeline s past) {now delayMs : Int} (hc : s.clock ≤ now) (hd : 0 < delayMs)
    (hb : Representable (now + delayMs)) : Timeline (vmFutureSleep s now delayMs) past := by
  have hclock := h.clock
  have hadd := addInt64_eq (hclock.trans hc) hd hb
  rw [vmFutureSleep, if_neg (by omega)]
  have hhist : ∀ f due, Event.slept f due ∈ s.history ++ [Event.slept s.futures.length (now + delayMs)] ↔
      Event.slept f due ∈ s.history ∨ f = s.futures.length ∧ due = now + delayMs := by
    simp
  refine ⟨?_, ?_, ?_, ?_, ?_, ?_, hclock.trans hc, ?_⟩
  · have hexp : expirations (s.history ++ [Event.slept s.futures.length (now + delayMs)]) = expirations s.history := by
      rw [expirations_append]
      exact append_nil _
    exact hexp.trans h.expired
  · intro t ht
    refine (hhist _ _).mpr ?_
    rcases mem_append.mp ht with ht | ht
    · exact .inl (h.slept t (mem_append_left _ ht))
    · rcases mem_insertTimer.mp ht with rfl | ht
      · exact .inr ⟨rfl, hadd⟩
      · exact .inl (h.slept t (mem_append_right _ ht))
  · obtain ⟨hpast, hwait, hacross⟩ := pairwise_append.mp h.sorted
    refine pairwise_append.mpr ⟨hpast, sorted_insertTimer hwait ?_, ?_⟩
    · intro t ht
      exact h.known _ _ (h.slept t (mem_append_right _ ht))
    · intro t ht u hu
      rcases mem_insertTimer.mp hu with rfl | hu
      · -- it has expired, so it was due before the sleep began
        have hexp := h.due t ht
        have hlt : t.deadlineMs < addInt64 now delayMs := by omega
        exact .inl hlt
      · exact hacross t ht u hu
  · intro t ht
    exact (h.due t ht).trans hc
  · intro f due hm
    have hlen : (s.futures ++ [FutureState.pending]).length = s.futures.length + 1 := by simp
    refine hlen ▸ ?_
    rcases (hhist f due).mp hm with hm | ⟨rfl, _⟩
    · exact Nat.lt_succ_of_lt (h.known f due hm)
    · exact Nat.lt_succ_self _
  · intro f a b ha hb
    rcases (hhist f a).mp ha with ha | ⟨hf, ha⟩
    · rcases (hhist f b).mp hb with hb | ⟨hf', _⟩
      · exact h.unique f a b ha hb
      · exact absurd (h.known f a ha) (by omega)
    · rcases (hhist f b).mp hb with hb | ⟨_, hb⟩
      · exact absurd (h.known f b hb) (by omega)
      · rw [ha, hb]
  · intro t ht
    have hlt := h.known _ _ (h.slept t (mem_append_left _ ht))
    have hget : (s.futures ++ [FutureState.pending])[t.future]? = s.futures[t.future]? :=
      getElem?_append_left hlt
    exact fun hp => h.done t ht (hget ▸ hp)

theorem set_ne_pending {futures : List FutureState} {f g : Nat} {state : FutureState} (hr : state ≠ .pending)
    (hg : futures[g]? ≠ some .pending) : (futures.set f state)[g]? ≠ some .pending := by
  rw [getElem?_set]
  split_ifs
  · simp [hr]
  · simp
  · exact hg

section

variable (h : Timeline s past)

include h

theorem Timeline.complete {f : Nat} {state : FutureState} (hr : state ≠ .pending) :
    Timeline (s.complete f state) past := by
  exact h.of_untimed _ (untimed_enqueued (s.waitersOf f)) rfl rfl (le_refl _)
    (by simp [Scheduler.complete]) fun g _ hg => set_ne_pending hr hg

theorem Timeline.expire (ht : s.timerWaiters = t :: ts) (hd : t.deadlineMs ≤ s.clock) : Timeline (s.expire t ts)
    (past ++ [t]) := by
  rw [Scheduler.expire]
  rcases completeQuietly_cases ({ s with timerWaiters := ts }.emit (.expired t.future)) t.future .nil with
    ⟨hp, heq⟩ | ⟨hp, heq⟩
  · have hlt : t.future < s.futures.length := (List.getElem?_eq_some_iff.mp hp).1
    rw [heq]
    refine h.extend [t] _ (append_assoc _ [Event.expired t.future] _) (by simp) ?_ ht (by simpa using hd) (le_refl _)
      (by simp [Scheduler.complete, Scheduler.emit]) (fun g _ hg => set_ne_pending (by simp) hg)
      (by simp [Scheduler.complete, Scheduler.emit, hlt])
    exact congrArg (t.future :: ·) (expirations_untimed (untimed_enqueued _))
  · rw [heq]
    exact h.extend [t] [.expired t.future] rfl (by simp) rfl ht (by simpa using hd) (le_refl _) (le_refl _)
      (fun g _ hg => hg) (by simpa using hp)

theorem Timeline.of_same (es : List Event) (hu : ∀ e ∈ es, e.Untimed)
    (hh : s'.history = s.history ++ es) (ht : s'.timerWaiters = s.timerWaiters) (hc : s'.clock = s.clock)
    (hf : s'.futures = s.futures) : Timeline s' past :=
  h.of_untimed es hu hh ht hc.ge (by rw [hf]) fun g _ hg => by rwa [hf]

theorem Timeline.move (hm : Move Representable s s') : ∃ past', Timeline s' past' := by
  cases hm with
  | create state =>
    refine ⟨past, h.of_untimed [] (by simp) (by simp [objFutureCreate]) rfl (le_refl _)
      (by simp [objFutureCreate]) fun g hlt hg => ?_⟩
    rwa [objFutureCreate, getElem?_append_left hlt]
  | spawn task hn =>
    exact ⟨past, h.of_same [.spawned task.id, .enqueued task.id] (by simp [Event.Untimed])
      (by simp [Scheduler.spawn, vmEnqueueReadyTask, Scheduler.emit]) rfl rfl rfl⟩
  | suspend f task hn hp =>
    refine ⟨past, h.of_same [.suspended task.id f] (by simp [Event.Untimed]) ?_ ?_ ?_ ?_⟩
    all_goals
      rw [Scheduler.suspend, vmEnqueueFutureWaiter]
      split <;> rfl
  | complete f state hp hr => exact ⟨past, h.complete hr⟩
  | resume task rest hq =>
    exact ⟨past, h.of_same [.resumed task.id task.resumeValue task.resumePanic] (by simp [Event.Untimed])
      rfl rfl rfl rfl⟩
  | sleep now delayMs hc hd hb => exact ⟨past, h.sleep hc hd hb⟩
  | expire t ts ht hd => exact ⟨past ++ [t], h.expire ht hd⟩
  | read now hc => exact ⟨past, h.of_untimed [] (by simp) (by simp) rfl hc (le_refl _) fun g _ hg => hg⟩

theorem Timeline.moves (hm : Moves Representable s s') : ∃ past', Timeline s' past' := by
  induction hm with
  | refl => exact ⟨past, h⟩
  | tail _ hm ih =>
    obtain ⟨past', h'⟩ := ih
    exact h'.move hm

end

/-- The timers that have expired did so in the order in which they were due,
with ties in the order of creation, and their futures are complete. -/
structure InDueOrder (s : Scheduler) : Prop where
  sorted : (expirations s.history).Pairwise fun f g =>
    ∀ a b, Event.slept f a ∈ s.history → Event.slept g b ∈ s.history → a < b ∨ a = b ∧ f < g
  slept : ∀ f ∈ expirations s.history, ∃ due, Event.slept f due ∈ s.history ∧ due ≤ s.clock
  done : ∀ f ∈ expirations s.history, s.futures[f]? ≠ some .pending

theorem Timeline.inDueOrder (h : Timeline s past) : InDueOrder s := by
  have hpast (t : TimerWaitEntry) (ht : t ∈ past) : Event.slept t.future t.deadlineMs ∈ s.history :=
    h.slept t (mem_append_left _ ht)
  refine ⟨?_, ?_, ?_⟩
  · rw [h.expired, pairwise_map]
    refine (pairwise_append.mp h.sorted).1.imp_of_mem fun {t u} ht hu hbefore a b ha hb => ?_
    rw [h.unique _ _ _ ha (hpast t ht), h.unique _ _ _ hb (hpast u hu)]
    exact hbefore
  · intro f hf
    rw [h.expired] at hf
    obtain ⟨t, ht, rfl⟩ := mem_map.mp hf
    exact ⟨t.deadlineMs, hpast t ht, h.due t ht⟩
  · intro f hf
    rw [h.expired] at hf
    obtain ⟨t, ht, rfl⟩ := mem_map.mp hf
    exact h.done t ht

end Tablo.Async
