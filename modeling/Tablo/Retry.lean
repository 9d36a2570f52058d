import Mathlib.Data.List.Infix

/-! The circuit breaker of `retry.tblo`. Times are 64-bit integers whose sums and differences wrap, as those of
the machine do. Callers hand the circuit on from call to call, so a run is a fold over the calls. -/

namespace Tablo.Retry

open List
open Int64 (le_iff_toInt_le le_refl lt_iff_toInt_lt not_lt toInt_add toInt_sub)

inductive State where
  | closed | opened | halfOpen
deriving DecidableEq

structure RetryCircuit where
  failureThreshold : Int
  cooldownMs : Int64
  halfOpenSuccessThreshold : Int
  state : State
  failureCount : Int
  halfOpenSuccesses : Int
  openUntilMs : Int64

/-- The message, context and detail of an invalid argument. -/
structure RetryError where
  message : String
  context : String
  detail : Int

def retryCircuitNew (failureThreshold : Int) (cooldownMs : Int64) (halfOpenSuccessThreshold : Int) :
    Except RetryError RetryCircuit :=
  if failureThreshold < 1 ∨ failureThreshold > 1000000 then
    .error ⟨"failureThreshold must be between 1 and 1000000", "retry.circuit.failureThreshold", failureThreshold⟩
  else if cooldownMs < 1 ∨ cooldownMs > 3600000 then
    .error ⟨"cooldownMs must be between 1 and 3600000", "retry.circuit.cooldownMs", cooldownMs.toInt⟩
  else if halfOpenSuccessThreshold < 1 ∨ halfOpenSuccessThreshold > 1000000 then
    .error ⟨"halfOpenSuccessThreshold must be between 1 and 1000000", "retry.circuit.halfOpenSuccessThreshold",
      halfOpenSuccessThreshold⟩
  else .ok ⟨failureThreshold, cooldownMs, halfOpenSuccessThreshold, .closed, 0, 0, 0⟩

variable (circuit : RetryCircuit) (nowMs : Int64) (calls : List Call)

def retryCircuitOpenRemainingMs : Int64 :=
  if circuit.state ≠ .opened then 0
  else if circuit.openUntilMs - nowMs < 0 then 0
  else circuit.openUntilMs - nowMs

def nowClamped : Int64 := if nowMs < 0 then 0 else nowMs

def retryCircuitAllow : RetryCircuit × Bool :=
  if circuit.state = .opened then
    if nowClamped nowMs ≥ circuit.openUntilMs then
      ({ circuit with state := .halfOpen, failureCount := 0, halfOpenSuccesses := 0 }, true)
    else (circuit, false)
  else (circuit, true)

def RetryCircuit.reset : RetryCircuit :=
  { circuit with state := .closed, failureCount := 0, halfOpenSuccesses := 0, openUntilMs := 0 }

def retryCircuitOnSuccess : RetryCircuit :=
  if circuit.state = .halfOpen then
    if circuit.halfOpenSuccesses + 1 ≥ circuit.halfOpenSuccessThreshold then circuit.reset
    else { circuit with halfOpenSuccesses := circuit.halfOpenSuccesses + 1 }
  else circuit.reset

def retryCircuitOnFailure : RetryCircuit :=
  let openUntilMs := nowClamped nowMs + circuit.cooldownMs
  match circuit.state with
  | .halfOpen =>
    { circuit with
      state := .opened, failureCount := circuit.failureThreshold, halfOpenSuccesses := 0, openUntilMs }
  | .opened => { circuit with openUntilMs }
  | .closed =>
    if circuit.failureCount + 1 ≥ circuit.failureThreshold then
      { circuit with
        failureCount := circuit.failureCount + 1, state := .opened, halfOpenSuccesses := 0, openUntilMs }
    else { circuit with failureCount := circuit.failureCount + 1 }

inductive Call where
  | allow (nowMs : Int64)
  | onSuccess
  | onFailure (nowMs : Int64)
deriving DecidableEq

def Call.time : Call → Option Int64
  | .allow nowMs => some nowMs
  | .onSuccess => none
  | .onFailure nowMs => some nowMs

def Call.fails : Call → Bool
  | .onFailure _ => true
  | _ => false

def RetryCircuit.step (circuit : RetryCircuit) : Call → RetryCircuit
  | .allow nowMs => (retryCircuitAllow circuit nowMs).1
  | .onSuccess => retryCircuitOnSuccess circuit
  | .onFailure nowMs => retryCircuitOnFailure circuit nowMs

def RetryCircuit.run (calls : List Call) : RetryCircuit := calls.foldl step circuit

def Nondecreasing : Prop := (calls.filterMap Call.time).Pairwise (· ≤ ·)

/-- No call so far was made later than `nowMs`. -/
def Reached (nowMs : Int64) : Prop := ∀ past ∈ calls.filterMap Call.time, past ≤ nowMs

/-- The failures since the last success. -/
def streak : Int :=
  calls.foldl (fun n call => match call with | .allow _ => n | .onSuccess => 0 | .onFailure _ => n + 1) 0

/-- The cooldown of the last failure, at `t`, passed before a call was admitted. Since then the circuit has
been half-open and has seen that many successes and no failure. -/
def Probed (start : RetryCircuit) (calls : List Call) (successes : Int) : Prop :=
  ∃ before t cooling nowMs probes, calls = before ++ .onFailure t :: (cooling ++ .allow nowMs :: probes) ∧
    t.toInt + start.cooldownMs.toInt ≤ nowMs.toInt ∧ (∀ call ∈ cooling ++ probes, call.fails = false) ∧
    (∀ seen, seen <+: probes →
      (start.run (before ++ .onFailure t :: (cooling ++ .allow nowMs :: seen))).state = .halfOpen) ∧
    (probes.count .onSuccess : Int) = successes

/-- What a circuit breaker promises about every moment of a run. -/
structure Breaks (start : RetryCircuit) (calls : List Call) : Prop where
  refuses : ∀ before t since, before ++ .onFailure t :: since <+: calls →
    (start.run (before ++ [.onFailure t])).state = .opened → ∀ nowMs, t ≤ nowMs → Reached since nowMs →
      nowMs.toInt < t.toInt + start.cooldownMs.toInt →
      (retryCircuitAllow (start.run (before ++ .onFailure t :: since)) nowMs).2 = false
  opens : ∀ before call, before ++ [call] <+: calls → (start.run before).state = .closed →
    ((start.run (before ++ [call])).state = .opened ↔
      call.fails = true ∧ streak (before ++ [call]) = start.failureThreshold)
  closes : ∀ before call, before ++ [call] <+: calls → (start.run before).state ≠ .closed →
    (start.run (before ++ [call])).state = .closed →
      call = .onSuccess ∧ Probed start before (start.halfOpenSuccessThreshold - 1)
  reopens : ∀ before t, before ++ [.onFailure t] <+: calls → (start.run before).state = .halfOpen →
    (start.run (before ++ [.onFailure t])).state = .opened
  waits : ∀ before nowMs, before <+: calls → Reached before nowMs → ∀ later, nowMs ≤ later →
    ((retryCircuitAllow (start.run before) later).2 = true ↔
      nowMs.toInt + (retryCircuitOpenRemainingMs (start.run before) nowMs).toInt ≤ later.toInt)

/-- The end of a cooldown from `t`, and the wait until it, are 64-bit integers. -/
def Fits (t : Int64) : Prop :=
  (nowClamped t).toInt + circuit.cooldownMs.toInt < 9223372036854775808 ∧
    (nowClamped t).toInt + circuit.cooldownMs.toInt - t.toInt < 9223372036854775808

/-- No success is reported while the circuit is open, and a failure that leaves it open has a cooldown that
fits. -/
def Orderly : Call → Prop
  | .allow _ => True
  | .onSuccess => circuit.state ≠ .opened
  | .onFailure t =>
    circuit.state ≠ .closed ∨ circuit.failureThreshold ≤ circuit.failureCount + 1 → Fits circuit t

variable {start c : RetryCircuit} {calls before : List Call} {call : Call} {t nowMs : Int64}

theorem run_snoc (start : RetryCircuit) (calls : List Call) (call : Call) :
    start.run (calls ++ [call]) = (start.run calls).step call := foldl_concat ..

theorem toInt_nowClamped (t : Int64) : (nowClamped t).toInt = max t.toInt 0 := by
  unfold nowClamped
  split_ifs with h
  · have := lt_iff_toInt_lt.mp h
    simp at this ⊢
    omega
  · have := le_iff_toInt_le.mp (not_lt.mp h)
    simp at this
    omega

/-- What no call changes. -/
structure Configured (start c : RetryCircuit) : Prop where
  failures : c.failureThreshold = start.failureThreshold
  cooldown : c.cooldownMs = start.cooldownMs
  successes : c.halfOpenSuccessThreshold = start.halfOpenSuccessThreshold

theorem Configured.step (h : Configured start c) (call : Call) : Configured start (c.step call) := by
  obtain ⟨hf, hc, hs⟩ := h
  cases call <;>
    simp only [RetryCircuit.step, retryCircuitAllow, retryCircuitOnSuccess, retryCircuitOnFailure,
      RetryCircuit.reset] <;>
    split <;> (try split) <;> exact ⟨hf, hc, hs⟩

theorem configured_run (calls : List Call) : Configured start (start.run calls) := by
  induction calls using reverseRecOn with
  | nil => exact ⟨rfl, rfl, rfl⟩
  | append_singleton calls call ih => rw [run_snoc]; exact ih.step call

/-- Exactly the failures that `Orderly` asks about leave the circuit open. -/
theorem onFailure_opened :
    (retryCircuitOnFailure c t).state = .opened ↔ c.state ≠ .closed ∨ c.failureThreshold ≤ c.failureCount + 1 := by
  unfold retryCircuitOnFailure
  cases hs : c.state <;> simp
  split_ifs with h <;> simp [h]

theorem onFailure_openUntil (h : (retryCircuitOnFailure c t).state = .opened) :
    (retryCircuitOnFailure c t).openUntilMs = nowClamped t + c.cooldownMs := by
  unfold retryCircuitOnFailure at h ⊢
  cases hs : c.state <;> simp only [hs] at h ⊢
  split_ifs at h ⊢ with hmany
  rfl

theorem onFailure_else (h : (retryCircuitOnFailure c t).state ≠ .opened) :
    retryCircuitOnFailure c t = { c with failureCount := c.failureCount + 1 } ∧ c.state = .closed ∧
      c.failureCount + 1 < c.failureThreshold := by
  obtain ⟨hs, hfew⟩ := not_or.mp (mt onFailure_opened.mpr h)
  have hs := not_not.mp hs
  refine ⟨?_, hs, by omega⟩
  simp [retryCircuitOnFailure, hs, hfew]

theorem toInt_remaining (hs : c.state = .opened) :
    (retryCircuitOpenRemainingMs c nowMs).toInt = max (c.openUntilMs - nowMs).toInt 0 := by
  rw [retryCircuitOpenRemainingMs, if_neg (not_not.mpr hs)]
  split_ifs with hneg
  · exact (Int.max_eq_right (Int.le_of_lt (lt_iff_toInt_lt.mp hneg))).symm
  · exact (Int.max_eq_left (le_iff_toInt_le.mp (not_lt.mp hneg))).symm

theorem allow_refuses :
    (retryCircuitAllow c nowMs).2 = false ↔ c.state = .opened ∧ max nowMs.toInt 0 < c.openUntilMs.toInt := by
  have hlt : nowClamped nowMs < c.openUntilMs ↔ max nowMs.toInt 0 < c.openUntilMs.toInt := by
    rw [lt_iff_toInt_lt, toInt_nowClamped]
  unfold retryCircuitAllow
  split_ifs with hs hle
  · simp [hs, ← hlt, hle]
  · simp [hs, ← hlt, Int64.not_le.mp hle]
  · simp [hs]

theorem allow_of_refuses (h : (retryCircuitAllow c nowMs).2 = false) : c.step (.allow nowMs) = c := by
  simp only [RetryCircuit.step, retryCircuitAllow] at h ⊢
  split_ifs at h ⊢
  rfl

theorem allow_of_admits (hs : c.state = .opened) (h : (retryCircuitAllow c nowMs).2 = true) :
    c.step (.allow nowMs) = { c with state := .halfOpen, failureCount := 0, halfOpenSuccesses := 0 } := by
  simp only [RetryCircuit.step, retryCircuitAllow] at h ⊢
  split_ifs at h ⊢
  rfl

theorem allow_of_ne (h : c.state ≠ .opened) : c.step (.allow nowMs) = c := by
  simp [RetryCircuit.step, retryCircuitAllow, h]

theorem onFailure_until (hconf : Configured start c) (hcool : 1 ≤ start.cooldownMs.toInt)
    (h : Orderly c (.onFailure t)) (hopen : (retryCircuitOnFailure c t).state = .opened) :
    (retryCircuitOnFailure c t).openUntilMs.toInt = max t.toInt 0 + start.cooldownMs.toInt ∧ Fits start t := by
  have hfits : Fits start t := by
    have := h (onFailure_opened.mp hopen)
    rwa [Fits, hconf.cooldown] at this
  have hsum := hfits.1
  rw [toInt_nowClamped] at hsum
  refine ⟨?_, hfits⟩
  rw [onFailure_openUntil hopen, hconf.cooldown, toInt_add, toInt_nowClamped, Int.bmod_eq_of_le] <;> omega

/-! ### What the calls so far say about the circuit -/

/-- The circuit is open until the cooldown of the last failure ends. -/
def Cooling (start : RetryCircuit) (calls : List Call) (openUntilMs : Int64) : Prop :=
  ∃ before t cooling, calls = before ++ .onFailure t :: cooling ∧ (∀ call ∈ cooling, call.fails = false) ∧
    openUntilMs.toInt = max t.toInt 0 + start.cooldownMs.toInt ∧ Fits start t

def Tracks (start : RetryCircuit) (calls : List Call) (c : RetryCircuit) : Prop :=
  match c.state with
  | .closed => c.failureCount = streak calls ∧ c.failureCount < start.failureThreshold
  | .opened => Cooling start calls c.openUntilMs
  | .halfOpen => Probed start calls c.halfOpenSuccesses ∧ c.halfOpenSuccesses < start.halfOpenSuccessThreshold

variable {since : List Call} {openUntilMs : Int64} {m n : Int}

theorem Cooling.snoc (h : Cooling start calls openUntilMs) (hcall : call.fails = false) :
    Cooling start (calls ++ [call]) openUntilMs := by
  obtain ⟨before, t, cooling, rfl, hquiet, huntil⟩ := h
  refine ⟨before, t, cooling ++ [call], by simp, ?_, huntil⟩
  simpa [or_imp, forall_and, hcall] using hquiet

theorem Probed.snoc (h : Probed start calls n) (hcall : call.fails = false)
    (hs : (start.run (calls ++ [call])).state = .halfOpen) (hm : m = n + [call].count .onSuccess) :
    Probed start (calls ++ [call]) m := by
  obtain ⟨before, t, cooling, nowMs, probes, rfl, hlate, hquiet, hprobes, rfl⟩ := h
  refine ⟨before, t, cooling, nowMs, probes ++ [call], by simp, hlate, ?_, ?_, ?_⟩
  · rw [← append_assoc]
    simpa [or_imp, forall_and, hcall] using hquiet
  · intro seen hseen
    rcases List.prefix_concat_iff.mp hseen with rfl | hseen
    · simpa using hs
    · exact hprobes seen hseen
  · rw [hm, count_append, Int.natCast_add]

theorem Probed.state (h : Probed start calls n) : (start.run calls).state = .halfOpen := by
  obtain ⟨before, t, cooling, nowMs, probes, rfl, -, -, hprobes, -⟩ := h
  exact hprobes probes (prefix_refl probes)

theorem streak_snoc (calls : List Call) (call : Call) :
    streak (calls ++ [call]) = match call with
      | .allow _ => streak calls | .onSuccess => 0 | .onFailure _ => streak calls + 1 := by
  simp [streak]

/-- A valid configuration, with the circuit closed and nothing counted. -/
structure Fresh (start : RetryCircuit) : Prop where
  failures : 1 ≤ start.failureThreshold
  cooldown : 1 ≤ start.cooldownMs.toInt
  successes : 1 ≤ start.halfOpenSuccessThreshold
  state : start.state = .closed
  count : start.failureCount = 0

theorem fresh_new {f s : Int} {cooldown : Int64} (h : retryCircuitNew f cooldown s = .ok start) : Fresh start := by
  unfold retryCircuitNew at h
  split_ifs at h with hf hc hs
  cases h
  have hc := le_iff_toInt_le.mp (not_lt.mp (not_or.mp hc).1)
  exact ⟨(by omega : 1 ≤ f), hc, (by omega : 1 ≤ s), rfl, rfl⟩

theorem Tracks.step (hf : Fresh start) (h : Tracks start calls (start.run calls))
    (hcall : Orderly (start.run calls) call) : Tracks start (calls ++ [call]) (start.run (calls ++ [call])) := by
  have hconf : Configured start (start.run calls) := configured_run calls
  have hrun := run_snoc start calls call
  rw [hrun]
  generalize start.run calls = c at *
  obtain ⟨hmany, hcool, hsome, -⟩ := hf
  cases call with
  | allow nowMs =>
    cases hs : c.state with
    | closed =>
      rw [allow_of_ne (by simp [hs])]
      simpa [Tracks, hs, streak_snoc] using h
    | halfOpen =>
      rw [allow_of_ne (by simp [hs])] at hrun ⊢
      rw [Tracks, hs] at h ⊢
      exact ⟨h.1.snoc rfl (hrun ▸ hs) (by simp), h.2⟩
    | opened =>
      rw [Tracks, hs] at h
      cases hok : (retryCircuitAllow c nowMs).2 with
      | false =>
        rw [allow_of_refuses hok, Tracks, hs]
        exact h.snoc rfl
      | true =>
        obtain ⟨before, t, cooling, rfl, hquiet, huntil, -⟩ := h
        have hlate : ¬ max nowMs.toInt 0 < c.openUntilMs.toInt := fun hlt => by
          simp [allow_refuses.mpr ⟨hs, hlt⟩] at hok
        rw [allow_of_admits hs hok] at hrun ⊢
        refine ⟨⟨before, t, cooling, nowMs, [], by simp, by omega, by simpa using hquiet, ?_, rfl⟩, hsome⟩
        intro seen hseen
        rw [append_assoc, cons_append] at hrun
        rw [List.prefix_nil.mp hseen, hrun]
  | onSuccess =>
    have hreset : Tracks start (calls ++ [.onSuccess]) c.reset :=
      ⟨by simp [RetryCircuit.reset, streak_snoc], hmany⟩
    rw [RetryCircuit.step, retryCircuitOnSuccess] at hrun ⊢
    split_ifs at hrun ⊢ with hs hlast
    · exact hreset
    · rw [hconf.successes] at hlast
      simp only [Tracks, hs] at h ⊢
      exact ⟨h.1.snoc rfl (hrun ▸ hs) rfl, by omega⟩
    · exact hreset
  | onFailure t =>
    by_cases hopen : (retryCircuitOnFailure c t).state = .opened
    · rw [RetryCircuit.step, Tracks, hopen]
      exact ⟨calls, t, [], rfl, by simp, onFailure_until hconf hcool hcall hopen⟩
    · obtain ⟨hstep, hs, hfew⟩ := onFailure_else hopen
      rw [RetryCircuit.step, hstep]
      rw [Tracks, hs] at h
      simp only [Tracks, hs, streak_snoc, h.1, ← hconf.failures]
      exact ⟨trivial, h.1 ▸ hfew⟩

/-- Every call of the run finds the circuit in order. -/
def AllOrderly (start : RetryCircuit) (calls : List Call) : Prop :=
  ∀ before call, before ++ [call] <+: calls → Orderly (start.run before) call

theorem tracks_run (hf : Fresh start) (h : AllOrderly start calls) (hp : before <+: calls) :
    Tracks start before (start.run before) := by
  induction before using reverseRecOn with
  | nil =>
    rw [RetryCircuit.run, foldl_nil, Tracks, hf.state]
    exact ⟨hf.count, hf.count ▸ hf.failures⟩
  | append_singleton before call ih =>
    exact (ih ((prefix_append before [call]).trans hp)).step hf (h before call hp)

theorem reached_snoc (ht : Nondecreasing calls) (hp : before ++ [.onFailure t] <+: calls) :
    Reached (before ++ [.onFailure t]) t := by
  have hsorted := List.Pairwise.sublist (hp.sublist.filterMap Call.time) ht
  intro past hpast
  simp only [filterMap_append, filterMap_cons, filterMap_nil, Call.time, pairwise_append,
    mem_append, mem_singleton] at hsorted hpast
  rcases hpast with hpast | rfl
  · exact hsorted.2.2 past hpast t rfl
  · exact le_refl _

theorem refuses_snoc (hf : Fresh start) (h : Orderly (start.run before) (.onFailure t))
    (hs : (start.run (before ++ [.onFailure t])).state = .opened)
    (hlt : nowMs.toInt < t.toInt + start.cooldownMs.toInt) :
    (retryCircuitAllow (start.run (before ++ [.onFailure t])) nowMs).2 = false := by
  have hcool := hf.cooldown
  rw [run_snoc] at hs ⊢
  have huntil := (onFailure_until (configured_run before) hcool h hs).1
  exact allow_refuses.mpr ⟨hs, lt_of_lt_of_eq (by omega) huntil.symm⟩

section

variable (hf : Fresh start) (ht : Nondecreasing calls)

include hf ht

/-- A circuit left open by a failure at `t` refuses every call before the end of the cooldown, unless some
call was made after that. -/
theorem refuses_or_past (h : AllOrderly start calls)
    (hp : before ++ .onFailure t :: since <+: calls) (hs : (start.run (before ++ [.onFailure t])).state = .opened) :
    (∀ nowMs : Int64, nowMs.toInt < t.toInt + start.cooldownMs.toInt →
      (retryCircuitAllow (start.run (before ++ .onFailure t :: since)) nowMs).2 = false) ∨
    ∃ past ∈ since.filterMap Call.time, t.toInt + start.cooldownMs.toInt ≤ past.toInt := by
  have hcool := hf.cooldown
  induction since using reverseRecOn with
  | nil => exact .inl fun nowMs hlt => refuses_snoc hf (h before _ hp) hs hlt
  | append_singleton since call ih =>
    rw [← cons_append, ← append_assoc] at hp ⊢
    have hcall := h _ call hp
    rcases ih ((prefix_append _ [call]).trans hp) with hrefuses | ⟨past, hpast, hlate⟩
    · have hrun := run_snoc start (before ++ .onFailure t :: since) call
      have hopen := (allow_refuses.mp (hrefuses t (by omega))).1
      cases call with
      | allow nowMs =>
        by_cases hlt : nowMs.toInt < t.toInt + start.cooldownMs.toInt
        · rw [hrun, allow_of_refuses (hrefuses nowMs hlt)]
          exact .inl hrefuses
        · exact .inr ⟨nowMs, by simp [Call.time], by omega⟩
      | onSuccess => exact absurd hopen hcall
      | onFailure t' =>
        have hle := le_iff_toInt_le.mp (reached_snoc ht hp t (by simp [Call.time]))
        refine .inl fun nowMs hlt => refuses_snoc hf hcall ?_ (by omega)
        rw [hrun]
        exact onFailure_opened.mpr (.inl (by simp [hopen]))
    · exact .inr ⟨past, by simp [hpast], hlate⟩

theorem breaks_of_orderly (h : AllOrderly start calls) :
    Breaks start calls where
  refuses before t since hp hs nowMs hle hreached hlt := by
    rcases refuses_or_past hf ht h hp hs with hrefuses | ⟨past, hpast, hlate⟩
    · exact hrefuses nowMs hlt
    · have := le_iff_toInt_le.mp (hreached past hpast)
      omega
  opens before call hp hs := by
    have htracks := tracks_run hf h ((prefix_append before [call]).trans hp)
    rw [Tracks, hs] at htracks
    rw [run_snoc, streak_snoc]
    cases call with
    | allow nowMs => simp [allow_of_ne, hs, Call.fails]
    | onSuccess => simp [RetryCircuit.step, retryCircuitOnSuccess, hs, RetryCircuit.reset, Call.fails]
    | onFailure t =>
      have hopen := onFailure_opened (c := start.run before) (t := t)
      rw [(configured_run before).failures, htracks.1] at hopen
      refine hopen.trans ⟨fun hmany => ⟨rfl, ?_⟩, fun hmany => .inr (Int.le_of_eq hmany.2.symm)⟩
      have hmany := hmany.resolve_left (not_not.mpr hs)
      exact Int.le_antisymm (htracks.1 ▸ htracks.2) hmany
  closes before call hp hs hclosed := by
    have htracks := tracks_run hf h ((prefix_append before [call]).trans hp)
    have hcall := h before call hp
    have hconf : Configured start (start.run before) := configured_run before
    rw [run_snoc] at hclosed
    generalize start.run before = c at *
    cases call with
    | allow nowMs =>
      simp only [RetryCircuit.step, retryCircuitAllow] at hclosed
      split_ifs at hclosed
      · exact absurd hclosed hs
      · exact absurd hclosed hs
    | onFailure t =>
      rw [RetryCircuit.step, onFailure_opened.mpr (.inl hs)] at hclosed
      cases hclosed
    | onSuccess =>
      simp only [RetryCircuit.step, retryCircuitOnSuccess] at hclosed
      split_ifs at hclosed with hhalf hlast
      · rw [Tracks, hhalf] at htracks
        have hn : c.halfOpenSuccesses = start.halfOpenSuccessThreshold - 1 := by
          rw [hconf.successes] at hlast
          omega
        exact ⟨rfl, hn ▸ htracks.1⟩
      · exact absurd hclosed hs
      · cases hc : c.state
        · exact absurd hc hs
        · exact absurd hc hcall
        · exact absurd hc hhalf
  reopens before t hp hs := by
    rw [run_snoc]
    exact onFailure_opened.mpr (.inl (by simp [hs]))
  waits before nowMs hp hreached later hle := by
    have htracks := tracks_run hf h hp
    have hle := le_iff_toInt_le.mp hle
    generalize start.run before = c at *
    by_cases hs : c.state = .opened
    · rw [Tracks, hs] at htracks
      obtain ⟨before, t, cooling, rfl, -, huntil, -, hwait⟩ := htracks
      have hlast := le_iff_toInt_le.mp (hreached t (by simp [Call.time]))
      have hbound := nowMs.toInt_lt
      have hcool := hf.cooldown
      rw [toInt_nowClamped] at hwait
      have hsub : (c.openUntilMs - nowMs).toInt = c.openUntilMs.toInt - nowMs.toInt := by
        rw [toInt_sub, Int.bmod_eq_of_le] <;> omega
      rw [← Bool.not_eq_false, allow_refuses, toInt_remaining hs, hsub]
      simp only [hs, true_and]
      omega
    · simpa [retryCircuitAllow, retryCircuitOpenRemainingMs, hs] using hle

theorem orderly_of_breaks (h : Breaks start calls) :
    AllOrderly start calls := by
  intro before call hp
  cases call with
  | allow nowMs => exact trivial
  | onSuccess =>
    intro hs
    have hclosed : (start.run (before ++ [.onSuccess])).state = .closed := by
      simp [run_snoc, RetryCircuit.step, retryCircuitOnSuccess, hs, RetryCircuit.reset]
    have hprobed := (h.closes before .onSuccess hp (by simp [hs]) hclosed).2.state
    simp [hs] at hprobed
  | onFailure t =>
    intro hopens
    have hs : (start.run (before ++ [.onFailure t])).state = .opened := by
      rw [run_snoc]
      exact onFailure_opened.mpr hopens
    have hcool := hf.cooldown
    have hle := le_refl t
    have hrefuses := h.refuses before t [] hp hs t hle (by simp [Reached]) (by omega)
    have hwaits := mt (h.waits _ t hp (reached_snoc ht hp) t hle).mpr (by simp [hrefuses])
    have huntil := (allow_refuses.mp hrefuses).2
    rw [run_snoc] at hs huntil hwaits
    rw [RetryCircuit.step] at hs huntil hwaits
    have hu := onFailure_openUntil hs
    rw [toInt_remaining hs, hu, (configured_run before).cooldown, toInt_sub, toInt_add,
      toInt_nowClamped] at hwaits
    rw [hu, (configured_run before).cooldown, toInt_add, toInt_nowClamped] at huntil
    rw [Fits, (configured_run before).cooldown, toInt_nowClamped]
    have hlo := t.le_toInt
    have hhi := t.toInt_lt
    have hcd := start.cooldownMs.toInt_lt
    generalize hsum : max t.toInt 0 + start.cooldownMs.toInt = sum at *
    have hfits : sum < 9223372036854775808 := by
      rw [Int.bmod] at huntil
      split_ifs at huntil <;> omega
    rw [Int.bmod_eq_of_le (n := sum) (by omega) (by omega), Int.bmod] at hwaits
    refine ⟨hfits, ?_⟩
    split_ifs at hwaits <;> omega

end

theorem circuit_breaks_iff {f s : Int} {cooldown : Int64} (h : retryCircuitNew f cooldown s = .ok start)
    (ht : Nondecreasing calls) : Breaks start calls ↔ AllOrderly start calls :=
  ⟨orderly_of_breaks (fresh_new h) ht, breaks_of_orderly (fresh_new h) ht⟩

theorem circuit_breaks_probe :
    Breaks ⟨1, 1000, 1, .closed, 0, 0, 0⟩ [.onFailure 0, .allow 1000, .onSuccess] := by
  have hnew : retryCircuitNew 1 1000 1 = .ok ⟨1, 1000, 1, .closed, 0, 0, 0⟩ := rfl
  refine (circuit_breaks_iff hnew (by unfold Nondecreasing; decide)).mpr ?_
  rintro (_ | ⟨a, _ | ⟨b, _ | ⟨c, before⟩⟩⟩) call hp <;> simp at hp
  · exact hp ▸ fun _ => by unfold Fits; decide
  · exact hp.2 ▸ trivial
  · obtain ⟨rfl, rfl, rfl⟩ := hp
    show State.halfOpen ≠ .opened
    decide

/-- The result of a call admitted before the failure closes the circuit within its cooldown. -/
theorem circuit_late_success : ∃ start, retryCircuitNew 1 1000 1 = .ok start ∧
    Nondecreasing [.onFailure 0, .onSuccess] ∧ ¬ Breaks start [.onFailure 0, .onSuccess] := by
  refine ⟨_, rfl, by unfold Nondecreasing; decide, fun h => ?_⟩
  have hrefuses := h.refuses [] 0 [.onSuccess] (prefix_refl _) rfl 1 (by decide)
    (by simp [Reached, Call.time]) (by decide)
  revert hrefuses
  decide

end Tablo.Retry
