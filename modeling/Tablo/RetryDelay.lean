import Tablo.RandomRange
import Tablo.Retry

/-! The delays of `retry.tblo`. Products, sums and differences of integers wrap to 64 bits. The draws of the
generator decide the jitter; a list of draws may end before one is accepted. -/

namespace Tablo.Retry

open RandomRange

def wrap (i : Int) : Int := i.bmod (2 ^ 64)

structure RetryPolicy where
  maxAttempts : Int
  initialDelayMs : Int
  maxDelayMs : Int
  multiplierPercent : Int
  jitterPercent : Int

def checkPolicyField (name range : String) (value low high : Int) : Option RetryError :=
  if value < low ∨ value > high then
    some ⟨"retry policy " ++ name ++ " must be between " ++ range, "retry.policy." ++ name, value⟩
  else none

variable (policy : RetryPolicy)

def retryValidatePolicy : Option RetryError :=
  checkPolicyField "maxAttempts" "1 and 1000" policy.maxAttempts 1 1000 <|>
  checkPolicyField "initialDelayMs" "0 and 3600000" policy.initialDelayMs 0 3600000 <|>
  checkPolicyField "maxDelayMs" "0 and 3600000" policy.maxDelayMs 0 3600000 <|>
  (if policy.maxDelayMs < policy.initialDelayMs then
    some ⟨"retry policy maxDelayMs must be >= initialDelayMs", "retry.policy.maxDelayMs", policy.maxDelayMs⟩
  else none) <|>
  checkPolicyField "multiplierPercent" "100 and 1000" policy.multiplierPercent 100 1000 <|>
  checkPolicyField "jitterPercent" "0 and 100" policy.jitterPercent 0 100

def retryClamp (value minValue maxValue : Int) : Int :=
  if value < minValue then minValue else if value > maxValue then maxValue else value

def percentOf (percent delay : Int) : Int := (wrap (delay * percent)).tdiv 100

/-- One turn of the loop. -/
def nextDelay (delay : Int) : Int :=
  let next := percentOf policy.multiplierPercent delay
  retryClamp (if next < delay then policy.maxDelayMs else next) 0 policy.maxDelayMs

def loopDelay (turns : Nat) : Int := (nextDelay policy)^[turns] policy.initialDelayMs

def jitterSpan (delay : Int) : Int :=
  let span := percentOf policy.jitterPercent delay
  if span < 1 then 1 else span

def retryComputeDelayMs (retryNumber : Int) (draws : List (BitVec 64)) : Except RetryError (Option Int) :=
  match retryValidatePolicy policy with
  | some err => .error err
  | none =>
    if retryNumber < 1 then .error ⟨"retryNumber must be >= 1", "retry.delay.retryNumber", retryNumber⟩
    else
      let delay := loopDelay policy (retryNumber - 1).toNat
      if policy.jitterPercent > 0 ∧ delay > 0 then
        let span := jitterSpan policy delay
        let jitter := randomIntRange (.ofInt 64 (0 - span)) (.ofInt 64 span) (draws.map some)
        .ok (jitter.map fun jitter => retryClamp (wrap (delay + jitter.toInt)) 0 policy.maxDelayMs)
      else .ok (some delay)

/-- What a policy promises, where `delay` is what it gives without jitter. -/
structure Lawful (delay : Int → Int) : Prop where
  returns : ∀ n ≥ 1, ∀ draws, retryComputeDelayMs { policy with jitterPercent := 0 } n draws = .ok (some (delay n))
  nondecreasing : ∀ m ≥ 1, ∀ n ≥ m, delay m ≤ delay n
  bounded : ∀ n ≥ 1, delay n ≤ policy.maxDelayMs
  exact : ∀ n ≥ 1, wrap (delay n * policy.multiplierPercent) = delay n * policy.multiplierPercent
  grows : 0 < policy.initialDelayMs → 100 < policy.multiplierPercent →
    ∀ n ≥ 1, delay n < policy.maxDelayMs → delay n < delay (n + 1)
  jitters : ∀ n draws r, retryComputeDelayMs policy n draws = .ok (some r) → 0 ≤ r ∧ r ≤ policy.maxDelayMs ∧
    |r - delay n| ≤ max 1 (delay n * policy.jitterPercent / 100)

variable {policy} {delay percent : Int}

@[mk_iff]
structure Valid (policy : RetryPolicy) : Prop where
  attempts : 1 ≤ policy.maxAttempts ∧ policy.maxAttempts ≤ 1000
  initial : 0 ≤ policy.initialDelayMs ∧ policy.initialDelayMs ≤ 3600000
  max : 0 ≤ policy.maxDelayMs ∧ policy.maxDelayMs ≤ 3600000
  ordered : policy.initialDelayMs ≤ policy.maxDelayMs
  multiplier : 100 ≤ policy.multiplierPercent ∧ policy.multiplierPercent ≤ 1000
  jitter : 0 ≤ policy.jitterPercent ∧ policy.jitterPercent ≤ 100

theorem checkPolicyField_none {name range : String} {value low high : Int} :
    checkPolicyField name range value low high = none ↔ low ≤ value ∧ value ≤ high := by
  simp [checkPolicyField]

theorem retryValidatePolicy_none : retryValidatePolicy policy = none ↔ Valid policy := by
  simp [retryValidatePolicy, checkPolicyField_none, valid_iff]

theorem wrap_eq {i : Int} (hlo : -2 ^ 63 ≤ i) (hhi : i < 2 ^ 63) : wrap i = i := Int.bmod_eq_of_le hlo hhi

theorem percentOf_eq (hd : 0 ≤ delay ∧ delay ≤ 3600000) (hp : 0 ≤ percent ∧ percent ≤ 1000) :
    wrap (delay * percent) = delay * percent ∧ percentOf percent delay = delay * percent / 100 := by
  have hlo := Int.mul_nonneg hd.1 hp.1
  have hhi : delay * percent ≤ 3600000 * 1000 := Int.mul_le_mul hd.2 hp.2 hp.1 (by decide)
  have hwrap := wrap_eq (i := delay * percent) (by omega) (by omega)
  rw [percentOf, hwrap, Int.tdiv_eq_ediv_of_nonneg hlo]
  exact ⟨rfl, rfl⟩

theorem loopDelay_succ (k : Nat) : loopDelay policy (k + 1) = nextDelay policy (loopDelay policy k) :=
  Function.iterate_succ_apply' ..

section

variable (hv : Valid policy)
include hv

theorem retryClamp_eq (value : Int) :
    retryClamp value 0 policy.maxDelayMs = max 0 (min value policy.maxDelayMs) := by
  have hmax := hv.max
  unfold retryClamp
  omega

theorem nextDelay_eq (h : 0 ≤ delay ∧ delay ≤ policy.maxDelayMs) :
    nextDelay policy delay = min (delay * policy.multiplierPercent / 100) policy.maxDelayMs ∧
      delay ≤ nextDelay policy delay := by
  have hmax := hv.max
  have hm := hv.multiplier
  have hle := Int.mul_le_mul_of_nonneg_left hm.1 h.1
  have hnext := (@percentOf_eq delay policy.multiplierPercent ⟨h.1, by omega⟩ ⟨by omega, hm.2⟩).2
  rw [nextDelay, retryClamp_eq hv, hnext, if_neg (by omega)]
  omega

theorem loopDelay_mem (k : Nat) :
    policy.initialDelayMs ≤ loopDelay policy k ∧ loopDelay policy k ≤ policy.maxDelayMs := by
  have hinitial := hv.initial
  induction k with
  | zero => exact ⟨Int.le_refl _, hv.ordered⟩
  | succ k ih =>
    have := nextDelay_eq hv ⟨by omega, ih.2⟩
    rw [loopDelay_succ]
    omega

theorem loopDelay_range (k : Nat) : 0 ≤ loopDelay policy k ∧ loopDelay policy k ≤ policy.maxDelayMs :=
  ⟨hv.initial.1.trans (loopDelay_mem hv k).1, (loopDelay_mem hv k).2⟩

theorem loopDelay_mono {m n : Nat} (h : m ≤ n) : loopDelay policy m ≤ loopDelay policy n := by
  induction h with
  | refl => exact Int.le_refl _
  | step _ ih =>
    rw [loopDelay_succ]
    exact ih.trans (nextDelay_eq hv (loopDelay_range hv _)).2

theorem compute_unjittered {n : Int} (hn : 1 ≤ n) (draws : List (BitVec 64)) :
    retryComputeDelayMs { policy with jitterPercent := 0 } n draws =
      .ok (some (loopDelay policy (n - 1).toNat)) := by
  have hvalid : Valid { policy with jitterPercent := 0 } := { hv with jitter := by simp }
  rw [retryComputeDelayMs, retryValidatePolicy_none.mpr hvalid]
  exact if_neg (Int.not_lt.mpr hn)

theorem jitterSpan_eq (h : 0 ≤ delay ∧ delay ≤ policy.maxDelayMs) :
    jitterSpan policy delay = max 1 (delay * policy.jitterPercent / 100) := by
  have hmax := hv.max
  have hj := hv.jitter
  rw [jitterSpan, (percentOf_eq ⟨h.1, by omega⟩ ⟨hj.1, by omega⟩).2]
  omega

theorem jitter_mem {n r : Int} {draws : List (BitVec 64)} (h : retryComputeDelayMs policy n draws = .ok (some r)) :
    0 ≤ r ∧ r ≤ policy.maxDelayMs ∧ |r - loopDelay policy (n - 1).toNat| ≤
      max 1 (loopDelay policy (n - 1).toNat * policy.jitterPercent / 100) := by
  have hd := loopDelay_range hv (n - 1).toNat
  have hmax := hv.max
  have hj := hv.jitter
  simp only [retryComputeDelayMs, retryValidatePolicy_none.mpr hv, jitterSpan_eq hv hd] at h
  have hle : loopDelay policy (n - 1).toNat * policy.jitterPercent ≤ 3600000 * 100 :=
    Int.mul_le_mul (by omega) hj.2 hj.1 (by decide)
  rw [abs_le]
  generalize loopDelay policy (n - 1).toNat = delay at *
  generalize hspread : max 1 (delay * policy.jitterPercent / 100) = spread at *
  have hto : ∀ i, -3600000 ≤ i → i ≤ 3600000 → (BitVec.ofInt 64 i).toInt = i := fun i hlo hhi =>
    (BitVec.toInt_ofInt ..).trans (Int.bmod_eq_of_le (by omega) (by omega))
  split_ifs at h with hn hjitter
  · obtain ⟨jitter, hrange, rfl⟩ := Option.map_eq_some_iff.mp (Except.ok.inj h)
    have hmem := randomIntRange_mem hrange
    rw [hto _ (by omega) (by omega), hto _ (by omega) (by omega)] at hmem
    rw [retryClamp_eq hv, wrap_eq] <;> omega
  · cases h
    omega

end

theorem retryDelay_lawful_iff (h : retryValidatePolicy policy = none) : (∃ delay, Lawful policy delay) ↔
    (0 < policy.initialDelayMs → 100 < policy.multiplierPercent → policy.initialDelayMs < policy.maxDelayMs →
      100 ≤ policy.initialDelayMs * (policy.multiplierPercent - 100)) := by
  have hv := retryValidatePolicy_none.mp h
  have hmax := hv.max
  have hm := hv.multiplier
  constructor
  · rintro ⟨delay, hlaw⟩ hpos hmul hlt
    have hdelay : ∀ n ≥ 1, loopDelay policy (n - 1).toNat = delay n := fun n hn =>
      Option.some.inj (Except.ok.inj ((compute_unjittered hv hn []).symm.trans (hlaw.returns n hn [])))
    have hgrows := hlaw.grows hpos hmul 1
    rw [← hdelay 1 (by decide), ← hdelay _ (by decide)] at hgrows
    change 1 ≥ 1 → policy.initialDelayMs < _ → policy.initialDelayMs < nextDelay policy policy.initialDelayMs at hgrows
    rw [(nextDelay_eq hv ⟨hv.initial.1, hv.ordered⟩).1] at hgrows
    rw [Int.mul_sub]
    omega
  · intro hgrow
    refine ⟨fun n => loopDelay policy (n - 1).toNat, fun n => compute_unjittered hv, fun m _ n hn => ?_,
      fun n _ => (loopDelay_mem hv _).2, fun n _ => ?_, fun hpos hmul n hn hlt => ?_, fun n draws r => jitter_mem hv⟩
    · exact loopDelay_mono hv (by omega)
    · have hd := loopDelay_range hv (n - 1).toNat
      exact (percentOf_eq ⟨hd.1, by omega⟩ ⟨by omega, hm.2⟩).1
    · have hle := (loopDelay_mem hv (n - 1).toNat).1
      have hprod := Int.mul_le_mul_of_nonneg_right hle (by omega : 0 ≤ policy.multiplierPercent - 100)
      have hlarge := hgrow hpos hmul (by omega)
      rw [Int.mul_sub (loopDelay _ _)] at hprod
      rw [show (n + 1 - 1).toNat = (n - 1).toNat + 1 by omega, loopDelay_succ,
        (nextDelay_eq hv (loopDelay_range hv _)).1]
      omega

theorem retryDelay_lawful_default : ∃ delay, Lawful ⟨5, 100, 5000, 200, 0⟩ delay :=
  (retryDelay_lawful_iff rfl).mpr fun _ _ _ => by decide

/-- One millisecond grows by half of itself and is cut to one millisecond again. -/
theorem retryDelay_stuck : retryValidatePolicy ⟨5, 1, 5000, 150, 0⟩ = none ∧
    ¬ ∃ delay, Lawful ⟨5, 1, 5000, 150, 0⟩ delay := by
  refine ⟨rfl, ?_⟩
  rintro ⟨delay, hlaw⟩
  have h1 := Option.some.inj (Except.ok.inj (hlaw.returns 1 (by decide) []))
  have h2 := Option.some.inj (Except.ok.inj (hlaw.returns 2 (by decide) []))
  have hgrows := hlaw.grows (by decide) (by decide) 1 (by decide)
  rw [← h1, show (1 : Int) + 1 = 2 from rfl, ← h2] at hgrows
  exact absurd (hgrows (by decide)) (by decide)

end Tablo.Retry
