import Mathlib.Tactic.Linarith

/-! The limiters of `rate_limit.tblo`. A product outside the 64-bit range is `none`. -/

namespace Tablo.RateLimit

structure TokenBucket where
  capacity : Int
  refillPerSecond : Int
  tokens : Int
  lastRefillMs : Int

def int64 (x : Int) : Option Int := if -2 ^ 63 ≤ x ∧ x < 2 ^ 63 then some x else none

def normalizeNowMs (now : Int) : Int := if now < 0 then 0 else now

def tokenBucketRefillAt (bucket : TokenBucket) (now : Int) : Option TokenBucket :=
  let normalizedNow := normalizeNowMs now
  if normalizedNow < bucket.lastRefillMs then some bucket
  else
    let elapsed := normalizedNow - bucket.lastRefillMs
    if elapsed ≤ 0 then some bucket
    else do
      let product ← int64 (elapsed * bucket.refillPerSecond)
      let add := product / 1000
      if add > 0 then
        return { bucket with tokens := min bucket.capacity (bucket.tokens + add), lastRefillMs := normalizedNow }
      else return bucket

/-- What `rateLimitTokenBucketNewAt` builds and every call keeps. -/
structure TokenBucket.Valid (b : TokenBucket) : Prop where
  capacity : 1 ≤ b.capacity ∧ b.capacity ≤ 1000000000
  refill : 1 ≤ b.refillPerSecond ∧ b.refillPerSecond ≤ 1000000000
  tokens : 0 ≤ b.tokens ∧ b.tokens ≤ b.capacity
  last : 0 ≤ b.lastRefillMs

variable (b : TokenBucket)

/-- The time since the last refill, and the thousandths of tokens due for it. -/
def idle (now : Int) : Int :=
  max 0 (normalizeNowMs now - b.lastRefillMs)

def due (now : Int) : Int := idle b now * b.refillPerSecond

/-- The bucket after a refill whose product fits 64 bits. -/
def after (now : Int) : TokenBucket :=
  if due b now < 1000 then b
  else { b with
    tokens := min b.capacity (b.tokens + due b now / 1000), lastRefillMs := normalizeNowMs now }

section Refill

variable {b : TokenBucket} {now t₁ t₂ : Int}

theorem normalize_nonneg (now : Int) : 0 ≤ normalizeNowMs now := by
  unfold normalizeNowMs
  split <;> omega

theorem normalize_mono (ht : t₁ ≤ t₂) : normalizeNowMs t₁ ≤ normalizeNowMs t₂ := by
  unfold normalizeNowMs
  split_ifs <;> omega

theorem due_nonneg (h : b.Valid) (now : Int) : 0 ≤ due b now :=
  Int.mul_nonneg (le_max_left _ _) (by have := h.refill; omega)

theorem due_mono (h : b.Valid) (ht : t₁ ≤ t₂) : due b t₁ ≤ due b t₂ := by
  refine Int.mul_le_mul_of_nonneg_right (max_le_max_left 0 ?_) (by have := h.refill; omega)
  have := normalize_mono ht
  omega

theorem refillAt_eq (h : b.Valid) (now : Int) :
    tokenBucketRefillAt b now = if due b now < 2 ^ 63 then some (after b now) else none := by
  have hdue := due_nonneg h now
  rw [tokenBucketRefillAt]
  by_cases helapsed : normalizeNowMs now - b.lastRefillMs ≤ 0
  · have hzero : due b now = 0 := by
      rw [due, idle, max_eq_left helapsed, zero_mul]
    simp [helapsed, hzero, after]
  · have heq : (normalizeNowMs now - b.lastRefillMs) * b.refillPerSecond = due b now := by
      rw [due, idle, max_eq_right (not_le.mp helapsed).le]
    rw [if_neg (by omega), if_neg helapsed, heq, int64]
    by_cases hfits : due b now < 2 ^ 63
    · rw [if_pos ⟨by omega, hfits⟩, if_pos hfits, after]
      dsimp only [bind, Option.bind]
      split_ifs <;> first | rfl | omega
    · rw [if_neg (by omega), if_neg hfits]
      rfl

theorem valid_after (h : b.Valid) (now : Int) : (after b now).Valid := by
  have hdue := due_nonneg h now
  have htokens := h.tokens
  unfold after
  split_ifs
  · exact h
  · exact ⟨h.capacity, h.refill, by dsimp only; omega, normalize_nonneg now⟩

/-- After a look that added tokens the due amount is counted from there. -/
theorem due_after (ht : t₁ ≤ t₂) (h₁ : ¬ due b t₁ < 1000) : due (after b t₁) t₂ = due b t₂ - due b t₁ := by
  have hmono := normalize_mono ht
  have hpos : 0 < normalizeNowMs t₁ - b.lastRefillMs := by
    by_contra hle
    refine h₁ ?_
    rw [due, idle, max_eq_left (not_lt.mp hle), zero_mul]
    decide
  rw [after, if_neg h₁]
  unfold due idle
  dsimp only
  rw [max_eq_right (by omega), max_eq_right (by omega), max_eq_right (by omega), ← Int.sub_mul,
    sub_sub_sub_cancel_right]

/-- Looking at the bucket at `t₁` changes nothing at `t₂`, and a long enough pause fills it. -/
def RefillLaw (b : TokenBucket) (t₁ t₂ : Int) : Prop :=
  ∃ b₁ b₁₂ b₂, tokenBucketRefillAt b t₁ = some b₁ ∧ tokenBucketRefillAt b₁ t₂ = some b₁₂ ∧
    tokenBucketRefillAt b t₂ = some b₂ ∧ b₁₂.tokens = b₂.tokens ∧
    ((b.capacity * 1000 + b.refillPerSecond - 1) / b.refillPerSecond ≤ idle b t₂ → b₂.tokens = b.capacity)

/-- The whole pause fits 64 bits, and the look at `t₁` adds nothing, or fills up with what follows, or
the fractions it drops do not add up to a token. -/
def NothingLost (b : TokenBucket) (t₁ t₂ : Int) : Prop :=
  due b t₂ < 2 ^ 63 ∧ (due b t₁ < 1000 ∨ b.capacity ≤ b.tokens + due b t₁ / 1000 + (due b t₂ - due b t₁) / 1000 ∨
    due b t₁ % 1000 + (due b t₂ - due b t₁) % 1000 < 1000)

theorem refill_law_iff (h : b.Valid) (ht : t₁ ≤ t₂) : RefillLaw b t₁ t₂ ↔ NothingLost b t₁ t₂ := by
  have hmono := due_mono h ht
  have h₀ := due_nonneg h t₁
  have htokens := h.tokens
  have hfull (hidle : (b.capacity * 1000 + b.refillPerSecond - 1) / b.refillPerSecond ≤ idle b t₂) :
      (after b t₂).tokens = b.capacity := by
    have hdue : b.capacity * 1000 ≤ due b t₂ := (Int.le_mul_iff_le_left (by have := h.refill; omega)).mpr hidle
    rw [after, if_neg (by have := h.capacity; omega)]
    dsimp only
    omega
  have hiff : RefillLaw b t₁ t₂ ↔ due b t₂ < 2 ^ 63 ∧ (after (after b t₁) t₂).tokens = (after b t₂).tokens := by
    have hsmall : due (after b t₁) t₂ ≤ due b t₂ := by
      by_cases h₁ : due b t₁ < 1000
      · rw [after, if_pos h₁]
      · rw [due_after ht h₁]
        omega
    constructor
    · rintro ⟨b₁, b₁₂, b₂, e₁, e₁₂, e₂, heq, -⟩
      rw [refillAt_eq h] at e₁ e₂
      split_ifs at e₁ e₂ with hlt₁ hlt₂
      cases e₁
      cases e₂
      rw [refillAt_eq (valid_after h t₁), if_pos (by omega)] at e₁₂
      cases e₁₂
      exact ⟨hlt₂, heq⟩
    · rintro ⟨hlt, heq⟩
      refine ⟨_, _, _, (refillAt_eq h t₁).trans (if_pos (by omega)),
        (refillAt_eq (valid_after h t₁) t₂).trans (if_pos (by omega)), (refillAt_eq h t₂).trans (if_pos hlt), heq, hfull⟩
  rw [hiff, NothingLost]
  refine and_congr_right fun _ => ?_
  by_cases h₁ : due b t₁ < 1000
  · simp [after, h₁]
  · have hdue := due_after ht h₁
    rw [after, hdue]
    simp only [after, if_neg h₁, if_neg (show ¬ due b t₂ < 1000 by omega)]
    split_ifs <;> dsimp only <;> omega

end Refill

theorem refill_law_iff_whole : RefillLaw ⟨10, 2, 0, 0⟩ 1500 2000 ↔ NothingLost ⟨10, 2, 0, 0⟩ 1500 2000 :=
  refill_law_iff ⟨by decide, by decide, by decide, by decide⟩ (by decide)

/-- One token a second: a look after 1.5 seconds drops half a token. -/
theorem refill_law_fails : ¬ RefillLaw ⟨10, 1, 0, 0⟩ 1500 2000 := by
  rintro ⟨b₁, b₁₂, b₂, e₁, e₁₂, e₂, heq, -⟩
  cases e₁
  cases e₁₂
  cases e₂
  revert heq
  decide

structure Error where
  message : String
  context : String
  detail : Int ⊕ List (String × Int)

def validateTokenBucketConfig (capacity refillPerSecond initialTokens : Int) : Option Error :=
  if capacity < 1 ∨ capacity > 1000000000 then
    some ⟨"capacity must be between 1 and 1000000000", "rateLimit.tokenBucket.capacity", .inl capacity⟩
  else if refillPerSecond < 1 ∨ refillPerSecond > 1000000000 then
    some ⟨"refillPerSecond must be between 1 and 1000000000", "rateLimit.tokenBucket.refillPerSecond",
      .inl refillPerSecond⟩
  else if initialTokens < 0 ∨ initialTokens > capacity then
    some ⟨"initialTokens must be between 0 and capacity", "rateLimit.tokenBucket.initialTokens", .inl initialTokens⟩
  else none

def tokenBucketNewAt (capacity refillPerSecond initialTokens now : Int) : TokenBucket × Option Error :=
  match validateTokenBucketConfig capacity refillPerSecond initialTokens with
  | some err => (⟨0, 0, 0, 0⟩, some err)
  | none => (⟨capacity, refillPerSecond, initialTokens, normalizeNowMs now⟩, none)

inductive Reply where
  | granted
  | denied (retryAfterMs : Int)
  | error (err : Error)

/-- A call that passes the checks, on the refilled bucket. -/
def consume (next : TokenBucket) (permits : Int) : TokenBucket × Reply :=
  if next.tokens ≥ permits then ({ next with tokens := next.tokens - permits }, .granted)
  else
    let deficit := permits - next.tokens
    let retryAfterMs := (deficit * 1000 + next.refillPerSecond - 1).tdiv next.refillPerSecond
    (next, .denied (if retryAfterMs < 1 then 1 else retryAfterMs))

def tokenBucketTryConsumeAt (bucket : TokenBucket) (permits now : Int) : Option (TokenBucket × Reply) :=
  if permits < 1 ∨ permits > 1000000000 then
    some (bucket, .error ⟨"permits must be between 1 and 1000000000", "rateLimit.tokenBucket.permits", .inl permits⟩)
  else if permits > bucket.capacity then
    some (bucket, .error ⟨"permits cannot exceed bucket capacity", "rateLimit.tokenBucket.permitsVsCapacity",
      .inr [("permits", permits), ("capacity", bucket.capacity)]⟩)
  else do return consume (← tokenBucketRefillAt bucket now) permits

def Reply.taken (permits : Int) : Reply → Int
  | granted => permits
  | denied _ | error _ => 0

/-- What calls, each with its permits and its time, leave and are granted. A run ends where a product overflows. -/
def run (b : TokenBucket) : List (Int × Int) → TokenBucket × Int
  | [] => (b, 0)
  | (permits, now) :: calls =>
    match tokenBucketTryConsumeAt b permits now with
    | none => (b, 0)
    | some (next, reply) =>
      let (last, taken) := run next calls
      (last, reply.taken permits + taken)

/-- Thousandths of tokens: those in the bucket and those that fall due until `t`. -/
def reserve (t : Int) : Int := b.tokens * 1000 + (normalizeNowMs t - b.lastRefillMs) * b.refillPerSecond

section Calls

variable {b b' : TokenBucket} {permits now t r : Int} {reply : Reply} {calls : List (Int × Int)}

structure Draws (b : TokenBucket) (calls : List (Int × Int)) (b' : TokenBucket) (taken : Int) : Prop where
  valid : b'.Valid
  last (t : Int) : b.lastRefillMs ≤ normalizeNowMs t → (∀ c ∈ calls, c.2 ≤ t) → b'.lastRefillMs ≤ normalizeNowMs t
  reserve (t : Int) : taken * 1000 + reserve b' t ≤ reserve b t

theorem Draws.stay (h : b.Valid) (calls : List (Int × Int)) : Draws b calls b 0 := ⟨h, fun _ hlast _ => hlast, by simp⟩

theorem draws_after (h : b.Valid) (permits now : Int) : Draws b [(permits, now)] (after b now) 0 := by
  by_cases hdue : due b now < 1000
  · rw [after, if_pos hdue]
    exact .stay h _
  -- tokens are added, so the last refill lies before this one
  have heq : due b now = (normalizeNowMs now - b.lastRefillMs) * b.refillPerSecond := by
    rw [due, idle] at hdue ⊢
    rcases max_cases 0 (normalizeNowMs now - b.lastRefillMs) with hmax | hmax
    · simp [hmax.1] at hdue
    · rw [hmax.1]
  refine ⟨valid_after h now, fun t _ hnow => ?_, fun t => ?_⟩ <;> rw [after, if_neg hdue]
  · exact normalize_mono (hnow _ List.mem_cons_self)
  · rw [Int.sub_mul] at heq
    simp only [RateLimit.reserve, Int.sub_mul]
    omega

theorem tryConsumeAt_cases (h : b.Valid) (permits now : Int) :
    (¬(1 ≤ permits ∧ permits ≤ b.capacity) ∧ ∃ err, tokenBucketTryConsumeAt b permits now = some (b, .error err)) ∨
      (1 ≤ permits ∧ permits ≤ b.capacity) ∧ tokenBucketTryConsumeAt b permits now =
        if due b now < 2 ^ 63 then some (consume (after b now) permits) else none := by
  have := h.capacity
  rw [tokenBucketTryConsumeAt, refillAt_eq h]
  split_ifs
  any_goals exact .inl ⟨by omega, _, rfl⟩
  all_goals exact .inr ⟨by omega, rfl⟩

theorem draws_call (h : b.Valid) (hcall : tokenBucketTryConsumeAt b permits now = some (b', reply)) :
    Draws b [(permits, now)] b' (reply.taken permits) := by
  rcases tryConsumeAt_cases h permits now with ⟨-, err, he⟩ | ⟨hpermits, he⟩ <;> rw [he] at hcall
  · cases hcall
    exact .stay h _
  obtain ⟨hvalid, hlast, hreserve⟩ := draws_after h permits now
  rw [consume] at hcall
  split_ifs at hcall <;> cases hcall
  · have := hvalid.tokens
    refine ⟨⟨hvalid.capacity, hvalid.refill, by dsimp only; omega, hvalid.last⟩, hlast, fun t => ?_⟩
    have := hreserve t
    simp only [RateLimit.reserve, Reply.taken] at this ⊢
    omega
  · exact ⟨hvalid, hlast, hreserve⟩

theorem draws_run (h : b.Valid) (calls : List (Int × Int)) : Draws b calls (run b calls).1 (run b calls).2 := by
  induction calls generalizing b with
  | nil => exact .stay h _
  | cons c calls ih =>
    rw [run]
    cases hcall : tokenBucketTryConsumeAt b c.1 c.2 with
    | none => exact .stay h _
    | some result =>
      have hstep := draws_call h hcall
      have hrest := ih hstep.valid
      refine ⟨hrest.valid, fun t hlast hcalls => ?_, fun t => ?_⟩
      · obtain ⟨hc, hcalls⟩ := List.forall_mem_cons.mp hcalls
        exact hrest.last t (hstep.last t hlast (by simpa using hc)) hcalls
      · have := hstep.reserve t
        have := hrest.reserve t
        dsimp only
        omega

/-- A denied call that comes back after the time named, with no other in between, is granted. -/
theorem bucket_grants_retry (h : b.Valid) (hlast : b.lastRefillMs ≤ now)
    (hcall : tokenBucketTryConsumeAt b permits now = some (b', .denied r)) (ht : now + r ≤ t)
    (hfits : due b' t < 2 ^ 63) : ∃ b'', tokenBucketTryConsumeAt b' permits t = some (b'', .granted) := by
  obtain ⟨hvalid, hafter, -⟩ := draws_after h permits now
  rcases tryConsumeAt_cases h permits now with ⟨-, err, he⟩ | ⟨hpermits, he⟩ <;> rw [he] at hcall
  · cases hcall
  rw [consume] at hcall
  split_ifs at hcall <;> cases hcall
  have := hvalid.refill
  have hdue : (permits - (after b now).tokens) * 1000 ≤ due (after b now) t := by
    refine (Int.le_mul_iff_le_left (by omega)).mpr ?_
    have := h.last
    have hnow : normalizeNowMs now = now := if_neg (by omega)
    have := hafter now (by omega) (by simp)
    rw [Int.tdiv_eq_ediv_of_nonneg (by omega)] at ht
    rw [idle, normalizeNowMs]
    split_ifs at ht ⊢ <;> omega
  have hcap : (after b now).capacity = b.capacity := by rw [after]; split_ifs <;> rfl
  rcases tryConsumeAt_cases hvalid permits t with ⟨hbad, -⟩ | ⟨-, he⟩
  · omega
  rw [he, if_pos hfits]
  refine ⟨_, congrArg some (if_pos ?_)⟩
  rw [after, if_neg (by omega)]
  dsimp only
  omega

theorem bucket_grants_retry_later :
    ∃ b, tokenBucketTryConsumeAt ⟨10, 2, 1, 0⟩ 4 1500 = some (b, .granted) :=
  @bucket_grants_retry ⟨10, 2, 1, 0⟩ _ 4 0 1500 1500 ⟨by decide, by decide, by decide, by decide⟩ (by decide) rfl
    (by decide) (by decide)

end Calls

end Tablo.RateLimit
