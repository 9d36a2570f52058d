import Tablo.SessionRun
import Tablo.SignedTokenCorrect

/-! Revocation over whole runs. A purge drops an entry at the instant it expires,
while the token is good up to and including that instant; and a revocation
replaces an earlier one of the same identifier, also when it expires sooner. -/

namespace Tablo.SessionToken

open Encoding SignedToken List

variable {host : Host} {store : CryptoSignedJsonClaimsRevocationStore} {clock : Int} {calls : List Call}
  {history : History} {p : String × Int}

def Nondecreasing (calls : List Call) : Prop := (calls.filterMap Call.time).Pairwise (· ≤ ·)

instance (calls : List Call) : Decidable (Nondecreasing calls) :=
  inferInstanceAs (Decidable ((calls.filterMap Call.time).Pairwise (· ≤ ·)))

def Timely : Int → List Call → Prop
  | _, [] => True
  | clock, call :: calls =>
    (∀ now, call.time = some now → clock ≤ cryptoNormalizeWallTimeMillis now) ∧ Timely (call.after clock) calls

theorem normalize_mono {a b : Int} (h : a ≤ b) : cryptoNormalizeWallTimeMillis a ≤ cryptoNormalizeWallTimeMillis b := by
  rw [cryptoNormalizeWallTimeMillis, cryptoNormalizeWallTimeMillis]
  split <;> split <;> omega

theorem timely_of_nondecreasing (h : Nondecreasing calls)
    (hclock : ∀ now ∈ calls.filterMap Call.time, clock ≤ cryptoNormalizeWallTimeMillis now) : Timely clock calls := by
  induction calls generalizing clock with
  | nil => trivial
  | cons call calls ih =>
    rw [Nondecreasing] at h ih
    cases ht : call.time with
    | none =>
      rw [filterMap_cons_none ht] at h hclock
      refine ⟨by simp [ht], ?_⟩
      rw [Call.after, ht]
      exact ih h hclock
    | some now =>
      rw [filterMap_cons_some ht] at h hclock
      rw [pairwise_cons] at h
      refine ⟨fun n hn => hclock n (by rw [ht] at hn; simp_all), ?_⟩
      rw [Call.after, ht]
      exact ih h.2 fun n hn => normalize_mono (h.1 n hn)

theorem Timely.append {more : List Call} (h : Timely clock (calls ++ more)) :
    Timely clock calls ∧ Timely (calls.foldl (fun now call => call.after now) clock) more := by
  induction calls generalizing clock with
  | nil => exact ⟨trivial, h⟩
  | cons call calls ih =>
    obtain ⟨hc, hm⟩ := ih h.2
    exact ⟨⟨h.1, hc⟩, hm⟩

theorem Recorded.run (h : Recorded store clock) (ht : Timely clock calls) :
    Recorded (runFrom host store calls) (calls.foldl (fun now call => call.after now) clock) := by
  induction calls generalizing store clock with
  | nil => exact h
  | cons call calls ih =>
    obtain ⟨_, _, hrec⟩ := @step host store clock h call ht.1
    exact ih hrec ht.2

theorem Recorded.answers_eq {other : CryptoSignedJsonClaimsRevocationStore} (h : Recorded store clock)
    (h' : Recorded other clock) (hhist : store.history = other.history) (ht : Timely clock calls) :
    answers host store calls = answers host other calls := by
  induction calls generalizing store other clock with
  | nil => rfl
  | cons call calls ih =>
    obtain ⟨hans, hnext, hrec⟩ := @step host store clock h call ht.1
    obtain ⟨hans', hnext', hrec'⟩ := @step host other clock h' call ht.1
    rw [hhist] at hans hnext
    rw [answers, answers, hans, hans', ih hrec hrec' (hnext.trans hnext'.symm) ht.2]

theorem mem_recordId (h : p ∈ history) (jwtId : String) (expires : Int) : p ∈ (recordId history jwtId expires).1 := by
  rw [recordId]
  split
  · exact h
  · exact mem_cons_of_mem _ h

theorem mem_recordClaims (h : p ∈ history)
    (claims : CryptoSignedJsonClaimsEnvelope) : p ∈ (recordClaims history claims).1 := by
  rw [recordClaims]
  split
  next => exact mem_recordId h _ _
  next => exact h

theorem mem_historyStep (h : p ∈ history) (call : Call) : p ∈ (historyStep host history call).1 := by
  cases call with
  | issue | issuePair | verify => exact h
  | revokeId jwtId expires => exact mem_recordId h jwtId expires
  | revoke claims => exact mem_recordClaims h claims
  | revokePair issued =>
    rw [historyStep, recordPair]
    split
    · exact h
    · exact mem_recordId (mem_recordId h _ _) _ _
  | purge => exact h
  | rotate r =>
    rw [historyStep, Rotation.against]
    split
    next => exact h
    next v _ =>
      split
      next => exact h
      next =>
        have hrec := mem_recordClaims h v.claims
        dsimp only
        split
        next => exact hrec
        next => split <;> exact hrec

theorem Recorded.mem_run (h : Recorded store clock) (ht : Timely clock calls)
    (hp : p ∈ store.history) : p ∈ (runFrom host store calls).history := by
  induction calls generalizing store clock with
  | nil => exact hp
  | cons call calls ih =>
    obtain ⟨_, hnext, hrec⟩ := @step host store clock h call ht.1
    refine ih hrec ht.2 ?_
    rw [hnext]
    exact mem_historyStep hp call

theorem validateVerifiedKind_ok {v : CryptoSessionTokenVerifyResult} {kind : String}
    (h : (cryptoSessionTokenPairValidateVerifiedKind host v kind).ok = true) : v.ok = true := by
  rw [cryptoSessionTokenPairValidateVerifiedKind] at h
  split at h
  next => exact h
  next hgood =>
    simp only [not_or, Decidable.not_not] at hgood
    exact hgood.1

theorem claims_validateVerifiedKind (v : CryptoSessionTokenVerifyResult) (kind : String) :
    (cryptoSessionTokenPairValidateVerifiedKind host v kind).claims = v.claims := by
  rw [cryptoSessionTokenPairValidateVerifiedKind]
  repeat' split
  all_goals rfl

/-- A check passes for the claims in the token, whenever their identifier is not revoked. -/
theorem Check.against_ok {check : Check} {r : CryptoSessionTokenVerifyResult}
    (h : check.against host history = some r) (hok : r.ok = true) :
    ∃ jwtId, cryptoSignedJsonClaimsExtractJwtId r.claims true = some (some jwtId) ∧
      tokenClaims host check.token = some r.claims ∧
      revokedAt history jwtId (cryptoNormalizeWallTimeMillis check.nowMs) = false ∧
      ∀ other : History, revokedAt other jwtId (cryptoNormalizeWallTimeMillis check.nowMs) = false →
        check.against host other = some r := by
  rw [against] at h
  cases hkind : check.kind with
  | none =>
    rw [hkind] at h
    obtain ⟨jwtId, hid, hclaims, hnot, hall⟩ := verifyAgainst_ok h hok
    refine ⟨jwtId, hid, hclaims, hnot, fun other hr => ?_⟩
    rw [against, hkind]
    exact hall _ hr
  | some kind =>
    rw [hkind] at h
    obtain ⟨v, hv, rfl⟩ := Option.map_eq_some_iff.mp h
    obtain ⟨jwtId, hid, hclaims, hnot, hall⟩ := verifyAgainst_ok hv (validateVerifiedKind_ok hok)
    rw [claims_validateVerifiedKind]
    refine ⟨jwtId, hid, hclaims, hnot, fun other hr => ?_⟩
    rw [against, hkind]
    exact Option.map_eq_some_iff.mpr ⟨v, hall _ hr, rfl⟩

/-- A rotation that succeeds has verified the refresh token and recorded its
revocation. -/
theorem Rotation.against_ok {r : Rotation} {history : History} {result : CryptoSessionTokenPairRotateResult}
    (h : (r.against host history).2 = some result) (hok : result.ok = true) :
    ∃ v jwtId, r.check.against host history = some v ∧ v.ok = true ∧
      cryptoSignedJsonClaimsExtractJwtId v.claims true = some (some jwtId) ∧
      (jwtId, v.claims.expiresAtMillis) ∈ (r.against host history).1 := by
  rw [against] at h ⊢
  cases hv : r.check.against host history with
  | none => simp [hv] at h
  | some v =>
    simp only [hv] at h ⊢
    by_cases hstop : ¬ v.ok ∨ v.expired ∨ v.revoked
    · rw [if_pos hstop] at h
      cases h
      cases hok
    · rw [if_neg hstop] at h ⊢
      have hvok : v.ok = true := by
        simp only [not_or, Decidable.not_not] at hstop
        exact hstop.1
      obtain ⟨jwtId, hid, _⟩ := Check.against_ok hv hvok
      by_cases hbad : ¬ (recordClaims history v.claims).2
      · rw [if_pos hbad] at h
        cases h
      · rw [if_neg hbad] at h ⊢
        refine ⟨v, jwtId, rfl, hvok, hid, ?_⟩
        have hmem : (jwtId, v.claims.expiresAtMillis) ∈ (recordClaims history v.claims).1 := by
          have hrecord : recordClaims history v.claims = recordId history jwtId v.claims.expiresAtMillis := by
            rw [recordClaims, hid]
          rw [hrecord, recordId] at hbad
          rw [hrecord, recordId]
          split at hbad
          next => simp at hbad
          next hvalid =>
            rw [if_neg hvalid]
            exact mem_cons_self
        split
        next => exact hmem
        next => exact hmem

section Law

variable (host : Host) (calls : List Call)

def runStore : CryptoSignedJsonClaimsRevocationStore :=
  runFrom host cryptoSignedJsonClaimsRevocationStoreNew calls

def OwnRevoked (history : History) (token : Text) : Prop :=
  ∃ claims jwtId, tokenClaims host token = some claims ∧
    cryptoSignedJsonClaimsExtractJwtId claims true = some (some jwtId) ∧ (jwtId, claims.expiresAtMillis) ∈ history

def NeverAgain : Prop :=
  ∀ before call after check r, calls = before ++ call :: after → call.check = some check →
    (check.run host (runStore host before)).2 = some r →
    OwnRevoked host (runStore host before).history check.token → r.ok = false

def RotationSucceeds (rotation : Rotation) (store : CryptoSignedJsonClaimsRevocationStore) : Prop :=
  ∃ result, (rotation.run host store).2 = some result ∧ result.ok = true

def RotatedOnce : Prop :=
  ∀ before r₁ between r₂ after, calls = before ++ .rotate r₁ :: (between ++ .rotate r₂ :: after) →
    r₁.refreshToken = r₂.refreshToken → RotationSucceeds host r₁ (runStore host before) →
    ¬ RotationSucceeds host r₂ (runStore host (before ++ .rotate r₁ :: between))

def PurgeUnseen : Prop :=
  ∀ before now after, calls = before ++ .purge now :: after →
    answers host (step host (runStore host before) (.purge now)).1 after = answers host (runStore host before) after

def NextExpiryBound : Prop :=
  ∀ before after, calls = before ++ after →
    ((runStore host before).entries = [] → (runStore host before).nextExpiryMillis = 0) ∧
      ∀ k v, (runStore host before).entries.lookup k = some v →
        ∃ e, v = .int e ∧ (runStore host before).nextExpiryMillis ≤ e

/-- When a token that was revoked with its own expiry is verified at a time at
which a new store would let it pass, the last revocation of its identifier
expires after that time. -/
def StillRevoked : Prop :=
  ∀ before call after check r, calls = before ++ call :: after → call.check = some check →
    (check.run host cryptoSignedJsonClaimsRevocationStoreNew).2 = some r → r.ok = true →
    OwnRevoked host (runStore host before).history check.token →
    ∃ jwtId e, cryptoSignedJsonClaimsExtractJwtId r.claims true = some (some jwtId) ∧
      (runStore host before).history.lookup jwtId = some e ∧ cryptoNormalizeWallTimeMillis check.nowMs < e

end Law

theorem timely_of_start (h : Nondecreasing calls) : Timely 0 calls :=
  timely_of_nondecreasing h fun now _ => normalize_nonneg now

theorem recorded_before (h : Timely 0 calls) {before after : List Call} (he : calls = before ++ after) :
    ∃ clock, Recorded (runStore host before) clock ∧ Timely clock after := by
  rw [he] at h
  obtain ⟨hb, ha⟩ := h.append
  exact ⟨_, recorded_new.run hb, ha⟩

theorem check_eq_against (h : Recorded store clock)
    {call : Call} {after : List Call} (ht : Timely clock (call :: after)) {check : Check}
    (hc : call.check = some check) : (check.run host store).2 = check.against host store.history := by
  have htime : call.time = some check.nowMs := by
    cases call with
    | verify c | rotate r =>
      cases hc
      rfl
    | issue | issuePair | revokeId | revoke | revokePair | purge => cases hc
  exact (h.check (ht.1 _ htime)).answer

theorem check_new (check : Check) :
    (check.run host cryptoSignedJsonClaimsRevocationStoreNew).2 = check.against host [] :=
  (recorded_new.check (normalize_nonneg _)).answer

section

variable (h : Timely 0 calls)

include h

/-- A passing check of a token that was revoked with its own expiry breaks the
condition, and nothing else does. -/
theorem neverAgain_iff : NeverAgain host calls ↔ StillRevoked host calls := by
  constructor
  · intro hnever before call after check r he hc hnew hok hown
    obtain ⟨clock, hrec, ht⟩ := @recorded_before host _ h _ _ he
    rw [check_new] at hnew
    obtain ⟨jwtId, hid, _, _, hall⟩ := Check.against_ok hnew hok
    cases hr : revokedAt (runStore host before).history jwtId (cryptoNormalizeWallTimeMillis check.nowMs) with
    | true =>
      obtain ⟨e, hlook, hlt⟩ := revokedAt_iff.mp hr
      exact ⟨jwtId, e, hid, hlook, hlt⟩
    | false =>
      have hpass := hall _ hr
      rw [← check_eq_against hrec ht hc] at hpass
      rw [hnever before call after check r he hc hpass hown] at hok
      cases hok
  · intro hstill before call after check r he hc hrun hown
    obtain ⟨clock, hrec, ht⟩ := @recorded_before host _ h _ _ he
    cases hok : r.ok with
    | false => rfl
    | true =>
      rw [check_eq_against hrec ht hc] at hrun
      obtain ⟨jwtId, hid, _, hnot, hall⟩ := Check.against_ok hrun hok
      have hpass := hall [] rfl
      rw [← check_new] at hpass
      obtain ⟨jwtId', e, hid', hlook, hlt⟩ := hstill before call after check r he hc hpass hok hown
      rw [hid] at hid'
      cases hid'
      rw [revokedAt_iff.mpr ⟨e, hlook, hlt⟩] at hnot
      cases hnot

theorem rotatedOnce_of_neverAgain (hnever : NeverAgain host calls) : RotatedOnce host calls := by
  rintro before r₁ between r₂ after he htoken ⟨result₁, hres₁, hok₁⟩ ⟨result₂, hres₂, hok₂⟩
  obtain ⟨clock₁, hrec₁, ht₁⟩ := @recorded_before host _ h _ _ he
  obtain ⟨hans₁, hhist₁, _⟩ := @Recorded.rotation host _ _ hrec₁ r₁ (ht₁.1 _ rfl)
  rw [hans₁] at hres₁
  obtain ⟨v₁, jwtId, hv₁, hvok₁, hid, hmem⟩ := Rotation.against_ok hres₁ hok₁
  obtain ⟨_, _, hclaims₁, _⟩ := Check.against_ok hv₁ hvok₁
  -- the revocation of the first rotation is in the history of the second
  have he₂ : calls = (before ++ .rotate r₁ :: between) ++ .rotate r₂ :: after := by
    rw [he]
    simp
  obtain ⟨clock₂, hrec₂, ht₂⟩ := @recorded_before host _ h _ _ he₂
  have hown : OwnRevoked host (runStore host (before ++ .rotate r₁ :: between)).history r₂.refreshToken := by
    refine ⟨v₁.claims, jwtId, ?_, hid, ?_⟩
    · rw [← htoken]
      exact hclaims₁
    · have hrun : runStore host (before ++ .rotate r₁ :: between) =
          runFrom host (step host (runStore host before) (.rotate r₁)).1 between := by
        rw [runStore, runFrom, foldl_append]
        rfl
      obtain ⟨_, hnext, hrecn⟩ := @Recorded.step host _ _ hrec₁ (.rotate r₁) ht₁.1
      rw [hrun]
      refine hrecn.mem_run ht₁.2.append.1 ?_
      rw [hnext]
      exact hmem
  obtain ⟨hans₂, _, _⟩ := @Recorded.rotation host _ _ hrec₂ r₂ (ht₂.1 _ rfl)
  rw [hans₂] at hres₂
  obtain ⟨v₂, _, hv₂, hvok₂, _, _⟩ := Rotation.against_ok hres₂ hok₂
  rw [← check_eq_against hrec₂ ht₂ (show Call.check (.rotate r₂) = some r₂.check from rfl)] at hv₂
  rw [hnever _ _ _ _ _ he₂ rfl hv₂ hown] at hvok₂
  cases hvok₂

theorem purgeUnseen : PurgeUnseen host calls := by
  intro before now after he
  obtain ⟨clock, hrec, ht⟩ := @recorded_before host _ h _ _ he
  obtain ⟨_, hhist, hrec'⟩ := @Recorded.step host _ _ hrec (.purge now) ht.1
  exact hrec'.answers_eq (hrec.later (ht.1 _ rfl)) hhist ht.2

theorem nextExpiryBound : NextExpiryBound host calls := by
  intro before after he
  obtain ⟨clock, hrec, _⟩ := @recorded_before host _ h _ _ he
  refine ⟨hrec.empty, fun k v hv => ?_⟩
  obtain ⟨e, rfl, _⟩ := hrec.last k v hv
  exact ⟨e, rfl, (hrec.least k e hv).2⟩

end

/-- Over every run, revoked tokens stay unusable, refresh tokens are rotated once,
purges are not seen and the cached expiry is a bound, exactly when no revoked
token is checked after its last revocation has expired but while it is good. -/
theorem revocation_over_runs (h : Nondecreasing calls) :
    (NeverAgain host calls ∧ RotatedOnce host calls ∧ PurgeUnseen host calls ∧ NextExpiryBound host calls) ↔
      StillRevoked host calls := by
  have ht := timely_of_start h
  constructor
  · rintro ⟨hnever, _, _, _⟩
    exact (neverAgain_iff ht).mp hnever
  · intro hstill
    have hnever := (neverAgain_iff ht).mpr hstill
    exact ⟨hnever, rotatedOnce_of_neverAgain ht hnever, purgeUnseen ht, nextExpiryBound ht⟩

def plainHost : Host where
  mac := fun _ body => body
  jsonParse := fun _ => some (.map [("claims", .map [("sub", .string "user"), ("jti", .string "a")])])
  jsonStringify := fun _ => some []
  uuidIsValid := fun _ => true

def plainConfig : CryptoSessionTokenConfig := ⟨none, none, none, 10, 0, false⟩

def plainToken : Text :=
  cryptoSignedTokenBuildBody cryptoSignedTokenVersion 0 10 (encodingBase64UrlEncodeBytes [] false) ++ [char '.'] ++
    encodingBase64UrlEncodeBytes
      (cryptoSignedTokenBuildBody cryptoSignedTokenVersion 0 10 (encodingBase64UrlEncodeBytes [] false)) false

def verifyAt (now : Int) : Call := .verify ⟨none, [], plainConfig, plainToken, now⟩

theorem tokenClaims_plain : tokenClaims plainHost plainToken =
      some ⟨cryptoSignedTokenVersion, 0, 10, none, [("sub", .string "user"), ("jti", .string "a")]⟩ := by
  rfl

/-- While the entry is there the token is refused. -/
theorem revocation_over_runs_before : NeverAgain plainHost [.revokeId "a" 10, verifyAt 9] := by
  refine ((revocation_over_runs (by decide)).mpr ?_).1
  intro before call after check r he hc hnew hok hown
  match before with
  | [] =>
    obtain ⟨_, _, _, _, hmem⟩ := hown
    cases hmem
  | [first] =>
    cases he
    cases hc
    rw [check_new] at hnew
    obtain ⟨_, _, hclaims, _⟩ := Check.against_ok hnew hok
    rw [tokenClaims_plain, Option.some.injEq] at hclaims
    refine ⟨"a", 10, ?_, rfl, by decide⟩
    rw [← hclaims]
    rfl
  | first :: second :: rest => simp at he

/-- At the instant of its expiry the entry is gone and the token verifies ok. -/
theorem revoked_token_verifies :
    Nondecreasing [.revokeId "a" 10, verifyAt 10] ∧ ¬ NeverAgain plainHost [.revokeId "a" 10, verifyAt 10] := by
  refine ⟨by decide, fun hnever => ?_⟩
  have hpass : ((Check.run plainHost ⟨none, [], plainConfig, plainToken, 10⟩
      (runStore plainHost [.revokeId "a" 10])).2.map fun r => r.ok) = some true := by decide +kernel
  obtain ⟨r, hr, hok⟩ := Option.map_eq_some_iff.mp hpass
  have hown : OwnRevoked plainHost (runStore plainHost [.revokeId "a" 10]).history plainToken :=
    ⟨_, "a", tokenClaims_plain, rfl, mem_cons_self⟩
  rw [hnever [.revokeId "a" 10] (verifyAt 10) [] _ r rfl rfl hr hown] at hok
  cases hok

end Tablo.SessionToken
