import Tablo.SessionStore

/-! Runs of calls that share one revocation store, and the same runs over the
history of revocations alone. The history never forgets, so a purge does nothing
to it; the two runs give the same answers when the times of the calls do not
decrease. -/

namespace Tablo.SessionToken

open Encoding SignedToken

section Against

variable (host : Host) {claims : CryptoSignedJsonClaimsEnvelope} {now : Int} {secret : List Byte} {token : Text}

def verifyAgainst (revoked : String → Bool) (secret : List Byte) (config : CryptoSessionTokenConfig) (token : Text)
    (nowMs : Int) : Option CryptoSessionTokenVerifyResult :=
  match cryptoSessionTokenValidationPolicy config with
  | none => none
  | some policy =>
    match cryptoSignedJsonClaimsVerifyWithPolicy host secret token (cryptoNormalizeWallTimeMillis nowMs) policy with
    | none => none
    | some verified =>
      let result := sessionResult verified
      if ¬ verified.1 ∨ verified.2.1 then some result
      else match cryptoSessionTokenExtractSubject verified.2.2 with
        | none => some { result with ok := false, subject := none }
        | some subject =>
          match cryptoSignedJsonClaimsExtractJwtId verified.2.2 true with
          | some (some jwtId) =>
            let result := { result with subject := some subject, jwtId := some jwtId }
            if revoked jwtId then some { result with ok := false, revoked := true } else some result
          | _ => some { result with ok := false, subject := some subject, jwtId := none }

theorem extractJwtId_required {found : Option String}
    (h : cryptoSignedJsonClaimsExtractJwtId claims true = some found) :
    ∃ jwtId, found = some jwtId ∧ cryptoSignedJsonClaimsExtractJwtId claims false = some (some jwtId) := by
  rw [cryptoSignedJsonClaimsExtractJwtId] at h ⊢
  split at h
  next => cases h
  next jwtId _ =>
    split at h
    next => cases h
    next hne =>
      cases h
      exact ⟨jwtId, rfl, if_neg hne⟩
  next => cases h

abbrev History := List (String × Int)

/-- The store answers as the history does and is again a record of it. -/
structure Follows {β : Type} (x : CryptoSignedJsonClaimsRevocationStore × β) (y : History × β) (now : Int) : Prop where
  answer : x.2 = y.2
  history : x.1.history = y.1
  recorded : Recorded x.1 now

variable {host} {store : CryptoSignedJsonClaimsRevocationStore} {clock : Int}

theorem Recorded.later (h : Recorded store clock) (hnow : clock ≤ now) : Recorded store now :=
  { h with kept := fun k e he hlt => h.kept k e he (by omega) }

theorem Recorded.isRevokedAt (h : Recorded store clock) {jwtId : String}
    (hid : cryptoSignedJsonClaimsExtractJwtId claims false = some (some jwtId))
    (hnow : clock ≤ cryptoNormalizeWallTimeMillis now) :
    Follows (cryptoSignedJsonClaimsRevocationStoreIsRevokedAt store claims now)
      (store.history, some (revokedAt store.history jwtId (cryptoNormalizeWallTimeMillis now)))
      (cryptoNormalizeWallTimeMillis now) := by
  rw [cryptoSignedJsonClaimsRevocationStoreIsRevokedAt]
  simp only [hid]
  exact ⟨congrArg some (h.has_purge hnow jwtId), history_purge now, (h.purge hnow).1⟩

theorem Recorded.verifyText (h : Recorded store clock) {secret : List Byte} {config : CryptoSessionTokenConfig}
    {token : Text} {nowMs : Int} (hnow : clock ≤ cryptoNormalizeWallTimeMillis nowMs) :
    Follows (cryptoSessionTokenVerifyText host secret config token nowMs store) (store.history, verifyAgainst host
        (fun id => revokedAt store.history id (cryptoNormalizeWallTimeMillis nowMs)) secret config token nowMs)
      (cryptoNormalizeWallTimeMillis nowMs) := by
  have hnorm := normalize_of_nonneg (normalize_nonneg nowMs)
  have hpurge := (@purge store clock h (cryptoNormalizeWallTimeMillis nowMs) (by rwa [hnorm])).1
  have hhist := @history_purge store (cryptoNormalizeWallTimeMillis nowMs)
  rw [hnorm] at hpurge
  rw [cryptoSessionTokenVerifyText, verifyAgainst]
  generalize (cryptoSignedJsonClaimsRevocationStorePurgeExpiredAt store
    (cryptoNormalizeWallTimeMillis nowMs)).1 = next at hpurge hhist ⊢
  cases cryptoSessionTokenValidationPolicy config with
  | none => exact ⟨rfl, rfl, h.later hnow⟩
  | some policy =>
    dsimp only
    cases cryptoSignedJsonClaimsVerifyWithPolicy host secret token (cryptoNormalizeWallTimeMillis nowMs) policy with
    | none => exact ⟨rfl, hhist, hpurge⟩
    | some verified =>
      dsimp only
      by_cases hbad : ¬ verified.1 ∨ verified.2.1
      · rw [if_pos hbad, if_pos hbad]
        exact ⟨rfl, hhist, hpurge⟩
      · simp only [if_neg hbad]
        cases cryptoSessionTokenExtractSubject verified.2.2 with
        | none => exact ⟨rfl, hhist, hpurge⟩
        | some subject =>
          cases hid : cryptoSignedJsonClaimsExtractJwtId verified.2.2 true with
          | none => exact ⟨rfl, hhist, hpurge⟩
          | some found =>
            obtain ⟨jwtId, rfl, hfound⟩ := extractJwtId_required hid
            obtain ⟨hans, hhist', hrec⟩ := hpurge.isRevokedAt hfound hnorm.ge
            rw [hnorm, hhist] at hans
            rw [hnorm] at hrec
            simp only [hans]
            cases revokedAt store.history jwtId (cryptoNormalizeWallTimeMillis nowMs) with
            | true | false => exact ⟨rfl, hhist'.trans hhist, hrec⟩

def tokenClaims (host : Host) (token : Text) : Option CryptoSignedJsonClaimsEnvelope := do
  let (envelope, _, _) ← cryptoSignedTokenDecodeInternal token
  cryptoSignedJsonClaimsFromTokenEnvelope host envelope

theorem claimsVerify_ok (hok : (cryptoSignedJsonClaimsVerify host secret token now).1 = true) :
    (cryptoSignedJsonClaimsVerify host secret token now).2.1 = false ∧
      tokenClaims host token = some (cryptoSignedJsonClaimsVerify host secret token now).2.2 := by
  rw [cryptoSignedJsonClaimsVerify, cryptoSignedTokenVerify] at hok ⊢
  cases hd : cryptoSignedTokenDecodeInternal token with
  | none => simp [hd] at hok
  | some decoded =>
    obtain ⟨envelope, tag, body⟩ := decoded
    by_cases hmac : host.mac secret body = tag
    · cases hclaims : cryptoSignedJsonClaimsFromTokenEnvelope host envelope with
      | none =>
        by_cases hn : now > envelope.expiresAtMillis <;> simp [hd, hmac, hn, hclaims] at hok
      | some claims =>
        by_cases hn : now > envelope.expiresAtMillis
        · simp [hd, hmac, hn, hclaims] at hok
        · simp [hd, hmac, hn, hclaims, tokenClaims]
    · simp [hd, hmac] at hok

theorem verifyWithPolicy_ok
    {policy : CryptoSignedJsonClaimsValidationPolicy} {v : Bool × Bool × CryptoSignedJsonClaimsEnvelope}
    (h : cryptoSignedJsonClaimsVerifyWithPolicy host secret token now policy = some v) (hok : v.1 = true) :
    v.2.1 = false ∧ tokenClaims host token = some v.2.2 := by
  simp only [cryptoSignedJsonClaimsVerifyWithPolicy] at h
  repeat' split at h
  all_goals cases h
  · exact claimsVerify_ok hok
  · cases hok
  · exact claimsVerify_ok hok

/-- A token verifies ok when its claims are good and its identifier is not
revoked; nothing else depends on what is revoked. -/
theorem verifyAgainst_ok {revoked : String → Bool} {config : CryptoSessionTokenConfig} {nowMs : Int}
    {r : CryptoSessionTokenVerifyResult}
    (h : verifyAgainst host revoked secret config token nowMs = some r) (hok : r.ok = true) :
    ∃ jwtId, cryptoSignedJsonClaimsExtractJwtId r.claims true = some (some jwtId) ∧ tokenClaims host token = some r.claims ∧
      revoked jwtId = false ∧ ∀ revoked', revoked' jwtId = false →
        verifyAgainst host revoked' secret config token nowMs = some r := by
  rw [verifyAgainst] at h
  cases hpolicy : cryptoSessionTokenValidationPolicy config with
  | none => simp [hpolicy] at h
  | some policy =>
    cases hver : cryptoSignedJsonClaimsVerifyWithPolicy host secret token (cryptoNormalizeWallTimeMillis nowMs) policy with
    | none => simp [hpolicy, hver] at h
    | some verified =>
      simp only [hpolicy, hver] at h
      split at h
      next hbad =>
        cases h
        have hexp := (verifyWithPolicy_ok hver hok).1
        have hver1 : verified.1 = true := hok
        simp [hver1, hexp] at hbad
      next hgood =>
        have hver1 : verified.1 = true ∧ verified.2.1 = false := by simpa using hgood
        split at h
        next =>
          cases h
          cases hok
        next subject hsub =>
          split at h
          next jwtId hid =>
            split at h
            next =>
              cases h
              cases hok
            next hnot =>
              cases h
              refine ⟨jwtId, hid, (verifyWithPolicy_ok hver hver1.1).2, by simpa using hnot, fun revoked' hr => ?_⟩
              simp only [verifyAgainst, hpolicy, hver, if_neg hgood, hsub, hid, hr]
              rfl
          next =>
            cases h
            cases hok

end Against

/-- A verification: of any session token, or of an access or refresh token when
a kind is expected. -/
structure Check where
  kind : Option String
  secret : List Byte
  config : CryptoSessionTokenConfig
  token : Text
  nowMs : Int

structure Rotation where
  accessSecret : List Byte
  refreshSecret : List Byte
  config : CryptoSessionTokenPairConfig
  refreshToken : Text
  nowMs : Int
  accessClaims : AnyMap
  refreshClaimOverrides : AnyMap
  accessUuid : Option String
  refreshUuid : Option String

inductive Call where
  | issue (secret : List Byte) (config : CryptoSessionTokenConfig) (subject : String) (extraClaims : AnyMap)
      (nowMs : Int) (uuid : Option String)
  | issuePair (accessSecret refreshSecret : List Byte) (config : CryptoSessionTokenPairConfig) (subject : String)
      (accessClaims refreshClaims : AnyMap) (nowMs : Int) (sessionUuid accessUuid refreshUuid : Option String)
  | verify (check : Check)
  | revokeId (jwtId : String) (expiresAtMs : Int)
  | revoke (claims : CryptoSignedJsonClaimsEnvelope)
  | revokePair (issued : CryptoSessionTokenPairIssueResult)
  | purge (nowMs : Int)
  | rotate (rotation : Rotation)

/-- The number of entries a purge removes is left out of its answer. -/
inductive Answer where
  | issued (result : Option CryptoSessionTokenIssueResult)
  | issuedPair (result : Option CryptoSessionTokenPairIssueResult)
  | verified (result : Option CryptoSessionTokenVerifyResult)
  | revoked (ok : Bool)
  | purged
  | rotated (result : Option CryptoSessionTokenPairRotateResult)

def Call.time : Call → Option Int
  | .issue _ _ _ _ nowMs _ => some nowMs
  | .issuePair _ _ _ _ _ _ nowMs _ _ _ => some nowMs
  | .verify check => some check.nowMs
  | .purge nowMs => some nowMs
  | .rotate rotation => some rotation.nowMs
  | _ => none

def Rotation.check (rotation : Rotation) : Check where
  kind := some cryptoSessionTokenKindRefresh
  secret := rotation.refreshSecret
  config := rotation.config.refresh
  token := rotation.refreshToken
  nowMs := rotation.nowMs

def Call.check : Call → Option Check
  | .verify check => some check
  | .rotate rotation => some rotation.check
  | _ => none

variable (host : Host)

def Check.run (check : Check) (store : CryptoSignedJsonClaimsRevocationStore) :
    CryptoSignedJsonClaimsRevocationStore × Option CryptoSessionTokenVerifyResult :=
  match check.kind with
  | none => cryptoSessionTokenVerifyText host check.secret check.config check.token check.nowMs store
  | some kind => cryptoSessionTokenPairVerifyText host kind check.secret check.config check.token check.nowMs store

def Rotation.run (r : Rotation) (store : CryptoSignedJsonClaimsRevocationStore) :
    CryptoSignedJsonClaimsRevocationStore × Option CryptoSessionTokenPairRotateResult :=
  cryptoSessionTokenPairRotateRefreshText host r.accessSecret r.refreshSecret r.config r.refreshToken r.nowMs store
    r.accessClaims r.refreshClaimOverrides r.accessUuid r.refreshUuid

def step (store : CryptoSignedJsonClaimsRevocationStore) : Call → CryptoSignedJsonClaimsRevocationStore × Answer
  | .issue secret config subject extraClaims nowMs uuid =>
    (store, .issued (cryptoSessionTokenIssueText host secret config subject extraClaims nowMs uuid))
  | .issuePair accessSecret refreshSecret config subject accessClaims refreshClaims nowMs u₁ u₂ u₃ =>
    (store, .issuedPair (cryptoSessionTokenPairIssueText host accessSecret refreshSecret config subject accessClaims
      refreshClaims nowMs u₁ u₂ u₃))
  | .verify check => ((check.run host store).1, .verified (check.run host store).2)
  | .revokeId jwtId expiresAtMs =>
    let revoked := cryptoSignedJsonClaimsRevocationStoreRevokeId store jwtId expiresAtMs
    (revoked.1, .revoked revoked.2)
  | .revoke claims =>
    let revoked := cryptoSignedJsonClaimsRevocationStoreRevoke store claims
    (revoked.1, .revoked revoked.2)
  | .revokePair issued =>
    let revoked := cryptoSessionTokenPairRevokeIssued store issued
    (revoked.1, .revoked revoked.2)
  | .purge nowMs => ((cryptoSignedJsonClaimsRevocationStorePurgeExpiredAt store nowMs).1, .purged)
  | .rotate rotation => ((rotation.run host store).1, .rotated (rotation.run host store).2)

def runFrom (store : CryptoSignedJsonClaimsRevocationStore) (calls : List Call) :
    CryptoSignedJsonClaimsRevocationStore :=
  calls.foldl (fun store call => (step host store call).1) store

def answers (store : CryptoSignedJsonClaimsRevocationStore) : List Call → List Answer
  | [] => []
  | call :: calls => (step host store call).2 :: answers (step host store call).1 calls

def recordId (history : History) (jwtId : String) (expiresAtMs : Int) : History × Bool :=
  if jwtId = "" ∨ expiresAtMs < 1 then (history, false) else ((jwtId, expiresAtMs) :: history, true)

def recordClaims (history : History) (claims : CryptoSignedJsonClaimsEnvelope) : History × Bool :=
  match cryptoSignedJsonClaimsExtractJwtId claims true with
  | some (some jwtId) => recordId history jwtId claims.expiresAtMillis
  | _ => (history, false)

def recordPair (history : History) (issued : CryptoSessionTokenPairIssueResult) : History × Bool :=
  let access := recordId history issued.access.jwtId issued.access.expiresAtMillis
  if ¬ access.2 then (history, false) else recordId access.1 issued.refresh.jwtId issued.refresh.expiresAtMillis

def Check.against (check : Check) (history : History) : Option CryptoSessionTokenVerifyResult :=
  let result := verifyAgainst host (fun id => revokedAt history id (cryptoNormalizeWallTimeMillis check.nowMs))
    check.secret check.config check.token check.nowMs
  match check.kind with
  | none => result
  | some kind => result.map fun v => cryptoSessionTokenPairValidateVerifiedKind host v kind

def Rotation.against (r : Rotation) (history : History) : History × Option CryptoSessionTokenPairRotateResult :=
  match r.check.against host history with
  | none => (history, none)
  | some v =>
    if ¬ v.ok ∨ v.expired ∨ v.revoked then (history, some (rotateStopped v))
    else
      let recorded := recordClaims history v.claims
      if ¬ recorded.2 then (recorded.1, none)
      else match cryptoSessionTokenPairIssueWithSessionIdText host r.accessSecret r.refreshSecret r.config
          (v.sessionId.getD "") (v.subject.getD "") r.accessClaims
          (cryptoSessionTokenPairMergeClaims (cryptoSessionTokenPairStripManagedClaims v.claims.claims)
            r.refreshClaimOverrides) r.nowMs r.accessUuid r.refreshUuid with
        | none => (recorded.1, none)
        | some pair =>
          (recorded.1, some { rotateStopped v with ok := true, pair := some pair, sessionId := some pair.sessionId })

def historyStep (history : History) : Call → History × Answer
  | .issue secret config subject extraClaims nowMs uuid =>
    (history, .issued (cryptoSessionTokenIssueText host secret config subject extraClaims nowMs uuid))
  | .issuePair accessSecret refreshSecret config subject accessClaims refreshClaims nowMs u₁ u₂ u₃ =>
    (history, .issuedPair (cryptoSessionTokenPairIssueText host accessSecret refreshSecret config subject accessClaims
      refreshClaims nowMs u₁ u₂ u₃))
  | .verify check => (history, .verified (check.against host history))
  | .revokeId jwtId expiresAtMs => ((recordId history jwtId expiresAtMs).1, .revoked (recordId history jwtId expiresAtMs).2)
  | .revoke claims => ((recordClaims history claims).1, .revoked (recordClaims history claims).2)
  | .revokePair issued => ((recordPair history issued).1, .revoked (recordPair history issued).2)
  | .purge _ => (history, .purged)
  | .rotate rotation => ((rotation.against host history).1, .rotated (rotation.against host history).2)

variable {host} {store : CryptoSignedJsonClaimsRevocationStore} {clock : Int}

theorem Follows.map {β γ : Type} {x : CryptoSignedJsonClaimsRevocationStore × β} {y : History × β} {now : Int}
    (h : Follows x y now) (f : β → γ) : Follows (x.1, f x.2) (y.1, f y.2) now :=
  ⟨congrArg f h.answer, h.history, h.recorded⟩

theorem Recorded.record (h : Recorded store clock) (jwtId : String) (expires : Int) :
    Follows (cryptoSignedJsonClaimsRevocationStoreRevokeId store jwtId expires) (recordId store.history jwtId expires)
      clock := by
  have hrec := h.revokeId jwtId expires
  rw [cryptoSignedJsonClaimsRevocationStoreRevokeId] at hrec ⊢
  rw [recordId]
  by_cases hid : jwtId = ""
  · exact ⟨by simp [hid], by simp [hid], hrec⟩
  · by_cases hexp : expires < 1
    · exact ⟨by simp [hexp], by simp [hexp], hrec⟩
    · exact ⟨by simp [hid, hexp], by simp [hid, hexp], hrec⟩

theorem Recorded.revoke (h : Recorded store clock) (claims : CryptoSignedJsonClaimsEnvelope) :
    Follows (cryptoSignedJsonClaimsRevocationStoreRevoke store claims) (recordClaims store.history claims) clock := by
  rw [cryptoSignedJsonClaimsRevocationStoreRevoke, recordClaims]
  cases cryptoSignedJsonClaimsExtractJwtId claims true with
  | none => exact ⟨rfl, rfl, h⟩
  | some found =>
    cases found with
    | none => exact ⟨rfl, rfl, h⟩
    | some jwtId => exact h.record jwtId claims.expiresAtMillis

theorem Recorded.revokePair (h : Recorded store clock) (issued : CryptoSessionTokenPairIssueResult) :
    Follows (cryptoSessionTokenPairRevokeIssued store issued) (recordPair store.history issued) clock := by
  obtain ⟨hans, hhist, hrec⟩ := h.record issued.access.jwtId issued.access.expiresAtMillis
  rw [cryptoSessionTokenPairRevokeIssued, recordPair, hans]
  by_cases hbad : ¬ (recordId store.history issued.access.jwtId issued.access.expiresAtMillis).2
  · rw [if_pos hbad, if_pos hbad]
    exact ⟨rfl, rfl, h⟩
  · rw [if_neg hbad, if_neg hbad, ← hhist]
    exact hrec.record issued.refresh.jwtId issued.refresh.expiresAtMillis

theorem Recorded.check (h : Recorded store clock) {check : Check}
    (hnow : clock ≤ cryptoNormalizeWallTimeMillis check.nowMs) :
    Follows (check.run host store) (store.history, check.against host store.history)
      (cryptoNormalizeWallTimeMillis check.nowMs) := by
  obtain ⟨hans, hhist, hrec⟩ := @verifyText host store clock h check.secret check.config check.token
    check.nowMs hnow
  rw [Check.run, Check.against]
  cases check.kind with
  | none => exact ⟨hans, hhist, hrec⟩
  | some kind =>
    refine ⟨?_, hhist, hrec⟩
    simp only [cryptoSessionTokenPairVerifyText, hans]

theorem Recorded.rotation (h : Recorded store clock) {r : Rotation}
    (hnow : clock ≤ cryptoNormalizeWallTimeMillis r.nowMs) :
    Follows (r.run host store) (r.against host store.history) (cryptoNormalizeWallTimeMillis r.nowMs) := by
  obtain ⟨hans, hhist, hrec⟩ := @check host store clock h r.check hnow
  have hrun : cryptoSessionTokenPairVerifyRefreshText host r.refreshSecret r.config r.refreshToken r.nowMs store =
      r.check.run host store := rfl
  dsimp only at hans hhist
  rw [Rotation.run, cryptoSessionTokenPairRotateRefreshText, Rotation.against, ← hans, hrun]
  generalize r.check.run host store = verified at hhist hrec ⊢
  cases verified.2 with
  | none => exact ⟨rfl, hhist, hrec⟩
  | some v =>
    dsimp only
    obtain ⟨hrev, hrevh, hrecr⟩ := hrec.revoke v.claims
    rw [hhist] at hrev hrevh
    by_cases hstop : ¬ v.ok ∨ v.expired ∨ v.revoked
    · rw [if_pos hstop, if_pos hstop]
      exact ⟨rfl, hhist, hrec⟩
    · rw [if_neg hstop, if_neg hstop, hrev]
      by_cases hbad : ¬ (recordClaims store.history v.claims).2
      · rw [if_pos hbad, if_pos hbad]
        exact ⟨rfl, hrevh, hrecr⟩
      · rw [if_neg hbad, if_neg hbad]
        cases cryptoSessionTokenPairIssueWithSessionIdText host r.accessSecret r.refreshSecret r.config
            (v.sessionId.getD "") (v.subject.getD "") r.accessClaims
            (cryptoSessionTokenPairMergeClaims (cryptoSessionTokenPairStripManagedClaims v.claims.claims)
              r.refreshClaimOverrides) r.nowMs r.accessUuid r.refreshUuid with
        | none | some pair => exact ⟨rfl, hrevh, hrecr⟩

def Call.after (before : Int) (call : Call) : Int :=
  match call.time with
  | none => before
  | some now => cryptoNormalizeWallTimeMillis now

theorem Recorded.step (h : Recorded store clock) {call : Call}
    (hnow : ∀ now, call.time = some now → clock ≤ cryptoNormalizeWallTimeMillis now) :
    Follows (step host store call) (historyStep host store.history call) (call.after clock) := by
  cases call with
  | issue | issuePair => exact ⟨rfl, rfl, h.later (hnow _ rfl)⟩
  | verify check => exact (h.check (hnow _ rfl)).map Answer.verified
  | revokeId jwtId expires => exact (h.record jwtId expires).map Answer.revoked
  | revoke claims => exact (h.revoke claims).map Answer.revoked
  | revokePair issued => exact (h.revokePair issued).map Answer.revoked
  | purge now => exact ⟨rfl, history_purge now, (h.purge (hnow _ rfl)).1⟩
  | rotate r => exact (h.rotation (hnow _ rfl)).map Answer.rotated

end Tablo.SessionToken
