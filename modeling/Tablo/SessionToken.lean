import Tablo.SignedToken

/-! Session tokens of `crypto.tblo`: signed JSON claims, their validation
policy, the revocation store and the rotation of refresh tokens. What the
library takes from its host (the message authentication code, JSON and UUIDs) is
a parameter, and so is the answer of each call of `uuidV4`. An error is `none`;
its text is left out. -/

namespace Tablo.SessionToken

open Encoding SignedToken

/-- The values of the type `any` that claims are made of. -/
inductive Any where
  | nil
  | int (i : Int)
  | string (s : String)
  | array (items : List Any)
  | map (entries : List (String × Any))
  | other

abbrev AnyMap := List (String × Any)

section Maps

variable (m : AnyMap) (key : String)

def mapGetString : Any := (m.lookup key).getD .nil

def mapHasString : Bool := (m.lookup key).isSome

def mapSetString (value : Any) : AnyMap :=
  if mapHasString m key then m.map fun p => if p.1 = key then (p.1, value) else p else m ++ [(key, value)]

def mapDeleteString : AnyMap := m.filter fun p => p.1 ≠ key

def keys : List String := m.map Prod.fst

def cryptoCloneAnyMap (values : AnyMap) : AnyMap :=
  (keys values).foldl (fun out key => mapSetString out key (mapGetString values key)) []

end Maps

structure Host where
  mac : List Byte → List Byte → List Byte
  jsonParse : List Byte → Option Any
  jsonStringify : Any → Option (List Byte)
  uuidIsValid : String → Bool

structure CryptoSignedJsonClaimsEnvelope where
  version : Text
  issuedAtMillis : Int
  expiresAtMillis : Int
  keyId : Option String
  claims : AnyMap

def cryptoEmptySignedJsonClaimsEnvelope : CryptoSignedJsonClaimsEnvelope := ⟨[], 0, 0, none, []⟩

structure CryptoSignedJsonClaimsValidationPolicy where
  issuer : Option String
  audience : Option String
  requireIssuer : Bool
  requireAudience : Bool
  requireNotBefore : Bool
  requireJti : Bool
  clockSkewMillis : Int

structure CryptoSessionTokenConfig where
  issuer : Option String
  audience : Option String
  keyId : Option String
  ttlMillis : Int
  clockSkewMillis : Int
  includeNotBefore : Bool

structure CryptoSessionTokenPairConfig where
  access : CryptoSessionTokenConfig
  refresh : CryptoSessionTokenConfig

def cryptoNormalizeWallTimeMillis (nowMs : Int) : Int := if nowMs < 0 then 0 else nowMs

section Claims

variable (claims : CryptoSignedJsonClaimsEnvelope)

def cryptoSessionTokenOptionalStringClaim (name : String) : Option String :=
  match mapGetString claims.claims name with
  | .string s => if s = "" then none else some s
  | _ => none

/-- The identifier of a token: `none` is an error, `some none` a missing one. -/
def cryptoSignedJsonClaimsExtractJwtId (requirePresent : Bool) :
    Option (Option String) :=
  match mapGetString claims.claims "jti" with
  | .nil => if requirePresent then none else some none
  | .string jwtId => if jwtId = "" then none else some (some jwtId)
  | _ => none

def cryptoSessionTokenExtractSubject : Option String :=
  cryptoSessionTokenOptionalStringClaim claims "sub"

def cryptoSignedJsonClaimsAudienceMatches (value : Any) (expected : Option String) : Bool :=
  match value with
  | .string audience =>
    if audience = "" then false
    else match expected with
      | none => true
      | some e => audience = e
  | .array items =>
    if items.isEmpty then false
    else if items.any fun item => match item with | .string s => s = "" | _ => true then false
    else match expected with
      | none => true
      | some e => items.any fun item => match item with | .string s => s = e | _ => false
  | _ => false

def cryptoValidateSignedJsonClaimsValidationPolicy (policy : CryptoSignedJsonClaimsValidationPolicy) : Bool :=
  policy.issuer ≠ some "" ∧ policy.audience ≠ some "" ∧ 0 ≤ policy.clockSkewMillis

/-- `none` is an invalid policy. -/
def cryptoSignedJsonClaimsValidateRegistered
    (policy : CryptoSignedJsonClaimsValidationPolicy) (nowMs : Int) : Option Bool :=
  if ¬ cryptoValidateSignedJsonClaimsValidationPolicy policy then none
  else
    let issuerOk : Bool := match mapGetString claims.claims "iss" with
      | .nil => ¬ (policy.requireIssuer ∨ policy.issuer.isSome)
      | .string issuer => issuer ≠ "" ∧ ¬ (policy.issuer.isSome ∧ some issuer ≠ policy.issuer)
      | _ => false
    let audienceOk : Bool := match mapGetString claims.claims "aud" with
      | .nil => ¬ (policy.requireAudience ∨ policy.audience.isSome)
      | audience => cryptoSignedJsonClaimsAudienceMatches audience policy.audience
    let notBeforeOk : Bool := match mapGetString claims.claims "nbf" with
      | .nil => ¬ policy.requireNotBefore
      | .int notBefore => ¬ notBefore < 0 ∧ ¬ nowMs + policy.clockSkewMillis < notBefore
      | _ => false
    let jtiOk : Bool := match mapGetString claims.claims "jti" with
      | .nil => ¬ policy.requireJti
      | .string jwtId => jwtId ≠ ""
      | _ => false
    some (issuerOk ∧ audienceOk ∧ notBeforeOk ∧ jtiOk)

end Claims

variable (host : Host)

def cryptoSignedJsonClaimsDecodePayload (payload : List Byte) : Option (Option String × AnyMap) := do
  let parsed ← host.jsonParse payload
  match parsed with
  | .map doc =>
    match mapGetString doc "claims" with
    | .map claims =>
      match mapGetString doc "kid" with
      | .nil => some (none, claims)
      | .string keyId => if keyId = "" then none else some (some keyId, claims)
      | _ => none
    | _ => none
  | _ => none

def cryptoSignedJsonClaimsEncodePayload (keyId : Option String) (claims : AnyMap) : Option (List Byte) :=
  match keyId with
  | none => host.jsonStringify (.map [("claims", .map claims)])
  | some k =>
    if k = "" then none
    else host.jsonStringify (.map (mapSetString [("claims", .map claims)] "kid" (.string k)))

def cryptoSignedJsonClaimsFromTokenEnvelope (token : CryptoSignedTokenEnvelope) :
    Option CryptoSignedJsonClaimsEnvelope := do
  let (keyId, claims) ← cryptoSignedJsonClaimsDecodePayload host token.payload
  return ⟨token.version, token.issuedAtMillis, token.expiresAtMillis, keyId, claims⟩

/-- Whether the token is good, whether it is expired, and its claims. -/
def cryptoSignedJsonClaimsVerify (secret : List Byte) (token : Text) (nowMs : Int) :
    Bool × Bool × CryptoSignedJsonClaimsEnvelope :=
  let verified := cryptoSignedTokenVerify host.mac secret token nowMs
  if ¬ verified.ok ∧ ¬ verified.expired then (false, false, cryptoEmptySignedJsonClaimsEnvelope)
  else match cryptoSignedJsonClaimsFromTokenEnvelope host verified.envelope with
    | none => (false, false, cryptoEmptySignedJsonClaimsEnvelope)
    | some claims => if verified.expired then (false, true, claims) else (true, false, claims)

def cryptoSignedJsonClaimsVerifyWithPolicy (secret : List Byte) (token : Text) (nowMs : Int)
    (policy : CryptoSignedJsonClaimsValidationPolicy) : Option (Bool × Bool × CryptoSignedJsonClaimsEnvelope) :=
  if ¬ cryptoValidateSignedJsonClaimsValidationPolicy policy then none
  else
    let verified := cryptoSignedJsonClaimsVerify host secret token nowMs
    if ¬ verified.1 ∨ verified.2.1 then some verified
    else match cryptoSignedJsonClaimsValidateRegistered verified.2.2 policy nowMs with
      | none => none
      | some claimsOk => if ¬ claimsOk then some (false, false, verified.2.2) else some verified

section Store

/-- The revocation store. `history` is not in the source: it lists the
revocations that were recorded, the last one first. -/
structure CryptoSignedJsonClaimsRevocationStore where
  entries : AnyMap
  nextExpiryMillis : Int
  history : List (String × Int)

def cryptoSignedJsonClaimsRevocationStoreNew : CryptoSignedJsonClaimsRevocationStore := ⟨[], 0, []⟩

/-- What the loop of a purge has done: the entries left, the number removed and
the least expiry seen. -/
structure Purging where
  entries : AnyMap
  removed : Nat
  nextExpiryMs : Int

def purgeKey (now : Int) (acc : Purging) (key : String) : Purging :=
  match mapGetString acc.entries key with
  | .int expiresAtMs =>
    if expiresAtMs ≤ now then
      { acc with entries := mapDeleteString acc.entries key, removed := acc.removed + 1 }
    else if acc.nextExpiryMs = 0 ∨ expiresAtMs < acc.nextExpiryMs then { acc with nextExpiryMs := expiresAtMs }
    else acc
  | _ => { acc with entries := mapDeleteString acc.entries key, removed := acc.removed + 1 }

variable (store : CryptoSignedJsonClaimsRevocationStore)

def cryptoSignedJsonClaimsRevocationStorePurgeExpiredAt (nowMs : Int) :
    CryptoSignedJsonClaimsRevocationStore × Nat :=
  let normalizedNow := cryptoNormalizeWallTimeMillis nowMs
  if store.entries.length = 0 then ({ store with nextExpiryMillis := 0 }, 0)
  else if store.nextExpiryMillis ≤ 0 ∨ normalizedNow < store.nextExpiryMillis then (store, 0)
  else
    let swept := (keys store.entries).foldl (purgeKey normalizedNow) ⟨store.entries, 0, 0⟩
    ({ store with entries := swept.entries, nextExpiryMillis := swept.nextExpiryMs }, swept.removed)

def cryptoSignedJsonClaimsRevocationStoreRevokeId (jwtId : String) (expiresAtMs : Int) :
    CryptoSignedJsonClaimsRevocationStore × Bool :=
  if jwtId = "" then (store, false)
  else if expiresAtMs < 1 then (store, false)
  else
    ({ store with
        entries := mapSetString store.entries jwtId (.int expiresAtMs)
        nextExpiryMillis :=
          if store.nextExpiryMillis = 0 ∨ expiresAtMs < store.nextExpiryMillis then expiresAtMs
          else store.nextExpiryMillis
        history := (jwtId, expiresAtMs) :: store.history }, true)

def cryptoSignedJsonClaimsRevocationStoreRevoke (claims : CryptoSignedJsonClaimsEnvelope) :
    CryptoSignedJsonClaimsRevocationStore × Bool :=
  match cryptoSignedJsonClaimsExtractJwtId claims true with
  | some (some jwtId) => cryptoSignedJsonClaimsRevocationStoreRevokeId store jwtId claims.expiresAtMillis
  | _ => (store, false)

def cryptoSignedJsonClaimsRevocationStoreIsRevokedAt (claims : CryptoSignedJsonClaimsEnvelope) (nowMs : Int) :
    CryptoSignedJsonClaimsRevocationStore × Option Bool :=
  let next := (cryptoSignedJsonClaimsRevocationStorePurgeExpiredAt store nowMs).1
  match cryptoSignedJsonClaimsExtractJwtId claims false with
  | none => (next, none)
  | some none => (next, some false)
  | some (some jwtId) => (next, some (mapHasString next.entries jwtId))

end Store

section Session

structure CryptoSessionTokenVerifyResult where
  ok : Bool
  expired : Bool
  revoked : Bool
  keyId : Option String
  jwtId : Option String
  subject : Option String
  sessionId : Option String
  tokenKind : Option String
  claims : CryptoSignedJsonClaimsEnvelope

def cryptoSessionTokenSessionIdClaim : String := "sid"
def cryptoSessionTokenKindClaim : String := "tokenKind"
def cryptoSessionTokenKindAccess : String := "access"
def cryptoSessionTokenKindRefresh : String := "refresh"

def cryptoValidateSessionTokenConfig (config : CryptoSessionTokenConfig) : Bool :=
  config.issuer ≠ some "" ∧ config.audience ≠ some "" ∧ config.keyId ≠ some "" ∧ ¬ config.ttlMillis < 1 ∧
    ¬ config.clockSkewMillis < 0

def cryptoSessionTokenValidationPolicy (config : CryptoSessionTokenConfig) :
    Option CryptoSignedJsonClaimsValidationPolicy :=
  if ¬ cryptoValidateSessionTokenConfig config then none
  else some
    { issuer := config.issuer, audience := config.audience, requireIssuer := config.issuer.isSome
      requireAudience := config.audience.isSome, requireNotBefore := config.includeNotBefore, requireJti := true
      clockSkewMillis := config.clockSkewMillis }

variable (secret : List Byte)

def sessionResult (verified : Bool × Bool × CryptoSignedJsonClaimsEnvelope) : CryptoSessionTokenVerifyResult where
  ok := verified.1
  expired := verified.2.1
  revoked := false
  keyId := verified.2.2.keyId
  jwtId := cryptoSessionTokenOptionalStringClaim verified.2.2 "jti"
  subject := cryptoSessionTokenOptionalStringClaim verified.2.2 "sub"
  sessionId := cryptoSessionTokenOptionalStringClaim verified.2.2 cryptoSessionTokenSessionIdClaim
  tokenKind := cryptoSessionTokenOptionalStringClaim verified.2.2 cryptoSessionTokenKindClaim
  claims := verified.2.2

def cryptoSessionTokenVerifyText (config : CryptoSessionTokenConfig) (token : Text)
    (nowMs : Int) (revocations : CryptoSignedJsonClaimsRevocationStore) :
    CryptoSignedJsonClaimsRevocationStore × Option CryptoSessionTokenVerifyResult :=
  let normalizedNow := cryptoNormalizeWallTimeMillis nowMs
  match cryptoSessionTokenValidationPolicy config with
  | none => (revocations, none)
  | some policy =>
    let next := (cryptoSignedJsonClaimsRevocationStorePurgeExpiredAt revocations normalizedNow).1
    match cryptoSignedJsonClaimsVerifyWithPolicy host secret token normalizedNow policy with
    | none => (next, none)
    | some verified =>
      let result := sessionResult verified
      if ¬ verified.1 ∨ verified.2.1 then (next, some result)
      else match cryptoSessionTokenExtractSubject verified.2.2 with
        | none => (next, some { result with ok := false, subject := none })
        | some subject =>
          let result := { result with subject := some subject }
          match cryptoSignedJsonClaimsExtractJwtId verified.2.2 true with
          | none => (next, some { result with ok := false, jwtId := none })
          | some jwtId =>
            let result := { result with jwtId := jwtId }
            let revoked := cryptoSignedJsonClaimsRevocationStoreIsRevokedAt next verified.2.2 normalizedNow
            match revoked.2 with
            | none => (revoked.1, none)
            | some true => (revoked.1, some { result with ok := false, revoked := true })
            | some false => (revoked.1, some result)

def cryptoSessionTokenExtractSessionId (claims : CryptoSignedJsonClaimsEnvelope) : Option String :=
  match mapGetString claims.claims cryptoSessionTokenSessionIdClaim with
  | .string sessionId => if host.uuidIsValid sessionId then some sessionId else none
  | _ => none

def cryptoSessionTokenExtractTokenKind (claims : CryptoSignedJsonClaimsEnvelope) : Option String :=
  match mapGetString claims.claims cryptoSessionTokenKindClaim with
  | .string kind =>
    if kind ≠ cryptoSessionTokenKindAccess ∧ kind ≠ cryptoSessionTokenKindRefresh then none else some kind
  | _ => none

def cryptoSessionTokenPairValidateVerifiedKind (verified : CryptoSessionTokenVerifyResult) (expectedKind : String) :
    CryptoSessionTokenVerifyResult :=
  let next := { verified with
    sessionId := cryptoSessionTokenOptionalStringClaim verified.claims cryptoSessionTokenSessionIdClaim
    tokenKind := cryptoSessionTokenOptionalStringClaim verified.claims cryptoSessionTokenKindClaim }
  if ¬ verified.ok ∨ verified.expired ∨ verified.revoked then next
  else match cryptoSessionTokenExtractSessionId host verified.claims with
    | none => { next with ok := false, sessionId := none }
    | some sessionId =>
      let next := { next with sessionId := some sessionId }
      match cryptoSessionTokenExtractTokenKind verified.claims with
      | none => { next with ok := false, tokenKind := none }
      | some kind =>
        let next := { next with tokenKind := some kind }
        if kind ≠ expectedKind then { next with ok := false } else next

def cryptoSessionTokenPairVerifyText (kind : String) (secret : List Byte) (config : CryptoSessionTokenConfig)
    (token : Text) (nowMs : Int) (revocations : CryptoSignedJsonClaimsRevocationStore) :
    CryptoSignedJsonClaimsRevocationStore × Option CryptoSessionTokenVerifyResult :=
  let verified := cryptoSessionTokenVerifyText host secret config token nowMs revocations
  (verified.1, verified.2.map fun v => cryptoSessionTokenPairValidateVerifiedKind host v kind)

def cryptoSessionTokenPairVerifyAccessText (config : CryptoSessionTokenPairConfig)
    (token : Text) (nowMs : Int) (revocations : CryptoSignedJsonClaimsRevocationStore) :=
  cryptoSessionTokenPairVerifyText host cryptoSessionTokenKindAccess secret config.access token nowMs revocations

def cryptoSessionTokenPairVerifyRefreshText (config : CryptoSessionTokenPairConfig)
    (token : Text) (nowMs : Int) (revocations : CryptoSignedJsonClaimsRevocationStore) :=
  cryptoSessionTokenPairVerifyText host cryptoSessionTokenKindRefresh secret config.refresh token nowMs revocations

end Session

structure CryptoSessionTokenIssueResult where
  token : Text
  jwtId : String
  subject : String
  issuedAtMillis : Int
  expiresAtMillis : Int
  keyId : Option String

structure CryptoSessionTokenPairIssueResult where
  sessionId : String
  access : CryptoSessionTokenIssueResult
  refresh : CryptoSessionTokenIssueResult

/-- `uuid` is the answer of `uuidV4`, `none` when it fails. -/
def cryptoSignedJsonClaimsEnsureJwtId (claims : AnyMap) (uuid : Option String) : Option (AnyMap × String) :=
  match mapGetString claims "jti" with
  | .string existing => if existing = "" then none else some (claims, existing)
  | .nil => uuid.map fun generated => (mapSetString claims "jti" (.string generated), generated)
  | _ => none

def cryptoSessionTokenBuildClaims (config : CryptoSessionTokenConfig) (subject : String) (extraClaims : AnyMap)
    (issuedAtMs : Int) : Option AnyMap :=
  if ¬ cryptoValidateSessionTokenConfig config then none
  else if subject = "" then none
  else
    let claims := mapSetString (cryptoCloneAnyMap extraClaims) "sub" (.string subject)
    let claims := match config.issuer with
      | none => claims
      | some issuer => mapSetString claims "iss" (.string issuer)
    let claims := match config.audience with
      | none => claims
      | some audience => mapSetString claims "aud" (.string audience)
    if config.includeNotBefore then
      if issuedAtMs < 0 then none else some (mapSetString claims "nbf" (.int issuedAtMs))
    else some claims

def cryptoSessionTokenIssueText (secret : List Byte) (config : CryptoSessionTokenConfig) (subject : String)
    (extraClaims : AnyMap) (nowMs : Int) (uuid : Option String) : Option CryptoSessionTokenIssueResult := do
  let issuedAtMs := cryptoNormalizeWallTimeMillis nowMs
  let nextClaims ← cryptoSessionTokenBuildClaims config subject extraClaims issuedAtMs
  let expiresAtMs := issuedAtMs + config.ttlMillis
  let (claims, jwtId) ← cryptoSignedJsonClaimsEnsureJwtId nextClaims uuid
  let payload ← cryptoSignedJsonClaimsEncodePayload host config.keyId claims
  let token ← cryptoSignedTokenSeal host.mac secret payload issuedAtMs expiresAtMs
  return ⟨token, jwtId, subject, issuedAtMs, expiresAtMs, config.keyId⟩

def cryptoSessionTokenPairBuildClaims (baseClaims : AnyMap) (sessionId kind : String) : AnyMap :=
  mapSetString (mapSetString (cryptoCloneAnyMap baseClaims) cryptoSessionTokenSessionIdClaim (.string sessionId))
    cryptoSessionTokenKindClaim (.string kind)

def cryptoSessionTokenPairIssueWithSessionIdText (accessSecret refreshSecret : List Byte)
    (config : CryptoSessionTokenPairConfig) (sessionId subject : String) (accessClaims refreshClaims : AnyMap)
    (nowMs : Int) (accessUuid refreshUuid : Option String) : Option CryptoSessionTokenPairIssueResult :=
  if ¬ host.uuidIsValid sessionId then none
  else do
    let access ← cryptoSessionTokenIssueText host accessSecret config.access subject
      (cryptoSessionTokenPairBuildClaims accessClaims sessionId cryptoSessionTokenKindAccess) nowMs accessUuid
    let refresh ← cryptoSessionTokenIssueText host refreshSecret config.refresh subject
      (cryptoSessionTokenPairBuildClaims refreshClaims sessionId cryptoSessionTokenKindRefresh) nowMs refreshUuid
    return ⟨sessionId, access, refresh⟩

def cryptoSessionTokenPairIssueText (accessSecret refreshSecret : List Byte) (config : CryptoSessionTokenPairConfig)
    (subject : String) (accessClaims refreshClaims : AnyMap) (nowMs : Int)
    (sessionUuid accessUuid refreshUuid : Option String) : Option CryptoSessionTokenPairIssueResult :=
  if ¬ cryptoValidateSessionTokenConfig config.access ∨ ¬ cryptoValidateSessionTokenConfig config.refresh then none
  else do
    let sessionId ← sessionUuid
    cryptoSessionTokenPairIssueWithSessionIdText host accessSecret refreshSecret config sessionId subject accessClaims
      refreshClaims nowMs accessUuid refreshUuid

structure CryptoSessionTokenPairRotateResult where
  ok : Bool
  expired : Bool
  revoked : Bool
  sessionId : Option String
  previousRefreshJwtId : Option String
  pair : Option CryptoSessionTokenPairIssueResult

def cryptoSessionTokenPairStripManagedClaims (claims : AnyMap) : AnyMap :=
  ["sub", "iss", "aud", "nbf", "jti", cryptoSessionTokenSessionIdClaim, cryptoSessionTokenKindClaim].foldl
    mapDeleteString (cryptoCloneAnyMap claims)

def cryptoSessionTokenPairMergeClaims (baseClaims overrideClaims : AnyMap) : AnyMap :=
  (keys overrideClaims).foldl (fun out key => mapSetString out key (mapGetString overrideClaims key))
    (cryptoCloneAnyMap baseClaims)

def cryptoSessionTokenPairRevokeIssued (store : CryptoSignedJsonClaimsRevocationStore)
    (issued : CryptoSessionTokenPairIssueResult) : CryptoSignedJsonClaimsRevocationStore × Bool :=
  let access :=
    cryptoSignedJsonClaimsRevocationStoreRevokeId store issued.access.jwtId issued.access.expiresAtMillis
  if ¬ access.2 then (store, false)
  else cryptoSignedJsonClaimsRevocationStoreRevokeId access.1 issued.refresh.jwtId issued.refresh.expiresAtMillis

def rotateStopped (verified : CryptoSessionTokenVerifyResult) : CryptoSessionTokenPairRotateResult where
  ok := false
  expired := verified.expired
  revoked := verified.revoked
  sessionId := verified.sessionId
  previousRefreshJwtId := if verified.tokenKind = some cryptoSessionTokenKindRefresh then verified.jwtId else none
  pair := none

def cryptoSessionTokenPairRotateRefreshText (accessSecret refreshSecret : List Byte)
    (config : CryptoSessionTokenPairConfig) (refreshToken : Text) (nowMs : Int)
    (revocations : CryptoSignedJsonClaimsRevocationStore) (accessClaims refreshClaimOverrides : AnyMap)
    (accessUuid refreshUuid : Option String) :
    CryptoSignedJsonClaimsRevocationStore × Option CryptoSessionTokenPairRotateResult :=
  let verified :=
    cryptoSessionTokenPairVerifyRefreshText host refreshSecret config refreshToken nowMs revocations
  match verified.2 with
  | none => (verified.1, none)
  | some v =>
    let result := rotateStopped v
    if ¬ v.ok ∨ v.expired ∨ v.revoked then (verified.1, some result)
    else
      let refreshNextClaims := cryptoSessionTokenPairMergeClaims
        (cryptoSessionTokenPairStripManagedClaims v.claims.claims) refreshClaimOverrides
      let revokeOld := cryptoSignedJsonClaimsRevocationStoreRevoke verified.1 v.claims
      if ¬ revokeOld.2 then (revokeOld.1, none)
      else match cryptoSessionTokenPairIssueWithSessionIdText host accessSecret refreshSecret config
          (v.sessionId.getD "") (v.subject.getD "") accessClaims refreshNextClaims nowMs accessUuid refreshUuid with
        | none => (revokeOld.1, none)
        | some pair =>
          (revokeOld.1, some { result with ok := true, pair := some pair, sessionId := some pair.sessionId })

end Tablo.SessionToken
