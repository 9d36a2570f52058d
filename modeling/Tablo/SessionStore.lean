import Tablo.SessionToken

/-! The revocation store against the list of all revocations. Purging drops
entries as they expire; what a lookup after a purge reports is the last
revocation of the identifier, as long as its expiry is still ahead. -/

namespace Tablo.SessionToken

open List

theorem lookup_mapDelete (m : AnyMap) (key k : String) :
    (mapDeleteString m key).lookup k = if k = key then none else m.lookup k := by
  induction m with
  | nil => simp [mapDeleteString]
  | cons p m ih =>
    obtain ⟨k', v⟩ := p
    rw [mapDeleteString] at ih ⊢
    by_cases hp : k' = key
    · rw [filter_cons_of_neg (by simpa using hp), ih]
      by_cases hk : k = key
      · simp [hk]
      · have hne : (k == k') = false := by simpa [hp] using hk
        simp [lookup_cons, hne]
    · rw [filter_cons_of_pos (by simpa using hp), lookup_cons, lookup_cons, ih]
      by_cases hkk : k = k'
      · simp [hkk, hp]
      · have hne : (k == k') = false := by simpa using hkk
        simp [hne]

theorem lookup_replace (m : AnyMap) (key k : String) (value : Any) :
    (m.map fun p => if p.1 = key then (p.1, value) else p).lookup k =
      if k = key then (m.lookup k).map fun _ => value else m.lookup k := by
  induction m with
  | nil => simp
  | cons p m ih =>
    obtain ⟨k', v⟩ := p
    have hhead : (if k' = key then (k', value) else (k', v)) = (k', if k' = key then value else v) := by
      split <;> rfl
    rw [map_cons, hhead, lookup_cons, lookup_cons, ih]
    by_cases hkk : k = k'
    · simp [hkk]
      split <;> simp_all
    · have hne : (k == k') = false := by simpa using hkk
      simp [hne]

theorem lookup_mapSet (m : AnyMap) (key k : String) (value : Any) :
    (mapSetString m key value).lookup k = if k = key then some value else m.lookup k := by
  rw [mapSetString]
  split
  next hhas =>
    rw [lookup_replace]
    obtain ⟨v, hv⟩ := Option.isSome_iff_exists.mp hhas
    by_cases hk : k = key
    · simp [hk, hv]
    · simp [hk]
  next hnot =>
    have hnone : m.lookup key = none := Option.not_isSome_iff_eq_none.mp hnot
    rw [lookup_append, lookup_cons]
    by_cases hk : k = key
    · simp [hk, hnone]
    · have hne : (k == key) = false := by simpa using hk
      simp [hk, hne]

theorem mem_keys_of_lookup {m : AnyMap} {k : String} {v : Any} (h : m.lookup k = some v) : k ∈ keys m := by
  induction m with
  | nil => cases h
  | cons p m ih =>
    rw [lookup_cons] at h
    rw [keys, map_cons, mem_cons]
    cases hk : k == p.1 with
    | true => exact .inl (eq_of_beq hk)
    | false =>
      rw [hk] at h
      exact .inr (ih h)

section Sweep

def Alive (now : Int) : Option Any → Prop
  | some (.int e) => now < e
  | _ => False

/-- What the loop of a purge has done after the keys `done`. -/
structure Swept (now : Int) (entries : AnyMap) (done : List String) (acc : Purging) : Prop where
  alive : ∀ k, Alive now (entries.lookup k) → acc.entries.lookup k = entries.lookup k
  dead : ∀ k ∈ done, ¬ Alive now (entries.lookup k) → acc.entries.lookup k = none
  rest : ∀ k, k ∉ done → acc.entries.lookup k = entries.lookup k
  least : ∀ k ∈ done, ∀ e, acc.entries.lookup k = some (.int e) → 0 < acc.nextExpiryMs ∧ acc.nextExpiryMs ≤ e
  attained : acc.nextExpiryMs ≠ 0 →
    ∃ k, acc.entries.lookup k = some (.int acc.nextExpiryMs) ∧ now < acc.nextExpiryMs

theorem swept_start (now : Int) (entries : AnyMap) : Swept now entries [] ⟨entries, 0, 0⟩ where
  alive := fun _ _ => rfl
  dead := fun _ h => absurd h not_mem_nil
  rest := fun _ _ => rfl
  least := fun _ h => absurd h not_mem_nil
  attained := fun h => absurd rfl h

variable {now : Int} {entries : AnyMap} {done : List String} {acc : Purging} {key : String}

theorem Swept.delete (h : Swept now entries done acc) (hkey : ¬ Alive now (acc.entries.lookup key)) :
    Swept now entries (key :: done)
      { acc with entries := mapDeleteString acc.entries key, removed := acc.removed + 1 } where
  alive := by
    intro k hk
    have hne : k ≠ key := by
      rintro rfl
      exact hkey (h.alive k hk ▸ hk)
    rw [lookup_mapDelete, if_neg hne, h.alive k hk]
  dead := by
    intro k hk hdead
    rw [lookup_mapDelete]
    split
    next => rfl
    next hne => exact h.dead k ((mem_cons.mp hk).resolve_left hne) hdead
  rest := by
    intro k hk
    rw [mem_cons, not_or] at hk
    rw [lookup_mapDelete, if_neg hk.1, h.rest k hk.2]
  least := by
    intro k hk e he
    rw [lookup_mapDelete] at he
    split at he
    next => cases he
    next hne => exact h.least k ((mem_cons.mp hk).resolve_left hne) e he
  attained := by
    intro hnext
    obtain ⟨k, hk, hlt⟩ := h.attained hnext
    have hne : k ≠ key := by
      rintro rfl
      rw [hk] at hkey
      exact hkey hlt
    exact ⟨k, by rw [lookup_mapDelete, if_neg hne, hk], hlt⟩

theorem Swept.keep {e : Int}
    (h : Swept now entries done acc) (hkey : acc.entries.lookup key = some (.int e)) (hlt : now < e) (hnow : 0 ≤ now) :
    Swept now entries (key :: done)
      { acc with nextExpiryMs := if acc.nextExpiryMs = 0 ∨ e < acc.nextExpiryMs then e else acc.nextExpiryMs } where
  alive := h.alive
  dead := by
    intro k hk hdead
    rcases mem_cons.mp hk with rfl | hk
    · -- the key was alive in the loop, so it is alive in the store
      by_cases hdone : k ∈ done
      · rw [h.dead k hdone hdead] at hkey
        cases hkey
      · rw [h.rest k hdone] at hkey
        rw [hkey] at hdead
        exact absurd hlt hdead
    · exact h.dead k hk hdead
  rest := by
    intro k hk
    rw [mem_cons, not_or] at hk
    exact h.rest k hk.2
  least := by
    intro k hk e' he'
    rcases mem_cons.mp hk with rfl | hk
    · rw [hkey] at he'
      cases he'
      dsimp only
      split
      next => omega
      next hn =>
        have hpos : acc.nextExpiryMs ≠ 0 := fun h0 => hn (.inl h0)
        obtain ⟨_, _, hnext⟩ := h.attained hpos
        omega
    · have hold := h.least k hk e' he'
      dsimp only
      split
      next => omega
      next => exact hold
  attained := by
    split
    next => exact fun _ => ⟨key, hkey, hlt⟩
    next => exact h.attained

theorem alive_iff {m : AnyMap} : Alive now (m.lookup key) ↔ ∃ e, mapGetString m key = .int e ∧ now < e := by
  rw [mapGetString]
  cases m.lookup key with
  | none => simp [Alive]
  | some v => cases v <;> simp [Alive]

theorem lookup_of_mapGet {m : AnyMap} {e : Int} (h : mapGetString m key = .int e) : m.lookup key = some (.int e) := by
  rw [mapGetString] at h
  cases hl : m.lookup key with
  | none =>
    rw [hl] at h
    cases h
  | some v =>
    rw [hl] at h
    exact congrArg some h

theorem Swept.purgeKey (h : Swept now entries done acc) (hnow : 0 ≤ now) (key : String) :
    Swept now entries (key :: done) (purgeKey now acc key) := by
  rw [SessionToken.purgeKey]
  split
  next e hget =>
    split
    next hle =>
      refine h.delete ?_
      rw [alive_iff, hget]
      rintro ⟨e', he', hlt⟩
      cases he'
      omega
    next hgt =>
      have hkept := h.keep (lookup_of_mapGet hget) (by omega) hnow
      split
      next hc => rwa [if_pos hc] at hkept
      next hc => rwa [if_neg hc] at hkept
  next hother =>
    refine h.delete ?_
    rw [alive_iff]
    rintro ⟨e, he, _⟩
    exact hother e he

theorem swept_foldl (hnow : 0 ≤ now) (entries : AnyMap) (ks : List String) :
    Swept now entries ks.reverse (ks.foldl (purgeKey now) ⟨entries, 0, 0⟩) := by
  have hrun : ∀ {done : List String} {acc : Purging}, Swept now entries done acc →
      Swept now entries (ks.reverse ++ done) (ks.foldl (purgeKey now) acc) := by
    induction ks with
    | nil => exact id
    | cons key ks ih =>
      intro done acc h
      rw [reverse_cons, append_assoc]
      exact ih (h.purgeKey hnow key)
  have hall := hrun (swept_start now entries)
  rwa [append_nil] at hall

end Sweep

def revokedAt (history : List (String × Int)) (jwtId : String) (now : Int) : Bool :=
  match history.lookup jwtId with
  | some e => now < e
  | none => false

theorem revokedAt_iff {history : List (String × Int)} {jwtId : String} {now : Int} :
    revokedAt history jwtId now = true ↔ ∃ e, history.lookup jwtId = some e ∧ now < e := by
  rw [revokedAt]
  cases history.lookup jwtId <;> simp

/-- The store has every revocation that expires after `clock`, and none but the
last one of each identifier. -/
structure Recorded (store : CryptoSignedJsonClaimsRevocationStore) (clock : Int) : Prop where
  last : ∀ k v, store.entries.lookup k = some v → ∃ e, v = .int e ∧ store.history.lookup k = some e
  kept : ∀ k e, store.history.lookup k = some e → clock < e → store.entries.lookup k = some (.int e)
  positive : ∀ k e, store.history.lookup k = some e → 0 < e
  least : ∀ k e, store.entries.lookup k = some (.int e) →
    0 < store.nextExpiryMillis ∧ store.nextExpiryMillis ≤ e
  nonneg : 0 ≤ store.nextExpiryMillis
  empty : store.entries = [] → store.nextExpiryMillis = 0

theorem recorded_new : Recorded cryptoSignedJsonClaimsRevocationStoreNew 0 where
  last := by simp [cryptoSignedJsonClaimsRevocationStoreNew]
  kept := by simp [cryptoSignedJsonClaimsRevocationStoreNew]
  positive := by simp [cryptoSignedJsonClaimsRevocationStoreNew]
  least := by simp [cryptoSignedJsonClaimsRevocationStoreNew]
  nonneg := Int.le_refl 0
  empty := fun _ => rfl

theorem normalize_nonneg (now : Int) : 0 ≤ cryptoNormalizeWallTimeMillis now := by
  rw [cryptoNormalizeWallTimeMillis]
  split <;> omega

theorem normalize_of_nonneg {now : Int} (h : 0 ≤ now) : cryptoNormalizeWallTimeMillis now = now := by
  rw [cryptoNormalizeWallTimeMillis, if_neg (by omega)]

variable {store : CryptoSignedJsonClaimsRevocationStore} {clock : Int}

theorem history_purge (now : Int) :
    (cryptoSignedJsonClaimsRevocationStorePurgeExpiredAt store now).1.history = store.history := by
  rw [cryptoSignedJsonClaimsRevocationStorePurgeExpiredAt]
  split
  · rfl
  · split <;> rfl

/-- A purge leaves the revocations that are still ahead, and the bound of the
store for the next purge. -/
theorem Recorded.purge (h : Recorded store clock) {now : Int} (hnow : clock ≤ cryptoNormalizeWallTimeMillis now) :
    Recorded (cryptoSignedJsonClaimsRevocationStorePurgeExpiredAt store now).1 (cryptoNormalizeWallTimeMillis now) ∧
      ∀ k e, (cryptoSignedJsonClaimsRevocationStorePurgeExpiredAt store now).1.entries.lookup k = some (.int e) →
        cryptoNormalizeWallTimeMillis now < e := by
  have hpos := normalize_nonneg now
  rw [cryptoSignedJsonClaimsRevocationStorePurgeExpiredAt]
  generalize cryptoNormalizeWallTimeMillis now = n at hnow hpos ⊢
  split
  next hlen =>
    have hnil : store.entries = [] := length_eq_zero_iff.mp hlen
    refine ⟨⟨h.last, fun k e he hlt => h.kept k e he (by omega), h.positive, ?_, Int.le_refl 0, fun _ => rfl⟩, ?_⟩
    · intro k e he
      rw [hnil] at he
      cases he
    · intro k e he
      rw [hnil] at he
      cases he
  next hlen =>
    split
    next hlater =>
      refine ⟨⟨h.last, fun k e he hlt => h.kept k e he (by omega), h.positive, h.least, h.nonneg, h.empty⟩, ?_⟩
      intro k e he
      have hleast := h.least k e he
      omega
    next hdue =>
      have hswept := swept_foldl hpos store.entries (keys store.entries)
      generalize (keys store.entries).foldl (purgeKey n) ⟨store.entries, 0, 0⟩ = acc at hswept
      -- what is left was in the store and is alive
      have hleft : ∀ k v, acc.entries.lookup k = some v →
          store.entries.lookup k = some v ∧ Alive n (store.entries.lookup k) ∧ k ∈ (keys store.entries).reverse := by
        intro k v hv
        by_cases hk : k ∈ (keys store.entries).reverse
        · by_cases halive : Alive n (store.entries.lookup k)
          · rw [← hswept.alive k halive]
            exact ⟨hv, by rwa [hswept.alive k halive], hk⟩
          · rw [hswept.dead k hk halive] at hv
            cases hv
        · rw [hswept.rest k hk] at hv
          exact absurd (mem_reverse.mpr (mem_keys_of_lookup hv)) hk
      refine ⟨⟨?_, ?_, h.positive, ?_, ?_, ?_⟩, ?_⟩
      · intro k v hv
        exact h.last k v (hleft k v hv).1
      · intro k e he hlt
        have hstore := h.kept k e he (by omega)
        have halive : Alive n (store.entries.lookup k) := by
          rw [hstore]
          exact hlt
        rw [hswept.alive k halive, hstore]
      · intro k e he
        exact hswept.least k (hleft k _ he).2.2 e he
      · by_cases hnext : acc.nextExpiryMs = 0
        · exact hnext.ge
        · obtain ⟨_, _, hlt⟩ := hswept.attained hnext
          exact (hpos.trans_lt hlt).le
      · intro hnil
        by_contra hnext
        obtain ⟨k, hk, _⟩ := hswept.attained hnext
        change acc.entries = [] at hnil
        rw [hnil] at hk
        cases hk
      · intro k e he
        obtain ⟨hs, halive, _⟩ := hleft k _ he
        rw [hs] at halive
        exact halive

theorem Recorded.has_purge (h : Recorded store clock) {now : Int} (hnow : clock ≤ cryptoNormalizeWallTimeMillis now)
    (jwtId : String) : mapHasString (cryptoSignedJsonClaimsRevocationStorePurgeExpiredAt store now).1.entries jwtId =
      revokedAt store.history jwtId (cryptoNormalizeWallTimeMillis now) := by
  obtain ⟨hrec, halive⟩ := h.purge hnow
  have hhist : (cryptoSignedJsonClaimsRevocationStorePurgeExpiredAt store now).1.history = store.history :=
    history_purge now
  rw [Bool.eq_iff_iff, revokedAt_iff, mapHasString, Option.isSome_iff_exists]
  constructor
  · rintro ⟨v, hv⟩
    obtain ⟨e, rfl, he⟩ := hrec.last jwtId v hv
    rw [hhist] at he
    exact ⟨e, he, halive jwtId e hv⟩
  · rintro ⟨e, he, hlt⟩
    rw [← hhist] at he
    exact ⟨_, hrec.kept jwtId e he hlt⟩

theorem Recorded.revokeId (h : Recorded store clock) (jwtId : String) (expires : Int) :
    Recorded (cryptoSignedJsonClaimsRevocationStoreRevokeId store jwtId expires).1 clock := by
  rw [cryptoSignedJsonClaimsRevocationStoreRevokeId]
  split
  next => exact h
  next hid =>
    split
    next => exact h
    next hexp =>
      have hhist : ∀ k, ((jwtId, expires) :: store.history).lookup k =
          if k = jwtId then some expires else store.history.lookup k := by
        intro k
        rw [lookup_cons]
        by_cases hk : k = jwtId
        · simp [hk]
        · have hne : (k == jwtId) = false := by simpa using hk
          simp [hne, hk]
      refine ⟨?_, ?_, ?_, ?_, ?_, ?_⟩
      · intro k v hv
        rw [lookup_mapSet] at hv
        rw [hhist]
        split at hv
        next hk =>
          cases hv
          exact ⟨expires, rfl, if_pos hk⟩
        next hk =>
          rw [if_neg hk]
          exact h.last k v hv
      · intro k e he hlt
        rw [hhist] at he
        rw [lookup_mapSet]
        split at he
        next hk =>
          cases he
          rw [if_pos hk]
        next hk =>
          rw [if_neg hk]
          exact h.kept k e he hlt
      · intro k e he
        rw [hhist] at he
        split at he
        next =>
          cases he
          omega
        next => exact h.positive k e he
      · intro k e he
        rw [lookup_mapSet] at he
        split at he
        next =>
          cases he
          dsimp only
          split
          next => omega
          next hn =>
            have hnonneg := h.nonneg
            omega
        next =>
          have hleast := h.least k e he
          dsimp only
          split <;> omega
      · have hnonneg := h.nonneg
        dsimp only
        split <;> omega
      · intro hnil
        have hlook := lookup_mapSet store.entries jwtId jwtId (.int expires)
        change mapSetString store.entries jwtId (.int expires) = [] at hnil
        rw [hnil, if_pos rfl] at hlook
        cases hlook

end Tablo.SessionToken
