import Mathlib.Data.List.AList

/-! The least-recently-used container of `lib/lru.tblo`. Records are references and every function
returns the store it was given, so a store is passed on from call to call; `nil` is `none`. -/

namespace Tablo.Lru

variable {A : Type}

structure LruEntry (A : Type) where
  key : String
  value : Option A
  prevKey : String
  nextKey : String
  touchSeq : Int64

structure LruStore (A : Type) where
  entries : AList fun _ : String => LruEntry A
  capacity : Int
  count : Int
  lruKey : String
  mruKey : String
  nextTouchSeq : Int64
  totalSets : Int64
  totalEvictions : Int64
  /-- Not in the source: how often a branch for a missing entry or a negative count was taken. -/
  internalErrors : Nat

structure LruSetResult (A : Type) where
  inserted : Bool
  updated : Bool
  evicted : Bool
  evictedKey : String
  evictedValue : Option A
  count : Int

inductive ErrorCode where
  | invalidArgument
  deriving DecidableEq, Repr

inductive Detail where
  | key (key : String)
  | capacity (capacity : Int)
  deriving DecidableEq, Repr

structure LruError where
  code : ErrorCode
  message : String
  context : String
  detail : Detail
  deriving DecidableEq, Repr

variable (store : LruStore A)

def LruStore.internalError : LruStore A :=
  { store with internalErrors := store.internalErrors + 1 }

def lruDefaultSetResult (count : Int) : LruSetResult A :=
  ⟨false, false, false, "", none, count⟩

def lruValidateCapacity (capacity : Int) : Option LruError :=
  if capacity < 1 ∨ 1000000 < capacity then
    some ⟨.invalidArgument, "capacity must be between 1 and 1000000", "lru.config.capacity", .capacity capacity⟩
  else none

def lruValidateKey (key context : String) : Option LruError :=
  if key = "" then some ⟨.invalidArgument, "lru key must not be empty", context, .key key⟩ else none

variable (key : String)

def lruGetEntry : Option (LruEntry A) :=
  store.entries.lookup key

variable (entry : LruEntry A)

def lruSetEntry : LruStore A :=
  { store with entries := store.entries.insert key entry }

def mapDeleteString : LruStore A :=
  { store with entries := store.entries.erase key }

def lruTakeTouchSeq : LruStore A × Int64 :=
  let seq := if store.nextTouchSeq < 1 then 1 else store.nextTouchSeq
  ({ store with nextTouchSeq := seq + 1 }, seq)

def lruDetachPrev (prevKey nextKey : String) : LruStore A :=
  if prevKey ≠ "" then
    match lruGetEntry store prevKey with
    | some prevEntry => lruSetEntry store prevKey { prevEntry with nextKey := nextKey }
    | none => store.internalError
  else { store with lruKey := nextKey }

def lruDetachNext (prevKey nextKey : String) : LruStore A :=
  if nextKey ≠ "" then
    match lruGetEntry store nextKey with
    | some nextEntry => lruSetEntry store nextKey { nextEntry with prevKey := prevKey }
    | none => store.internalError
  else { store with mruKey := prevKey }

def lruDetach : LruStore A :=
  lruDetachNext (lruDetachPrev store entry.prevKey entry.nextKey) entry.prevKey entry.nextKey

def lruAttachAsMru : LruStore A :=
  let updated := { entry with prevKey := store.mruKey, nextKey := "" }
  let next :=
    if store.mruKey ≠ "" then
      match lruGetEntry store store.mruKey with
      | some oldMru => lruSetEntry store oldMru.key { oldMru with nextKey := key }
      | none => store.internalError
    else { store with lruKey := key }
  let next := lruSetEntry { next with mruKey := key } key updated
  if next.lruKey = "" then { next with lruKey := key } else next

def lruTouchKnown (touchSeq : Int64) :
    LruStore A :=
  let entry := { entry with touchSeq := touchSeq }
  if store.mruKey = key then lruSetEntry store key entry
  else lruAttachAsMru (lruDetach store entry) key entry

def lruDropOne : LruStore A :=
  let next : LruStore A := { store with count := store.count - 1 }
  let next : LruStore A := if next.count < 0 then { next.internalError with count := 0 } else next
  if next.count = 0 then { next with lruKey := "", mruKey := "" } else next

def lruEvictOne : LruStore A × Option (String × Option A) :=
  if store.count < 1 ∨ store.lruKey = "" then (store.internalError, none)
  else
    match lruGetEntry store store.lruKey with
    | none =>
      let next := mapDeleteString store store.lruKey
      let next := { next.internalError with count := next.entries.keys.length }
      (if next.count = 0 then { next with lruKey := "", mruKey := "" } else next, none)
    | some victim =>
      let next := lruDropOne (mapDeleteString (lruDetach store victim) store.lruKey)
      ({ next with totalEvictions := next.totalEvictions + 1 }, some (store.lruKey, victim.value))

def LruStore.empty (capacity : Int) : LruStore A := ⟨∅, capacity, 0, "", "", 1, 0, 0, 0⟩

def lruNew (capacity : Int) : LruStore A × Option LruError :=
  match lruValidateCapacity capacity with
  | some err => (.empty 0, some err)
  | none => (.empty capacity, none)

def lruSet (value : Option A) :
    LruStore A × LruSetResult A × Option LruError :=
  match lruValidateKey key "lru.set.key" with
  | some err => (store, lruDefaultSetResult store.count, some err)
  | none =>
    let outcome := lruDefaultSetResult store.count
    match lruGetEntry store key with
    | some existing =>
      let (next, seq) := lruTakeTouchSeq store
      let next := lruTouchKnown next key { existing with value := value } seq
      let next := { next with totalSets := next.totalSets + 1 }
      (next, { outcome with updated := true, count := next.count }, none)
    | none =>
      let (next, victim) :=
        if store.capacity ≤ store.count then lruEvictOne store else (store, none)
      let outcome :=
        match victim with
        | some (evictedKey, evictedValue) =>
          { outcome with evicted := true, evictedKey := evictedKey, evictedValue := evictedValue }
        | none => outcome
      let (next, seq) := lruTakeTouchSeq next
      let next := lruAttachAsMru next key ⟨key, value, "", "", seq⟩
      let next := { next with count := next.count + 1, totalSets := next.totalSets + 1 }
      (next, { outcome with inserted := true, count := next.count }, none)

def lruPeek :
    LruStore A × Option A × Bool × Option LruError :=
  match lruValidateKey key "lru.peek.key" with
  | some err => (store, none, false, some err)
  | none =>
    match lruGetEntry store key with
    | none => (store, none, false, none)
    | some entry =>
      let (next, seq) := lruTakeTouchSeq store
      (lruTouchKnown next key entry seq, entry.value, true, none)

def lruGet : LruStore A × Option A × Bool × Option LruError :=
  lruPeek store key

def lruDelete : LruStore A × Bool × Option LruError :=
  match lruValidateKey key "lru.delete.key" with
  | some err => (store, false, some err)
  | none =>
    match lruGetEntry store key with
    | none => (store, false, none)
    | some entry => (lruDropOne (mapDeleteString (lruDetach store entry) key), true, none)

def lruHas : LruStore A × Bool × Option LruError :=
  match lruPeek store key with
  | (next, _, _, some err) => (next, false, some err)
  | (next, _, found, none) => (next, found, none)

def lruClear : LruStore A :=
  { store with entries := ∅, count := 0, lruKey := "", mruKey := "" }

def lruWalk (store : LruStore A) (link : LruEntry A → String) : Nat → String → List String
  | 0, _ => []
  | steps + 1, current =>
    if current = "" then []
    else
      match lruGetEntry store current with
      | none => [current]
      | some entry => current :: lruWalk store link steps (link entry)

def lruMaxSteps : Nat :=
  if store.count + 1 < 1 then store.entries.keys.length + 1 else (store.count + 1).toNat

def lruKeysLruToMru : List String :=
  lruWalk store LruEntry.nextKey (lruMaxSteps store) store.lruKey

def lruKeysMruToLru : List String :=
  lruWalk store LruEntry.prevKey (lruMaxSteps store) store.mruKey

inductive Call (A : Type) where
  | set (key : String) (value : Option A)
  | get (key : String)
  | peek (key : String)
  | has (key : String)
  | delete (key : String)
  | clear

inductive Reply (A : Type) where
  | set (result : LruSetResult A) (err : Option LruError)
  | value (value : Option A) (found : Bool) (err : Option LruError)
  | flag (flag : Bool) (err : Option LruError)
  | cleared

def call (store : LruStore A) : Call A → LruStore A × Reply A
  | .set key value =>
    let (next, result, err) := lruSet store key value
    (next, .set result err)
  | .get key =>
    let (next, value, found, err) := lruGet store key
    (next, .value value found err)
  | .peek key =>
    let (next, value, found, err) := lruPeek store key
    (next, .value value found err)
  | .has key =>
    let (next, found, err) := lruHas store key
    (next, .flag found err)
  | .delete key =>
    let (next, deleted, err) := lruDelete store key
    (next, .flag deleted err)
  | .clear => (lruClear store, .cleared)

def calls (store : LruStore A) : List (Call A) → LruStore A × List (Reply A)
  | [] => (store, [])
  | c :: cs =>
    let (next, reply) := call store c
    let (last, replies) := calls next cs
    (last, reply :: replies)

end Tablo.Lru
