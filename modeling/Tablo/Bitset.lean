import Mathlib.Data.Int.Bitwise

/-! The bitsets of `lib/bitset.tblo`. A store is a record with an array of
words of thirty bits; records and arrays are references. -/

namespace Tablo.Bitset

structure BitsetStore where
  words : List Int
  bitLength : Int
  setCount : Int
  deriving DecidableEq, Repr

structure BitsetStats where
  bitLength : Int
  wordCount : Int
  setCount : Int
  densityPermille : Int
  deriving DecidableEq, Repr

inductive ErrorCode where
  | invalidArgument
  | internal
  deriving DecidableEq, Repr

inductive Detail where
  | int (n : Int)
  | fields (fields : List (String × Int))
  deriving DecidableEq, Repr

structure BitsetError where
  code : ErrorCode
  message : String
  context : String
  detail : Detail
  deriving DecidableEq, Repr

abbrev Result := Except String

def bitsetWordBits : Nat := 30

def bitsetWordAll : Int := 1073741823

def bitsetBitMasks : List Int :=
  [1, 2, 4, 8, 16, 32, 64, 128, 256, 512, 1024, 2048, 4096, 8192, 16384, 32768, 65536, 131072, 262144, 524288,
    1048576, 2097152, 4194304, 8388608, 16777216, 33554432, 67108864, 134217728, 268435456, 536870912]

def bitsetMasksByCount : List Int :=
  [0, 1, 3, 7, 15, 31, 63, 127, 255, 511, 1023, 2047, 4095, 8191, 16383, 32767, 65535, 131071, 262143, 524287,
    1048575, 2097151, 4194303, 8388607, 16777215, 33554431, 67108863, 134217727, 268435455, 536870911,
    1073741823]

def bitsetPopcountNibble : List Int := [0, 1, 1, 2, 1, 2, 2, 3, 1, 2, 2, 3, 2, 3, 3, 4]

def bitsetDefaultStore : BitsetStore := ⟨[], 0, 0⟩

def arrayGet (xs : List Int) (i : Int) : Result Int :=
  if i < 0 then .error "Array index out of bounds"
  else match xs[i.toNat]? with
    | some x => .ok x
    | none => .error "Array index out of bounds"

def arraySet (xs : List Int) (i x : Int) : Result (List Int) :=
  if i < 0 ∨ xs.length ≤ i.toNat then .error "Array index out of bounds" else .ok (xs.set i.toNat x)

/-- The first component of `arrayWithSize`: an array that would be too large is
empty. No limit is a limit of zero. -/
def arrayWithSize (maxArraySize : Int) (size : Nat) (x : Int) : List Int :=
  if (0 < maxArraySize ∧ maxArraySize < size) ∨ 2147483647 < size then [] else List.replicate size x

def bitsetWordCountForBits (bitLength : Int) : Nat :=
  if bitLength ≤ 0 then 0 else ((bitLength + bitsetWordBits - 1).tdiv bitsetWordBits).toNat

def bitsetMaskForBits (bitCount : Int) : Result Int :=
  if bitCount ≤ 0 then .ok 0
  else if bitsetMasksByCount.length ≤ bitCount then .ok bitsetWordAll
  else arrayGet bitsetMasksByCount bitCount

def bitsetLastWordMask (bitLength : Int) : Result Int :=
  if bitLength ≤ 0 then .ok 0
  else if bitLength.tmod bitsetWordBits = 0 then .ok bitsetWordAll
  else bitsetMaskForBits (bitLength.tmod bitsetWordBits)

def popcountLoop (x count : Int) : Int :=
  if x = 0 then count
  else
    -- four bits are an index below sixteen, whatever the sign of the word
    popcountLoop (x.tdiv 16) (count + bitsetPopcountNibble.getD (x.land 15).toNat 0)
termination_by x.natAbs
decreasing_by
  rw [Int.natAbs_tdiv]
  exact Nat.div_lt_self (Int.natAbs_pos.mpr ‹_›) (by decide)

def bitsetPopcountWord (word : Int) : Int := popcountLoop word 0

variable (store left right : BitsetStore)

def bitsetValidateBitLength (bitLength : Int) : Option BitsetError :=
  if bitLength < 1 ∨ 100000000 < bitLength then
    some ⟨.invalidArgument, "bitLength must be between 1 and 100000000", "bitset.config.bitLength", .int bitLength⟩
  else none

def bitsetValidateIndex (index : Int) (context : String) : Option BitsetError :=
  if index < 0 ∨ store.bitLength ≤ index then
    some ⟨.invalidArgument, "bit index out of range", context,
      .fields [("index", index), ("bitLength", store.bitLength)]⟩
  else none

def bitsetValidateRange (startIndex endIndexExclusive : Int) (context : String) : Option BitsetError :=
  if startIndex < 0 ∨ endIndexExclusive < startIndex ∨ store.bitLength < endIndexExclusive then
    some ⟨.invalidArgument, "invalid bit range", context,
      .fields [("startIndex", startIndex), ("endIndexExclusive", endIndexExclusive), ("bitLength", store.bitLength)]⟩
  else none

def bitsetValidatePair (context : String) : Option BitsetError :=
  if left.bitLength ≠ right.bitLength then
    some ⟨.invalidArgument, "bitset sizes must match", context,
      .fields [("leftBitLength", left.bitLength), ("rightBitLength", right.bitLength)]⟩
  else none

section Single

variable (index : Int)

structure BitPlace where
  wordI : Int
  mask : Int
  word : Int

def bitPlace : Result BitPlace := do
  let mask ← arrayGet bitsetBitMasks (index.tmod bitsetWordBits)
  let word ← arrayGet store.words (index.tdiv bitsetWordBits)
  return ⟨index.tdiv bitsetWordBits, mask, word⟩

def bitsetHas : Result (Bool × Option BitsetError) :=
  if index < 0 ∨ store.bitLength ≤ index then .ok (false, bitsetValidateIndex store index "bitset.has.index")
  else do
    let p ← bitPlace store index
    return (p.word.land p.mask ≠ 0, none)

def countDown (count : Int) : Int := if count - 1 < 0 then 0 else count - 1

def bitsetSet : Result (BitsetStore × Bool × Option BitsetError) :=
  if index < 0 ∨ store.bitLength ≤ index then
    .ok (store, false, bitsetValidateIndex store index "bitset.set.index")
  else do
    let p ← bitPlace store index
    if p.word.land p.mask ≠ 0 then return (store, false, none)
    else
      let words ← arraySet store.words p.wordI (p.word.lor p.mask)
      return ({ store with words, setCount := store.setCount + 1 }, true, none)

def bitsetClear : Result (BitsetStore × Bool × Option BitsetError) :=
  if index < 0 ∨ store.bitLength ≤ index then
    .ok (store, false, bitsetValidateIndex store index "bitset.clear.index")
  else do
    let p ← bitPlace store index
    if p.word.land p.mask = 0 then return (store, false, none)
    else
      let words ← arraySet store.words p.wordI (p.word.land p.mask.lnot)
      return ({ store with words, setCount := countDown store.setCount }, true, none)

def bitsetToggle : Result (BitsetStore × Bool × Option BitsetError) :=
  match bitsetValidateIndex store index "bitset.toggle.index" with
  | some e => .ok (store, false, some e)
  | none => do
    let p ← bitPlace store index
    let nowSet := p.word.land p.mask = 0
    let words ← arraySet store.words p.wordI (p.word.xor p.mask)
    let setCount := if nowSet then store.setCount + 1 else countDown store.setCount
    return ({ store with words, setCount }, nowSet, none)

end Single

abbrev Change := BitsetStore → Int → Result (BitsetStore × Bool × Option BitsetError)

/-- The loop of `bitsetSetMany` and `bitsetClearMany`. -/
def changeMany (change : Change) (changed : Int) :
    List Int → BitsetStore → Result (BitsetStore × Int × Option BitsetError)
  | [], next => .ok (next, changed, none)
  | index :: indices, next => do
    let r ← change next index
    match r.2.2 with
    | some e => return (r.1, changed, some e)
    | none => changeMany change (if r.2.1 then changed + 1 else changed) indices r.1

def bitsetSetMany (store : BitsetStore) (indices : List Int) := changeMany bitsetSet 0 indices store

def bitsetClearMany (store : BitsetStore) (indices : List Int) := changeMany bitsetClear 0 indices store

def indexRange (startIndex endIndexExclusive : Int) : List Int :=
  (List.range (endIndexExclusive - startIndex).toNat).map fun k : Nat => startIndex + k

def changeRange (change : Change) (context : String) (store : BitsetStore) (startIndex endIndexExclusive : Int) :
    Result (BitsetStore × Int × Option BitsetError) :=
  match bitsetValidateRange store startIndex endIndexExclusive context with
  | some e => .ok (store, 0, some e)
  | none => changeMany change 0 (indexRange startIndex endIndexExclusive) store

def bitsetSetRange := changeRange bitsetSet "bitset.setRange.range"

def bitsetClearRange := changeRange bitsetClear "bitset.clearRange.range"

section Whole

variable (maxArraySize : Int) (store left right : BitsetStore)

def bitsetNew (bitLength : Int) : BitsetStore × Option BitsetError :=
  match bitsetValidateBitLength bitLength with
  | some e => (bitsetDefaultStore, some e)
  | none => (⟨arrayWithSize maxArraySize (bitsetWordCountForBits bitLength) 0, bitLength, 0⟩, none)

def fromIndicesLoop : List Int → BitsetStore → Result (BitsetStore × Option BitsetError)
  | [], next => .ok (next, none)
  | index :: indices, next => do
    let r ← bitsetSet next index
    match r.2.2 with
    | some e => return (r.1, some e)
    | none => fromIndicesLoop indices r.1

def bitsetFromIndices (bitLength : Int) (indices : List Int) : Result (BitsetStore × Option BitsetError) :=
  match (bitsetNew maxArraySize bitLength).2 with
  | some e => .ok ((bitsetNew maxArraySize bitLength).1, some e)
  | none => fromIndicesLoop indices (bitsetNew maxArraySize bitLength).1

def bitsetClone : BitsetStore := ⟨store.words, store.bitLength, store.setCount⟩

def bitsetClearAll : BitsetStore × Int :=
  ({ store with words := arrayWithSize maxArraySize store.words.length 0, setCount := 0 }, store.setCount)

/-- The loops of the set operations: each word is computed, masked if it is the
last, stored and counted. -/
def fillLoop (wordAt : Nat → Result Int) (lastMask : Int) (wordCount : Nat) :
    Nat → List Int → Int → Result (List Int × Int)
  | 0, out, total => .ok (out, total)
  | left + 1, out, total => do
    let i := wordCount - (left + 1)
    let computed ← wordAt i
    let word := if i = wordCount - 1 then computed.land lastMask else computed
    let out ← arraySet out i word
    fillLoop wordAt lastMask wordCount left out (total + bitsetPopcountWord word)

def fill (wordAt : Nat → Result Int) : Result BitsetStore := do
  let lastMask ← bitsetLastWordMask store.bitLength
  let r ← fillLoop wordAt lastMask store.words.length store.words.length
    (arrayWithSize maxArraySize store.words.length 0) 0
  return ⟨r.1, store.bitLength, r.2⟩

def combine (op : Int → Int → Int) (context : String) : Result (BitsetStore × Option BitsetError) :=
  match bitsetValidatePair left right context with
  | some e => .ok (bitsetDefaultStore, some e)
  | none => do
    let out ← fill maxArraySize left fun i => do
      let l ← arrayGet left.words i
      let r ← arrayGet right.words i
      return op l r
    return (out, none)

def bitsetUnion := combine maxArraySize left right Int.lor "bitset.union.size"

def bitsetIntersect := combine maxArraySize left right Int.land "bitset.intersect.size"

def bitsetDifference := combine maxArraySize left right (fun l r => l.land r.lnot) "bitset.difference.size"

def bitsetXor := combine maxArraySize left right Int.xor "bitset.xor.size"

def bitsetComplement : Result BitsetStore :=
  fill maxArraySize store fun i => do
    let word ← arrayGet store.words i
    return word.lnot.land bitsetWordAll

def bitsetRecount : BitsetStore := { store with setCount := (store.words.map bitsetPopcountWord).sum }

def bitsetTrimLastWord : Result BitsetStore :=
  if store.words.length = 0 then .ok store
  else do
    let word ← arrayGet store.words (store.words.length - 1)
    let lastMask ← bitsetLastWordMask store.bitLength
    let words ← arraySet store.words (store.words.length - 1) (word.land lastMask)
    return { store with words }

end Whole

def bitsetLen : Int := store.bitLength

def bitsetWordCount : Int := store.words.length

def bitsetCount : Int := store.setCount

def bitsetIsEmpty : Bool := store.setCount = 0

def equalsLoop : List Int → List Int → Result Bool
  | [], _ => .ok true
  | _ :: _, [] => .error "Array index out of bounds"
  | l :: ls, r :: rs => if l ≠ r then .ok false else equalsLoop ls rs

def bitsetEquals : Result (Bool × Option BitsetError) :=
  match bitsetValidatePair left right "bitset.equals.size" with
  | some e => .ok (false, some e)
  | none => do
    let same ← equalsLoop left.words right.words
    return (same, none)

def rankLoop : Nat → List Int → Int → Result Int
  | 0, _, total => .ok total
  | _ + 1, [], _ => .error "Array index out of bounds"
  | n + 1, word :: words, total => rankLoop n words (total + bitsetPopcountWord word)

def rankRest (fullWords : Nat) (rem total : Int) : Result Int :=
  if 0 < rem ∧ fullWords < store.words.length then do
    let mask ← bitsetMaskForBits rem
    let word ← arrayGet store.words fullWords
    return total + bitsetPopcountWord (word.land mask)
  else .ok total

def bitsetRank (indexExclusive : Int) : Result (Int × Option BitsetError) :=
  if indexExclusive < 0 ∨ store.bitLength < indexExclusive then
    .ok (0, some ⟨.invalidArgument, "rank index must be between 0 and bitLength", "bitset.rank.indexExclusive",
      .fields [("indexExclusive", indexExclusive), ("bitLength", store.bitLength)]⟩)
  else do
    let fullWords := (indexExclusive.tdiv bitsetWordBits).toNat
    let total ← rankLoop fullWords store.words 0
    let total ← rankRest store fullWords (indexExclusive.tmod bitsetWordBits) total
    return (total, none)

def selectBitLoop (bitLength word : Int) (wordI : Nat) : List Int → Nat → Int → Int ⊕ Int
  | [], _, remaining => .inr remaining
  | mask :: masks, bitI, remaining =>
    if word.land mask ≠ 0 then
      if remaining = 0 ∧ (wordI * bitsetWordBits + bitI : Int) < bitLength then
        .inl (wordI * bitsetWordBits + bitI)
      else selectBitLoop bitLength word wordI masks (bitI + 1) (remaining - 1)
    else selectBitLoop bitLength word wordI masks (bitI + 1) remaining

def selectLoop (bitLength : Int) : List Int → Nat → Int → Option Int
  | [], _, _ => none
  | word :: words, wordI, remaining =>
    if word ≠ 0 then
      if bitsetPopcountWord word ≤ remaining then
        selectLoop bitLength words (wordI + 1) (remaining - bitsetPopcountWord word)
      else match selectBitLoop bitLength word wordI bitsetBitMasks 0 remaining with
        | .inl index => some index
        | .inr remaining => selectLoop bitLength words (wordI + 1) remaining
    else selectLoop bitLength words (wordI + 1) remaining

def bitsetSelect (rankIndex : Int) : Int × Bool × Option BitsetError :=
  if rankIndex < 0 then
    (-1, false, some ⟨.invalidArgument, "rankIndex must be >= 0", "bitset.select.rankIndex", .int rankIndex⟩)
  else if store.setCount ≤ rankIndex then (-1, false, none)
  else match selectLoop store.bitLength store.words 0 rankIndex with
    | some index => (index, true, none)
    | none => (-1, false, some ⟨.internal, "select failed to resolve rank index", "bitset.select.internal",
        .fields [("rankIndex", rankIndex), ("setCount", store.setCount)]⟩)

def toIndicesBitLoop (bitLength maxItems word : Int) (wordI : Nat) :
    List Int → Nat → List Int → List Int × Bool
  | [], _, out => (out, false)
  | mask :: masks, bitI, out =>
    if word.land mask ≠ 0 ∧ (wordI * bitsetWordBits + bitI : Int) < bitLength then
      if maxItems ≤ out.length then (out, true)
      else toIndicesBitLoop bitLength maxItems word wordI masks (bitI + 1)
        (out ++ [(wordI * bitsetWordBits + bitI : Int)])
    else toIndicesBitLoop bitLength maxItems word wordI masks (bitI + 1) out

def toIndicesLoop (bitLength maxItems : Int) : List Int → Nat → List Int → List Int × Bool
  | [], _, out => (out, false)
  | word :: words, wordI, out =>
    if word ≠ 0 then
      match toIndicesBitLoop bitLength maxItems word wordI bitsetBitMasks 0 out with
      | (out, true) => (out, true)
      | (out, false) => toIndicesLoop bitLength maxItems words (wordI + 1) out
    else toIndicesLoop bitLength maxItems words (wordI + 1) out

def bitsetToIndices (maxItems : Int) : List Int × Bool × Option BitsetError :=
  if maxItems < 1 ∨ 100000000 < maxItems then
    ([], false, some ⟨.invalidArgument, "maxItems must be between 1 and 100000000", "bitset.toIndices.maxItems",
      .int maxItems⟩)
  else
    let r := toIndicesLoop store.bitLength maxItems store.words 0 []
    (r.1, r.2, none)

def bitsetStats : BitsetStats where
  bitLength := store.bitLength
  wordCount := store.words.length
  setCount := store.setCount
  densityPermille := if 0 < store.bitLength then (store.setCount * 1000).tdiv store.bitLength else 0

end Tablo.Bitset
