import Tablo.BitsetQueries

/-! Programs that make bitsets and call the functions of the library on them,
over stores and over sets of numbers. -/

namespace Tablo.Bitset

section Programs

inductive Creation where
  | new (bitLength : Int)
  | fromIndices (bitLength : Int) (indices : List Int)

inductive Update where
  | set (index : Int)
  | clear (index : Int)
  | toggle (index : Int)
  | setMany (indices : List Int)
  | clearMany (indices : List Int)
  | setRange (startIndex endIndexExclusive : Int)
  | clearRange (startIndex endIndexExclusive : Int)
  | clearAll
  | recount
  | trimLastWord

inductive Query where
  | has (index : Int)
  | rank (indexExclusive : Int)
  | select (rankIndex : Int)
  | toIndices (maxItems : Int)
  | len
  | wordCount
  | count
  | isEmpty
  | stats

inductive Derivation where
  | clone
  | complement

inductive Combination where
  | union
  | intersect
  | difference
  | xor

inductive Reply where
  | none
  | flag (b : Bool) (e : Option BitsetError)
  | number (n : Int) (e : Option BitsetError)
  | found (n : Int) (b : Bool) (e : Option BitsetError)
  | listed (xs : List Int) (more : Bool) (e : Option BitsetError)
  | made (e : Option BitsetError)
  | stats (stats : BitsetStats)
  deriving DecidableEq

structure Interface (α : Type) where
  create : Creation → Result (α × Reply)
  update : Update → α → Result (α × Reply)
  query : Query → α → Result Reply
  derive : Derivation → α → Result (α × Reply)
  combine : Combination → α → α → Result (α × Reply)
  equals : α → α → Result Reply

inductive Op where
  | create (c : Creation)
  | update (u : Update) (r : Nat)
  | query (q : Query) (r : Nat)
  | derive (d : Derivation) (r : Nat)
  | combine (c : Combination) (left right : Nat)
  | equals (left right : Nat)

variable {α : Type} (lib : Interface α)

/-- The bitsets after a call and what it returns. A bitset that is changed is
changed for everybody who has it. -/
def Op.exec (pool : List α) : Op → Result (Reply × List α)
  | .create c => (lib.create c).map fun r => (r.2, pool ++ [r.1])
  | .update u r =>
    match pool[r]? with
    | none => .ok (.none, pool)
    | some a => (lib.update u a).map fun x => (x.2, pool.set r x.1)
  | .query q r =>
    match pool[r]? with
    | none => .ok (.none, pool)
    | some a => (lib.query q a).map fun x => (x, pool)
  | .derive d r =>
    match pool[r]? with
    | none => .ok (.none, pool)
    | some a => (lib.derive d a).map fun x => (x.2, pool ++ [x.1])
  | .combine c left right =>
    match pool[left]?, pool[right]? with
    | some a, some b => (lib.combine c a b).map fun x => (x.2, pool ++ [x.1])
    | _, _ => .ok (.none, pool)
  | .equals left right =>
    match pool[left]?, pool[right]? with
    | some a, some b => (lib.equals a b).map fun x => (x, pool)
    | _, _ => .ok (.none, pool)

def run : List Op → List α → Result (List Reply × List α)
  | [], pool => .ok ([], pool)
  | op :: ops, pool => do
    let x ← op.exec lib pool
    let y ← run ops x.2
    return (x.1 :: y.1, y.2)

end Programs

section Stores

variable (maxArraySize : Int)

def bitsets : Interface BitsetStore where
  create
    | .new n => .ok ((bitsetNew maxArraySize n).1, .made (bitsetNew maxArraySize n).2)
    | .fromIndices n indices => (bitsetFromIndices maxArraySize n indices).map fun r => (r.1, .made r.2)
  update
    | .set i, store => (bitsetSet store i).map fun r => (r.1, .flag r.2.1 r.2.2)
    | .clear i, store => (bitsetClear store i).map fun r => (r.1, .flag r.2.1 r.2.2)
    | .toggle i, store => (bitsetToggle store i).map fun r => (r.1, .flag r.2.1 r.2.2)
    | .setMany is, store => (bitsetSetMany store is).map fun r => (r.1, .number r.2.1 r.2.2)
    | .clearMany is, store => (bitsetClearMany store is).map fun r => (r.1, .number r.2.1 r.2.2)
    | .setRange a b, store => (bitsetSetRange store a b).map fun r => (r.1, .number r.2.1 r.2.2)
    | .clearRange a b, store => (bitsetClearRange store a b).map fun r => (r.1, .number r.2.1 r.2.2)
    | .clearAll, store => .ok ((bitsetClearAll maxArraySize store).1, .number (bitsetClearAll maxArraySize store).2 none)
    | .recount, store => .ok (bitsetRecount store, .none)
    | .trimLastWord, store => (bitsetTrimLastWord store).map fun r => (r, .none)
  query
    | .has i, store => (bitsetHas store i).map fun r => .flag r.1 r.2
    | .rank i, store => (bitsetRank store i).map fun r => .number r.1 r.2
    | .select k, store => .ok (.found (bitsetSelect store k).1 (bitsetSelect store k).2.1 (bitsetSelect store k).2.2)
    | .toIndices m, store =>
      .ok (.listed (bitsetToIndices store m).1 (bitsetToIndices store m).2.1 (bitsetToIndices store m).2.2)
    | .len, store => .ok (.number (bitsetLen store) none)
    | .wordCount, store => .ok (.number (bitsetWordCount store) none)
    | .count, store => .ok (.number (bitsetCount store) none)
    | .isEmpty, store => .ok (.flag (bitsetIsEmpty store) none)
    | .stats, store => .ok (.stats (bitsetStats store))
  derive
    | .clone, store => .ok (bitsetClone store, .made none)
    | .complement, store => (bitsetComplement maxArraySize store).map fun r => (r, .made none)
  combine
    | .union, l, r => (bitsetUnion maxArraySize l r).map fun x => (x.1, .made x.2)
    | .intersect, l, r => (bitsetIntersect maxArraySize l r).map fun x => (x.1, .made x.2)
    | .difference, l, r => (bitsetDifference maxArraySize l r).map fun x => (x.1, .made x.2)
    | .xor, l, r => (bitsetXor maxArraySize l r).map fun x => (x.1, .made x.2)
  equals l r := (bitsetEquals l r).map fun x => .flag x.1 x.2

end Stores

variable (s t : IndexSet)

def indexError (i : Int) (context : String) : BitsetError :=
  ⟨.invalidArgument, "bit index out of range", context, .fields [("index", i), ("bitLength", s.length)]⟩

def IndexSet.change (target : Bool → Bool) (reply : Bool → Bool) (context : String) (s : IndexSet) (i : Int) :
    IndexSet × Bool × Option BitsetError :=
  if h : 0 ≤ i ∧ i < s.length then
    let there := decide (i.toNat ∈ s.members)
    (s.assign i.toNat (target there) (by omega), reply there, none)
  else (s, false, some (indexError s i context))

def IndexSet.setBit := IndexSet.change (fun _ => true) not "bitset.set.index"

def IndexSet.clearBit := IndexSet.change (fun _ => false) id "bitset.clear.index"

def IndexSet.toggleBit := IndexSet.change not not "bitset.toggle.index"

def IndexSet.changeMany (change : IndexSet → Int → IndexSet × Bool × Option BitsetError) (changed : Int) :
    List Int → IndexSet → IndexSet × Int × Option BitsetError
  | [], s => (s, changed, none)
  | i :: is, s =>
    match (change s i).2.2 with
    | some e => ((change s i).1, changed, some e)
    | none => IndexSet.changeMany change (if (change s i).2.1 then changed + 1 else changed) is (change s i).1

def IndexSet.changeRange (change : IndexSet → Int → IndexSet × Bool × Option BitsetError) (context : String)
    (s : IndexSet) (a b : Int) : IndexSet × Int × Option BitsetError :=
  if 0 ≤ a ∧ a ≤ b ∧ b ≤ s.length then IndexSet.changeMany change 0 (indexRange a b) s
  else (s, 0, some ⟨.invalidArgument, "invalid bit range", context,
    .fields [("startIndex", a), ("endIndexExclusive", b), ("bitLength", s.length)]⟩)

def IndexSet.make (n : Int) : IndexSet × Option BitsetError :=
  if 1 ≤ n ∧ n ≤ 100000000 then (.empty n.toNat, none)
  else (.empty 0, some ⟨.invalidArgument, "bitLength must be between 1 and 100000000", "bitset.config.bitLength",
    .int n⟩)

def IndexSet.makeFrom (n : Int) (indices : List Int) : IndexSet × Option BitsetError :=
  match IndexSet.make n with
  | (s, some e) => (s, some e)
  | (s, none) => ((IndexSet.changeMany IndexSet.setBit 0 indices s).1, (IndexSet.changeMany IndexSet.setBit 0 indices s).2.2)

def pairError (context : String) : BitsetError :=
  ⟨.invalidArgument, "bitset sizes must match", context,
    .fields [("leftBitLength", s.length), ("rightBitLength", t.length)]⟩

def IndexSet.combined (op : Finset Nat → Finset Nat → Finset Nat) (context : String) : IndexSet × Reply :=
  if s.length = t.length then (.below s.length (op s.members t.members), .made none)
  else (.empty 0, .made (some (pairError s t context)))

def IndexSet.rankReply (i : Int) : Reply :=
  if 0 ≤ i ∧ i ≤ s.length then .number (s.rank i.toNat) none
  else .number 0 (some ⟨.invalidArgument, "rank index must be between 0 and bitLength", "bitset.rank.indexExclusive",
    .fields [("indexExclusive", i), ("bitLength", s.length)]⟩)

def IndexSet.selectReply (k : Int) : Reply :=
  if 0 ≤ k then
    match s.select k.toNat with
    | some i => .found i true none
    | none => .found (-1) false none
  else .found (-1) false (some ⟨.invalidArgument, "rankIndex must be >= 0", "bitset.select.rankIndex", .int k⟩)

def IndexSet.listReply (m : Int) : Reply :=
  if 1 ≤ m ∧ m ≤ 100000000 then
    .listed (((s.members.sort (· ≤ ·)).take m.toNat).map Nat.cast) (decide (m.toNat < s.members.card)) none
  else .listed [] false (some ⟨.invalidArgument, "maxItems must be between 1 and 100000000",
    "bitset.toIndices.maxItems", .int m⟩)

def indexSets : Interface IndexSet where
  create
    | .new n => .ok ((IndexSet.make n).1, .made (IndexSet.make n).2)
    | .fromIndices n indices => .ok ((IndexSet.makeFrom n indices).1, .made (IndexSet.makeFrom n indices).2)
  update
    | .set i, s => .ok ((s.setBit i).1, .flag (s.setBit i).2.1 (s.setBit i).2.2)
    | .clear i, s => .ok ((s.clearBit i).1, .flag (s.clearBit i).2.1 (s.clearBit i).2.2)
    | .toggle i, s => .ok ((s.toggleBit i).1, .flag (s.toggleBit i).2.1 (s.toggleBit i).2.2)
    | .setMany is, s =>
      let r := IndexSet.changeMany IndexSet.setBit 0 is s
      .ok (r.1, .number r.2.1 r.2.2)
    | .clearMany is, s =>
      let r := IndexSet.changeMany IndexSet.clearBit 0 is s
      .ok (r.1, .number r.2.1 r.2.2)
    | .setRange a b, s =>
      let r := IndexSet.changeRange IndexSet.setBit "bitset.setRange.range" s a b
      .ok (r.1, .number r.2.1 r.2.2)
    | .clearRange a b, s =>
      let r := IndexSet.changeRange IndexSet.clearBit "bitset.clearRange.range" s a b
      .ok (r.1, .number r.2.1 r.2.2)
    | .clearAll, s => .ok (.empty s.length, .number s.members.card none)
    | .recount, s => .ok (s, .none)
    | .trimLastWord, s => .ok (s, .none)
  query
    | .has i, s =>
      if 0 ≤ i ∧ i < s.length then .ok (.flag (decide (i.toNat ∈ s.members)) none)
      else .ok (.flag false (some (indexError s i "bitset.has.index")))
    | .rank i, s => .ok (s.rankReply i)
    | .select k, s => .ok (s.selectReply k)
    | .toIndices m, s => .ok (s.listReply m)
    | .len, s => .ok (.number s.length none)
    | .wordCount, s => .ok (.number (wordsFor s.length) none)
    | .count, s => .ok (.number s.members.card none)
    | .isEmpty, s => .ok (.flag (decide (s.members = ∅)) none)
    | .stats, s => .ok (.stats ⟨s.length, wordsFor s.length, s.members.card, (s.members.card * 1000 / s.length : Nat)⟩)
  derive
    | .clone, s => .ok (s, .made none)
    | .complement, s => .ok (.below s.length (Finset.range s.length \ s.members), .made none)
  combine
    | .union, s, t => .ok (s.combined t (· ∪ ·) "bitset.union.size")
    | .intersect, s, t => .ok (s.combined t (· ∩ ·) "bitset.intersect.size")
    | .difference, s, t => .ok (s.combined t (· \ ·) "bitset.difference.size")
    | .xor, s, t => .ok (s.combined t symmDiff "bitset.xor.size")
  equals s t :=
    if s.length = t.length then .ok (.flag (decide (s.members = t.members)) none)
    else .ok (.flag false (some (pairError s t "bitset.equals.size")))

end Tablo.Bitset
