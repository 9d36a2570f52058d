import Mathlib.Data.Nat.Basic

/-! The hash map of `vm.c`: open addressing on a table whose capacity is a
power of two, keyed by integers and strings. An empty slot (hash 0) is `none`;
stored hashes have bit 1 set and are never 0. Reference counts, probe
statistics and allocation failure are left out. -/

namespace Tablo.Vm

def hashMix64 (h : UInt64) : UInt64 :=
  let h := h ^^^ (h >>> 30)
  let h := h * 0xbf58476d1ce4e5b9
  let h := h ^^^ (h >>> 27)
  let h := h * 0x94d049bb133111eb
  h ^^^ (h >>> 31)

def hashMix32 (h : UInt32) : UInt32 :=
  let h := h ^^^ (h >>> 16)
  let h := h * 0x7feb352d
  let h := h ^^^ (h >>> 15)
  let h := h * 0x846ca68b
  h ^^^ (h >>> 16)

def hashFold64To32 (h : UInt64) : UInt32 :=
  let mixed := hashMix64 h
  hashMix32 (mixed ^^^ (mixed >>> 32)).toUInt32

variable (chars : List UInt8)

def hashStringInternal64 : UInt64 :=
  let hash := chars.foldl (fun hash c => (hash ^^^ c.toUInt64) * 1099511628211) 1469598103934665603
  hashMix64 (hash ^^^ UInt64.ofNat chars.length)

def mapStringHashChars : UInt32 := hashFold64To32 (hashStringInternal64 chars)

def intHash (n : Int64) : UInt32 := hashFold64To32 (n.toUInt64 ^^^ 0x9e3779b97f4a7c15)

/-- A string object with its cached hash; all ones means not yet computed. -/
structure ObjString where
  chars : List UInt8
  hash : UInt32
  hash_eq : hash = 0xffffffff ∨ hash = mapStringHashChars chars

def objStringCreate : ObjString := ⟨chars, 0xffffffff, .inl rfl⟩

def mapStringHashObj (key : ObjString) : UInt32 :=
  if key.hash = 0xffffffff then mapStringHashChars key.chars else key.hash

inductive MapKey where
  | int (n : Int64)
  | string (chars : List UInt8)
  deriving DecidableEq, Repr

/-- A run-time value used as a key; a string may be a null pointer. -/
inductive KeyValue where
  | int (n : Int64)
  | string (s : Option ObjString)
  | other

structure MapEntry (V : Type) where
  hash : UInt32
  key : MapKey
  value : V

structure ObjMap (V : Type) where
  slots : List (Option (MapEntry V))
  capacity : Nat
  count : Nat
  used : Nat

/-- How an operation can fail to return: signed arithmetic leaves the range of
`int`, or a probe loop never meets an empty slot. -/
inductive Fault where
  | overflow
  | endless
  deriving DecidableEq, Repr

section Operations

variable {V : Type} (map : ObjMap V) (key : KeyArg)

def objMapCreate : ObjMap V := ⟨List.replicate 16 none, 16, 0, 0⟩

def int (x : Nat) : Except Fault Nat := if x ≤ 2147483647 then .ok x else .error .overflow

def slot (slots : List (Option (MapEntry V))) (i : Nat) : Option (MapEntry V) := slots.getD i none

/-- All lookups share this loop. It stops at an empty slot or at a hit and
says which; more probes than slots means that it would go round for ever. -/
def probeLoop (slots : List (Option (MapEntry V))) (mask : Nat) (hit : MapEntry V → Bool) :
    Nat → Nat → Except Fault (Nat × Bool)
  | 0, _ => .error .endless
  | fuel + 1, idx =>
    match slot slots idx with
    | none => .ok (idx, false)
    | some e => if hit e then .ok (idx, true) else probeLoop slots mask hit fuel ((idx + 1) &&& mask)

def home (capacity : Nat) (hash : UInt32) : Nat := hash.toNat &&& (capacity - 1)

def objMapFindSlot (hash : UInt32) (equals : MapKey → Bool) :
    Except Fault (Nat × Bool) :=
  probeLoop map.slots (map.capacity - 1) (fun e => e.hash == hash && equals e.key) map.capacity
    (home map.capacity hash)

def rehashLoop (capacity : Nat) : List (Option (MapEntry V)) → ObjMap V → Except Fault (ObjMap V)
  | [], map => .ok map
  | none :: rest, map => rehashLoop capacity rest map
  | some e :: rest, map => do
    let (idx, _) ← probeLoop map.slots (capacity - 1) (fun _ => false) capacity (home capacity e.hash)
    rehashLoop capacity rest
      { map with slots := map.slots.set idx (some e), count := map.count + 1, used := map.used + 1 }

def objMapAdjustCapacity (newCapacity : Nat) : Except Fault (ObjMap V) :=
  if newCapacity < 16 then .ok map
  else if newCapacity &&& (newCapacity - 1) ≠ 0 then .ok map
  else rehashLoop newCapacity map.slots ⟨List.replicate newCapacity none, newCapacity, 0, 0⟩

/-- The doubling loop; the first argument exceeds the doublings an `int` has
room for. -/
def growCapacity (needed : Nat) : Nat → Nat → Except Fault Nat
  | 0, _ => .error .overflow
  | fuel + 1, capacity => do
    let capacity ← int (capacity * 2)
    let load ← int (capacity * 3)
    if load / 4 < needed then growCapacity needed fuel capacity else .ok capacity

def objMapEnsureCapacity (additional : Nat) : Except Fault (ObjMap V) := do
  let load ← int (map.capacity * 3)
  let needed ← int (map.count + additional)
  if needed ≤ load / 4 ∧ map.used ≤ load / 4 then .ok map
  else
    let newCapacity ← if load / 4 < needed then growCapacity needed 32 map.capacity else .ok map.capacity
    objMapAdjustCapacity map newCapacity

def shrinkCapacity (count capacity : Nat) : Nat :=
  if h : 16 < capacity ∧ count ≤ capacity / 8 then shrinkCapacity count (capacity / 2) else capacity
termination_by capacity
decreasing_by omega

def objMapMaybeCompactAfterDelete : Except Fault (ObjMap V) :=
  if map.capacity < 16 then .ok map
  else if map.count = 0 then
    if 16 < map.capacity then objMapAdjustCapacity map 16
    else .ok { map with slots := List.replicate map.capacity none, used := 0 }
  else if 16 < map.capacity ∧ map.count ≤ map.capacity / 8 then
    let newCapacity := shrinkCapacity map.count map.capacity
    if newCapacity ≠ map.capacity then objMapAdjustCapacity map newCapacity else .ok map
  else .ok map

def maskedSub (mask a b : Nat) : Nat := (a + 4294967296 - b) % 4294967296 &&& mask

def backshiftLoop (mask : Nat) :
    Nat → List (Option (MapEntry V)) → Nat → Nat → Except Fault (List (Option (MapEntry V)) × Nat)
  | 0, _, _, _ => .error .endless
  | fuel + 1, slots, hole, scan =>
    match slot slots scan with
    | none => .ok (slots, hole)
    | some e =>
      let home := e.hash.toNat &&& mask
      if maskedSub mask hole home < maskedSub mask scan home then
        backshiftLoop mask fuel (slots.set hole (some e)) scan ((scan + 1) &&& mask)
      else backshiftLoop mask fuel slots hole ((scan + 1) &&& mask)

def objMapBackshiftDeleteAt (hole : Nat) : Except Fault (ObjMap V) := do
  let mask := map.capacity - 1
  let (slots, hole) ← backshiftLoop mask map.capacity map.slots hole ((hole + 1) &&& mask)
  .ok { map with slots := slots.set hole none, count := map.count - 1, used := map.used - 1 }

def valueEqualsKeyFast (a b : MapKey) : Bool :=
  match a, b with
  | .int m, .int n => m == n
  | .string cs, .string ds => cs.length == ds.length && cs == ds
  | _, _ => false

def mapSlotKeyEqualsStringObj (slotKey : MapKey) (key : ObjString) : Bool :=
  match slotKey with
  | .string chars => chars.length == key.chars.length && chars == key.chars
  | .int _ => false

def mapSlotKeyEqualsStringChars (slotKey : MapKey) (chars : List UInt8) : Bool :=
  match slotKey with
  | .string slotChars => slotChars.length == chars.length && slotChars == chars
  | .int _ => false

/-- The three ways to name a key: an integer value, a string object, or
characters with a length. Null pointers and other values name none. -/
inductive KeyPath where
  | int (n : Int64)
  | obj (key : ObjString)
  | chars (chars : List UInt8)

def KeyPath.hash : KeyPath → UInt32
  | .int n => intHash n ||| 2
  | .obj key => mapStringHashObj key ||| 2
  | .chars cs => mapStringHashChars cs ||| 2

def KeyPath.equals : KeyPath → MapKey → Bool
  | .int n => fun a => valueEqualsKeyFast a (.int n)
  | .obj key => fun a => mapSlotKeyEqualsStringObj a key
  | .chars cs => fun a => mapSlotKeyEqualsStringChars a cs

def KeyPath.stored : KeyPath → MapKey
  | .int n => .int n
  | .obj key => .string key.chars
  | .chars cs => .string (objStringCreate cs).chars

def KeyPath.ofValue : KeyValue → Option KeyPath
  | .int n => some (.int n)
  | .string key => key.map .obj
  | .other => none

def cstr (chars : List UInt8) : List UInt8 := chars.takeWhile (· ≠ 0)

def setAt (path : KeyPath) (value : V) : Except Fault (ObjMap V) := do
  let map ← objMapEnsureCapacity map 1
  let (idx, found) ← objMapFindSlot map path.hash path.equals
  if found then
    .ok { map with slots := map.slots.modify idx (Option.map fun e => { e with value := value }) }
  else
    .ok { map with
      slots := map.slots.set idx (some ⟨path.hash, path.stored, value⟩)
      used := map.used + 1
      count := map.count + 1 }

def lookupAt (path : KeyPath) : Except Fault (Option V) := do
  let (idx, found) ← objMapFindSlot map path.hash path.equals
  .ok (if found then (slot map.slots idx).map (·.value) else none)

def deleteAt (path : KeyPath) : Except Fault (ObjMap V) := do
  let (idx, found) ← objMapFindSlot map path.hash path.equals
  if found then
    let map ← objMapBackshiftDeleteAt map idx
    objMapMaybeCompactAfterDelete map
  else .ok map

def objMapKeys : List MapKey := map.slots.filterMap (·.map (·.key))

def objMapValues : List V := map.slots.filterMap (·.map (·.value))

/-- How a caller names a key: by value, by string object, by characters with
a length, or by terminated characters. `none` is a null pointer. -/
inductive KeyArg where
  | value (v : KeyValue)
  | string (key : Option ObjString)
  | cstrN (chars : Option (List UInt8))
  | cstr (chars : Option (List UInt8))

def KeyArg.path : KeyArg → Option KeyPath
  | .value v => KeyPath.ofValue v
  | .string key => key.map .obj
  | .cstrN chars => chars.map .chars
  | .cstr chars => (chars.map Vm.cstr).map .chars

/-- `obj_map_set`, `_set_string`, `_set_cstr_n` and `_set_cstr`. -/
def objMapSet (value : V) : Except Fault (ObjMap V) :=
  match key.path with
  | none => .ok map
  | some path => setAt map path value

/-- `obj_map_get` and its variants; nil when the key is absent or unusable. -/
def objMapGet (nil : V) (map : ObjMap V) (key : KeyArg) : Except Fault V :=
  match key.path with
  | none => .ok nil
  | some path => do
    let found ← lookupAt map path
    .ok (found.getD nil)

def objMapHas : Except Fault Bool :=
  match key.path with
  | none => .ok false
  | some path => do
    let found ← lookupAt map path
    .ok found.isSome

def objMapTryGetCstr (nil : V) (map : ObjMap V) (chars : Option (List UInt8)) :
    Except Fault (Bool × V) :=
  match (KeyArg.cstr chars).path with
  | none => .ok (false, nil)
  | some path => do
    let found ← lookupAt map path
    .ok (found.isSome, found.getD nil)

def objMapDelete : Except Fault (ObjMap V) :=
  match key.path with
  | none => .ok map
  | some path => deleteAt map path

end Operations

inductive MapOp (V : Type) where
  | set (key : KeyArg) (value : V)
  | get (key : KeyArg)
  | has (key : KeyArg)
  | tryGetCstr (chars : Option (List UInt8))
  | delete (key : KeyArg)
  | count
  | keys
  | values

inductive MapResult (V : Type) where
  | unit
  | value (v : V)
  | bool (b : Bool)
  | tryGet (found : Bool) (v : V)
  | count (n : Nat)
  | keys (ks : List MapKey)
  | values (vs : List V)

def step {V : Type} (nil : V) (map : ObjMap V) : MapOp V → Except Fault (ObjMap V × MapResult V)
  | .set key value => do
    let map ← objMapSet map key value
    .ok (map, .unit)
  | .get key => do
    let v ← objMapGet nil map key
    .ok (map, .value v)
  | .has key => do
    let b ← objMapHas map key
    .ok (map, .bool b)
  | .tryGetCstr chars => do
    let (found, v) ← objMapTryGetCstr nil map chars
    .ok (map, .tryGet found v)
  | .delete key => do
    let map ← objMapDelete map key
    .ok (map, .unit)
  | .count => .ok (map, .count map.count)
  | .keys => .ok (map, .keys (objMapKeys map))
  | .values => .ok (map, .values (objMapValues map))

end Tablo.Vm
