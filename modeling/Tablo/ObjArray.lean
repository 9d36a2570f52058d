import Tablo.CellBuffer

/-! The arrays of `vm.c`: a count, a capacity and a buffer of one of five kinds.
`none` as an answer is undefined behaviour. -/

namespace Tablo.ObjArray

open CellBuffer

/-- A double is its 64 bits; `object` is any value behind a pointer. -/
inductive Value (R : Type) where
  | nil
  | int (n : Int64)
  | bool (b : Bool)
  | double (bits : UInt64)
  | object (r : R)
  deriving DecidableEq, Repr

inductive ArrayKind where
  | boxed
  | int
  | double
  | bool
  | byte
  deriving DecidableEq, Repr

/-- The union of the five buffers, with the kind that says which one is there. -/
inductive Data (R : Type) where
  | elements (xs : List (Option (Value R)))
  | ints (xs : List (Option Int64))
  | doubles (xs : List (Option UInt64))
  | bools (xs : List (Option UInt8))
  | bytes (xs : List (Option UInt8))
  deriving DecidableEq, Repr

structure ObjArray (R : Type) where
  count : Nat
  capacity : Nat
  data : Data R
  deriving DecidableEq, Repr

variable {R : Type} (capacity : Int32) (arr : ObjArray R)

def intMax : Nat := 2147483647

def Data.create (capacity : Nat) : ArrayKind → Data R
  | .boxed => .elements (alloc capacity)
  | .int => .ints (alloc capacity)
  | .double => .doubles (alloc capacity)
  | .bool => .bools (alloc capacity)
  | .byte => .bytes (alloc capacity)

def initialCapacity : Nat := if 0 < capacity.toInt then capacity.toInt.toNat else 4

def objArrayCreateTyped (kind : ArrayKind) : ObjArray R :=
  ⟨0, initialCapacity capacity, .create (initialCapacity capacity) kind⟩

def objArrayCreate : ObjArray R := objArrayCreateTyped capacity .boxed

def boolValue (b : UInt8) : Value R := .bool (b != 0)

def byteInt (b : UInt8) : Int64 := b.toUInt64.toInt64

def byteValue (b : UInt8) : Value R := .int (byteInt b)

def objArrayConvertToBoxed : Option (ObjArray R) :=
  match arr.data with
  | .elements _ => some arr
  | .ints xs => do
    let elements ← convert .int xs (alloc arr.capacity) 0 arr.count
    some { arr with data := .elements elements }
  | .doubles xs => do
    let elements ← convert .double xs (alloc arr.capacity) 0 arr.count
    some { arr with data := .elements elements }
  | .bools xs => do
    let elements ← convert boolValue xs (alloc arr.capacity) 0 arr.count
    some { arr with data := .elements elements }
  | .bytes xs => do
    let elements ← convert byteValue xs (alloc arr.capacity) 0 arr.count
    some { arr with data := .elements elements }

def objArrayConvertByteToInt : Option (ObjArray R) :=
  match arr.data with
  | .bytes xs => do
    let ints ← convert byteInt xs (alloc arr.capacity) 0 arr.count
    some { arr with data := .ints ints }
  | .elements _ | .ints _ | .doubles _ | .bools _ => some arr

-- The union read at another kind than the one written has no defined value.
def Data.getElements : Data R → Option (List (Option (Value R)))
  | .elements xs => some xs
  | .ints _ | .doubles _ | .bools _ | .bytes _ => none

def Data.getInts : Data R → Option (List (Option Int64))
  | .ints xs => some xs
  | .elements _ | .doubles _ | .bools _ | .bytes _ => none

def storeBoxed (index : Nat) (val : Value R) : Option (ObjArray R) := do
  let arr ← objArrayConvertToBoxed arr
  let xs ← arr.data.getElements
  let xs ← store xs index val
  some { arr with data := .elements xs }

/-- The switch of `obj_array_push` (at `count`) and of `obj_array_set`. -/
def storeAt (index : Nat) (val : Value R) : Option (ObjArray R) :=
  match arr.data with
  | .elements xs => do
    let xs ← store xs index val
    some { arr with data := .elements xs }
  | .ints xs =>
    match val with
    | .int n => do
      let xs ← store xs index n
      some { arr with data := .ints xs }
    | val => storeBoxed arr index val
  | .doubles xs =>
    match val with
    | .double d => do
      let xs ← store xs index d
      some { arr with data := .doubles xs }
    | val => storeBoxed arr index val
  | .bools xs =>
    match val with
    | .bool b => do
      let xs ← store xs index (if b then 1 else 0)
      some { arr with data := .bools xs }
    | val => storeBoxed arr index val
  | .bytes xs =>
    match val with
    | .int n =>
      if n < 0 ∨ n > 255 then do
        let arr ← objArrayConvertByteToInt arr
        let ints ← arr.data.getInts
        let ints ← store ints index n
        some { arr with data := .ints ints }
      else do
        let xs ← store xs index n.toUInt64.toUInt8
        some { arr with data := .bytes xs }
    | val => storeBoxed arr index val

def Data.realloc (n : Nat) : Data R → Data R
  | .elements xs => .elements (CellBuffer.realloc xs n)
  | .ints xs => .ints (CellBuffer.realloc xs n)
  | .doubles xs => .doubles (CellBuffer.realloc xs n)
  | .bools xs => .bools (CellBuffer.realloc xs n)
  | .bytes xs => .bytes (CellBuffer.realloc xs n)

/-- The growth at the start of `obj_array_push`; the doubling is in `int`. -/
def grow : Option (ObjArray R) :=
  if arr.count ≥ arr.capacity then
    if arr.capacity * 2 ≤ intMax then
      some { arr with capacity := arr.capacity * 2, data := arr.data.realloc (arr.capacity * 2) }
    else none
  else some arr

def objArrayPush (val : Value R) : Option (ObjArray R) := do
  let arr ← grow arr
  let arr ← storeAt arr arr.count val
  some { arr with count := arr.count + 1 }

/-- The switch of `obj_array_pop` and `obj_array_get`. -/
def loadAt (index : Nat) : Option (Value R) :=
  match arr.data with
  | .elements xs => load xs index
  | .ints xs => do
    let n ← load xs index
    some (.int n)
  | .doubles xs => do
    let d ← load xs index
    some (.double d)
  | .bools xs => do
    let b ← load xs index
    some (boolValue b)
  | .bytes xs => do
    let b ← load xs index
    some (byteValue b)

def objArrayPop : Option (ObjArray R × Value R) :=
  if arr.count = 0 then some (arr, .nil)
  else do
    let arr := { arr with count := arr.count - 1 }
    let out ← loadAt arr arr.count
    some (arr, out)

def objArraySet (index : Int32) (val : Value R) : Option (ObjArray R) :=
  if index.toInt < 0 ∨ index.toInt ≥ arr.count then some arr else storeAt arr index.toInt.toNat val

def objArrayGet (index : Int32) : Option (Value R) :=
  if index.toInt < 0 ∨ index.toInt ≥ arr.count then some .nil else loadAt arr index.toInt.toNat

inductive Op (R : Type) where
  | push (val : Value R)
  | pop
  | set (index : Int32) (val : Value R)
  | get (index : Int32)
  | convertToBoxed
  | convertByteToInt

def step (arr : ObjArray R) : Op R → Option (ObjArray R × Option (Value R))
  | .push val => do
    let arr ← objArrayPush arr val
    some (arr, none)
  | .pop => do
    let (arr, out) ← objArrayPop arr
    some (arr, some out)
  | .set index val => do
    let arr ← objArraySet arr index val
    some (arr, none)
  | .get index => do
    let out ← objArrayGet arr index
    some (arr, some out)
  | .convertToBoxed => do
    let arr ← objArrayConvertToBoxed arr
    some (arr, none)
  | .convertByteToInt => do
    let arr ← objArrayConvertByteToInt arr
    some (arr, none)

end Tablo.ObjArray
