import Tablo.Bigint
import Tablo.GlobalsTable
import Tablo.SingleStore

/-! The globals of `vm.c`. A global lives twice: in a numbered slot, and in an
entry of a hash table by name. The API writes by name, the opcodes by name, by
cached slot or, once rewritten, by slot, and the debugger by slot. -/

namespace Tablo.Globals

open Bigint SingleStore

abbrev Name := List UInt8

/-- A value is one word. Bigints point to counted objects, of which one is
changed in place; the global opcodes look at no other object. -/
inductive Value (α : Type) where
  | nil
  | int (n : Int64)
  | bigint (obj : Nat)
  | other (x : α)
  deriving DecidableEq

/-- A bigint object; at count zero it has been given back to the allocator. -/
structure BigintObject where
  refCount : Nat
  big : ObjBigInt

inductive Datum (α : Type) where
  | nil
  | int (n : Int64)
  | bigint (big : ObjBigInt)
  | other (x : α)
  deriving DecidableEq

abbrev History (α : Type) := List (Access Name (Option (Datum α)))

structure Constant where
  typeIndex : Nat
  asString : Option Name
  deriving DecidableEq

inductive BaseOp where
  | add
  | sub
  | mul
  | div
  deriving DecidableEq

/-- The instructions that touch globals. The `Slot` forms are only written by
the interpreter, over the others. -/
inductive Instr where
  | loadGlobal (nameIdx : Nat)
  | loadGlobal16 (nameIdx : Nat)
  | loadGlobalSlot (slot : Nat)
  | storeGlobal (nameIdx : Nat)
  | storeGlobal16 (nameIdx : Nat)
  | storeGlobalSlot (slot : Nat)
  | arith (op : BaseOp) (dst a b : Nat)
  | arithSlot (op : BaseOp) (dst a b : Nat)
  | callGlobal (nameIdx argCount : Nat)
  | callGlobalSlot (slot argCount : Nat)
  | jumpIfLocalGlobal (eq : Bool) (a nameIdx : Nat)
  | jumpIfLocalGlobalSlot (eq : Bool) (a slot : Nat)
  | other
  deriving DecidableEq

structure Function where
  constants : List Constant
  code : List Instr
  globalSlotCache : List (Option Nat)

structure GlobalSlot (α : Type) where
  name : Name
  value : Value α
  entry : Option Nat
  deriving DecidableEq

/-- `held` are the references that locals, containers and the host hold. -/
structure VM (α : Type) where
  globals : List (GlobalSlot α)
  globalsHash : HashTable (Value α)
  heap : List BigintObject
  stack : List (Value α)
  maxStackSize : Nat
  held : List (Value α)
  functions : List Function

/-- A machine, what was read and written on the way there, and the message of
a runtime error. -/
structure Effect (α : Type) where
  vm : VM α
  history : History α
  error : Option String

variable {α : Type}

def valueRetain (heap : List BigintObject) : Value α → List BigintObject
  | .bigint a => heap.modify a fun o => { o with refCount := o.refCount + 1 }
  | _ => heap

def valueFree (heap : List BigintObject) : Value α → List BigintObject
  | .bigint a => heap.modify a fun o => { o with refCount := o.refCount - 1 }
  | _ => heap

def readValue (heap : List BigintObject) : Value α → Option (Datum α)
  | .nil => some .nil
  | .int n => some (.int n)
  | .other x => some (.other x)
  | .bigint a =>
    match heap[a]? with
    | some o => if o.refCount = 0 then none else some (.bigint o.big)
    | none => none

def allocate (heap : List BigintObject) : Datum α → List BigintObject × Value α
  | .nil => (heap, .nil)
  | .int n => (heap, .int n)
  | .other x => (heap, .other x)
  | .bigint big => (heap ++ [⟨1, big⟩], .bigint heap.length)

def bigintMulAddSmallInplace (limbs : List Nat) (m add : Nat) : List Nat :=
  if limbs = [] then (if add = 0 then [] else [add])
  else
    let r := mulSmallLoop m limbs add
    trimmed (if r.2 ≠ 0 then r.1 ++ [r.2 % limbBase] else r.1)

def objBigintMulSmallInplace (a : ObjBigInt) (m : Nat) : ObjBigInt :=
  if a.sign = 0 ∨ a.limbs = [] then a
  else if m = 0 then ⟨0, []⟩
  else if m = 1 then a
  else
    let limbs := bigintMulAddSmallInplace a.limbs m 0
    ⟨if limbs = [] then 0 else a.sign, limbs⟩

def smallMultiplier : Option (Datum α) → Option (Int × Nat)
  | some (.bigint m) =>
    if m.sign = 0 ∨ m.limbs = [] then some (0, 0)
    else if m.limbs.length = 1 then some (m.sign, m.limbs.getD 0 0)
    else none
  | some (.int n) =>
    if n.toInt.natAbs < limbBase then
      some (if n.toInt.natAbs = 0 then 0 else if n.toInt < 0 then -1 else 1, n.toInt.natAbs)
    else none
  | _ => none

def mulInplace (dst : ObjBigInt) (multSign : Int) (multU32 : Nat) : ObjBigInt :=
  if multSign = 0 ∨ multU32 = 0 then ⟨0, []⟩
  else
    let x := objBigintMulSmallInplace dst multU32
    if multSign < 0 ∧ x.sign ≠ 0 then { x with sign := -x.sign } else x

def push (vm : VM α) (v : Value α) : VM α × Option String :=
  if vm.maxStackSize ≤ vm.stack.length then (vm, some "Stack overflow")
  else ({ vm with stack := v :: vm.stack }, none)

def pop (vm : VM α) : VM α × Value α × Option String :=
  match vm.stack with
  | [] => (vm, .nil, some "Stack underflow")
  | v :: stack => ({ vm with stack }, v, none)

def pushRetained (vm : VM α) (v : Value α) : VM α × Option String :=
  push { vm with heap := valueRetain vm.heap v } v

section Names

variable (vm : VM α) (name : Name) (f nameIdx : Nat)

def writeSlot (slot : Nat) (v : Value α) : VM α :=
  { vm with globals := vm.globals.modify slot fun s => { s with value := v } }

def linkSlot (slot : Nat) (entry : Option Nat) : VM α :=
  { vm with globals := vm.globals.modify slot fun s => { s with entry } }

def entryValue (p : Nat) : Value α := (vm.globalsHash.pool[p]?.map HashEntry.value).getD .nil

def assignEntry (p : Nat) (v : Value α) : VM α :=
  { vm with heap := valueFree vm.heap (entryValue vm p), globalsHash := vm.globalsHash.setValue p v }

def insertEntry (slot : Nat) (v : Value α) : VM α :=
  let heap := match vm.globalsHash.getEntry name with
    | some p => valueFree vm.heap (entryValue vm p)
    | none => vm.heap
  let vm := { vm with heap, globalsHash := vm.globalsHash.set name v }
  match vm.globalsHash.getEntry name with
  | some p => linkSlot { vm with globalsHash := vm.globalsHash.setGlobalSlot p slot } slot (some p)
  | none => linkSlot vm slot none

def hashedSlot (entry : Option Nat) (name : Name) : Option Nat := do
  let e ← vm.globalsHash.pool[← entry]?
  let slot ← e.globalSlot
  if (← vm.globals[slot]?).name = name then some slot else none

def vmFindGlobalSlot : Option Nat :=
  vm.globals.findIdx? fun s => s.name == name

def vmSetGlobal (v : Value α) : VM α :=
  let hashed := vm.globalsHash.getEntry name
  match hashed, hashedSlot vm hashed name with
  | some p, some slot => linkSlot (assignEntry (writeSlot vm slot v) p v) slot (some p)
  | _, _ =>
    match vmFindGlobalSlot vm name with
    | some i =>
      let linked := do
        let p ← (← vm.globals[i]?).entry
        if (← vm.globalsHash.pool[p]?).key = name then some p else none
      match linked <|> hashed with
      | some p =>
        let vm := writeSlot vm i v
        linkSlot (assignEntry { vm with globalsHash := vm.globalsHash.setGlobalSlot p i } p v) i (some p)
      | none => insertEntry (writeSlot vm i v) name i v
    | none => insertEntry { vm with globals := vm.globals ++ [⟨name, v, none⟩] } name vm.globals.length v

def vmGetGlobal : Value α :=
  match vm.globalsHash.getEntry name with
  | some p => entryValue vm p
  | none => .nil

def updateFunction (f : Nat) (change : Function → Function) : VM α :=
  { vm with functions := vm.functions.modify f change }

def cacheOf (func : Function) : List (Option Nat) :=
  if func.globalSlotCache.length = func.constants.length then func.globalSlotCache
  else List.replicate func.constants.length none

def lookupSlot : VM α × Option Nat :=
  let entry := vm.globalsHash.getEntry name
  match hashedSlot vm entry name, vmFindGlobalSlot vm name, entry with
  | some slot, _, _ => (vm, some slot)
  | none, some slot, some p => ({ vm with globalsHash := vm.globalsHash.setGlobalSlot p slot }, some slot)
  | none, slot, _ => (vm, slot)

def cacheSlot (f nameIdx slot : Nat) : VM α :=
  updateFunction vm f fun func =>
    { func with globalSlotCache := func.globalSlotCache.set nameIdx (some slot) }

def vmResolveGlobalSlotCached : VM α × Option Nat :=
  match vm.functions[f]? with
  | none => (vm, none)
  | some func =>
    if func.constants.length ≤ nameIdx then (vm, none)
    else
      let vm := updateFunction vm f fun func => { func with globalSlotCache := cacheOf func }
      match ((cacheOf func).getD nameIdx none).filter (· < vm.globals.length) with
      | some slot => (vm, some slot)
      | none =>
        match func.constants[nameIdx]? with
        | some ⟨2, some name⟩ =>
          match lookupSlot vm name with
          | (vm, none) => (vm, none)
          | (vm, some slot) => (cacheSlot vm f nameIdx slot, some slot)
        | _ => (vm, none)

def constantAt : Option Constant := do (← vm.functions[f]?).constants[nameIdx]?

def vmGetGlobalNameConstant : Except String Name :=
  match constantAt vm f nameIdx with
  | none => .error "Global name constant index out of bounds"
  | some ⟨2, some name⟩ => .ok name
  | some _ => .error "Global name constant must be string"

end Names

section Instructions

variable (vm : VM α) (slot : Nat)

def setCode (f pc : Nat) (instr : Instr) : VM α :=
  updateFunction vm f fun func => { func with code := func.code.set pc instr }

def quicken (f pc : Nat) (instr : Nat → Instr) : Option Nat → VM α
  | some slot => if slot ≤ 0xff then setCode vm f pc (instr slot) else vm
  | none => vm

def slotAt (slot : Option Nat) : Option (GlobalSlot α) := do vm.globals[← slot]?

def readResolved (f nameIdx : Nat) (slot : Option Nat) : Except String (Name × Value α) :=
  match slotAt vm slot with
  | some s => .ok (s.name, s.value)
  | none => do
    let name ← vmGetGlobalNameConstant vm f nameIdx
    .ok (name, vmGetGlobal vm name)

def pushRead (name : Name) (v : Value α) : Effect α :=
  let (vm', error) := pushRetained vm v
  ⟨vm', [.read name (readValue vm.heap v)], error⟩

/-- `OP_LOAD_GLOBAL` and `OP_LOAD_GLOBAL16`, which differ in what they rewrite. -/
def loadByName (rewrite : VM α → Option Nat → VM α) (vm : VM α) (f nameIdx : Nat) : Effect α :=
  let (vm, slot) := vmResolveGlobalSlotCached vm f nameIdx
  let vm := rewrite vm slot
  match readResolved vm f nameIdx slot with
  | .error message => ⟨vm, [], some message⟩
  | .ok (name, v) => pushRead vm name v

def loadGlobalSlot : Effect α :=
  match vm.globals[slot]? with
  | none => ⟨vm, [], some "Global slot out of bounds"⟩
  | some s => pushRead vm s.name s.value

def callGlobal (f pc nameIdx argCount : Nat) : Effect α :=
  if vm.stack.length < argCount then ⟨vm, [], some "Stack underflow in call"⟩
  else
    let (vm, slot) := vmResolveGlobalSlotCached vm f nameIdx
    let vm := quicken vm f pc (fun slot => .callGlobalSlot slot argCount) slot
    match readResolved vm f nameIdx slot with
    | .error message => ⟨vm, [], some message⟩
    | .ok (name, v) => ⟨vm, [.read name (readValue vm.heap v)], none⟩

def callGlobalSlot (slot argCount : Nat) : Effect α :=
  if vm.stack.length < argCount then ⟨vm, [], some "Stack underflow in call"⟩
  else
    match vm.globals[slot]? with
    | none => ⟨vm, [], some "Global slot out of bounds"⟩
    | some s => ⟨vm, [.read s.name (readValue vm.heap s.value)], none⟩

/-- The right-hand side of a compare and jump. A name that does not resolve is
looked up whatever constant it comes from. -/
def jumpIfLocalGlobal (f pc : Nat) (eq : Bool) (a nameIdx : Nat) : Effect α :=
  let (vm, slot) := vmResolveGlobalSlotCached vm f nameIdx
  match slotAt vm slot, constantAt vm f nameIdx with
  | some s, _ =>
    ⟨quicken vm f pc (.jumpIfLocalGlobalSlot eq a) slot, [.read s.name (readValue vm.heap s.value)], none⟩
  | none, some ⟨_, some name⟩ => ⟨vm, [.read name (readValue vm.heap (vmGetGlobal vm name))], none⟩
  | none, _ => ⟨vm, [], none⟩

def jumpIfLocalGlobalSlot : Effect α :=
  match vm.globals[slot]? with
  | none => ⟨vm, [], some "Global slot out of bounds"⟩
  | some s => ⟨vm, [.read s.name (readValue vm.heap s.value)], none⟩

def storeResolved (s : GlobalSlot α) (name : Name) (v : Value α) : VM α :=
  match s.entry <|> vm.globalsHash.getEntry name with
  | some p => assignEntry (linkSlot (writeSlot vm slot v) slot (some p)) p v
  | none => insertEntry (writeSlot vm slot v) name slot v

/-- `OP_STORE_GLOBAL` and `OP_STORE_GLOBAL16`. -/
def storeByName (rewrite : VM α → Option Nat → VM α) (vm : VM α) (f nameIdx : Nat) : Effect α :=
  let (vm, v, error) := pop vm
  match vmGetGlobalNameConstant vm f nameIdx with
  | .error message => ⟨{ vm with heap := valueFree vm.heap v }, [], some message⟩
  | .ok name =>
    let (vm, slot) := vmResolveGlobalSlotCached vm f nameIdx
    let vm := rewrite vm slot
    let vm := match slot, slotAt vm slot with
      | some i, some s => storeResolved vm i s name v
      | _, _ => vmSetGlobal vm name v
    ⟨vm, [.write name (readValue vm.heap v)], error⟩

def storeSlot (s : GlobalSlot α) (v : Value α) : VM α :=
  match s.entry with
  | some p => assignEntry (writeSlot vm slot v) p v
  | none => insertEntry (writeSlot vm slot v) s.name slot v

/-- A load of the same slot right behind a store is done by the store. -/
def storeGlobalSlot (f pc slot : Nat) : Effect α :=
  let (vm, v, error) := pop vm
  match vm.globals[slot]? with
  | none => ⟨{ vm with heap := valueFree vm.heap v }, [], some "Global slot out of bounds"⟩
  | some s =>
    let vm := storeSlot vm slot s v
    let written := Access.write s.name (readValue vm.heap v)
    if (vm.functions[f]?.bind fun func => func.code[pc + 1]?) = some (.loadGlobalSlot slot) then
      let effect := pushRead vm s.name v
      ⟨effect.vm, written :: effect.history, effect.error <|> error⟩
    else ⟨vm, [written], error⟩

def vmSetGlobalSlotValue (v : Value α) : Effect α :=
  match vm.globals[slot]? with
  | none => ⟨{ vm with heap := valueFree vm.heap v }, [], some "Global slot out of bounds"⟩
  | some s =>
    let vm := storeSlot vm slot s v
    ⟨vm, [.write s.name (readValue vm.heap v)], none⟩

/-- The arithmetic of the interpreter, which only looks at what its operands
say and makes a new object for a bigint. -/
abbrev Compute (α : Type) := BaseOp → Option (Datum α) → Option (Datum α) → Except String (Datum α)

variable (compute : Compute α)

variable (vm : VM α)

def readBoth (a b : Name × Value α) : History α :=
  [.read a.1 (readValue vm.heap a.2), .read b.1 (readValue vm.heap b.2)]

variable (op : BaseOp)

def arithInto (dst : Nat) (a b : GlobalSlot α) : Effect α :=
  let reads := readBoth vm (a.name, a.value) (b.name, b.value)
  match compute op (readValue vm.heap a.value) (readValue vm.heap b.value) with
  | .error message => ⟨vm, reads, some message⟩
  | .ok d =>
    let (heap, v) := allocate vm.heap d
    let effect := vmSetGlobalSlotValue { vm with heap } dst v
    ⟨effect.vm, reads ++ effect.history, effect.error⟩

def arithByName (dst a b : Option Constant) : Effect α :=
  match dst, a, b with
  | some ⟨_, some dst⟩, some ⟨_, some a⟩, some ⟨_, some b⟩ =>
    let reads := readBoth vm (a, vmGetGlobal vm a) (b, vmGetGlobal vm b)
    match compute op (readValue vm.heap (vmGetGlobal vm a)) (readValue vm.heap (vmGetGlobal vm b)) with
    | .error message => ⟨vm, reads, some message⟩
    | .ok d =>
      let (heap, v) := allocate vm.heap d
      let vm := vmSetGlobal { vm with heap } dst v
      ⟨vm, reads ++ [.write dst (readValue vm.heap v)], none⟩
  | some _, some _, some _ => ⟨vm, [], some "Invalid global name constant"⟩
  | _, _, _ => ⟨vm, [], some "Constant index out of bounds"⟩

def byteSlots (dst a b : Option Nat) : Option (Nat × Nat × Nat) := do
  let dst ← dst
  let a ← a
  let b ← b
  if dst ≤ 0xff ∧ a ≤ 0xff ∧ b ≤ 0xff then some (dst, a, b) else none

def arith (f pc : Nat) (op : BaseOp) (dst a b : Nat) : Effect α :=
  let (vm, dstSlot) := vmResolveGlobalSlotCached vm f dst
  let (vm, aSlot) := vmResolveGlobalSlotCached vm f a
  let (vm, bSlot) := vmResolveGlobalSlotCached vm f b
  match byteSlots dstSlot aSlot bSlot, slotAt vm dstSlot, slotAt vm aSlot, slotAt vm bSlot with
  | some (i, j, k), some _, some a, some b =>
    arithInto compute (setCode vm f pc (.arithSlot op i j k)) op i a b
  | _, _, _, _ => arithByName compute vm op (constantAt vm f dst) (constantAt vm f a) (constantAt vm f b)

/-- The object of a destination that may be multiplied in place: nothing else
refers to it, and the multiplier has one limb. -/
def inplace (dst a : Nat) (x y : GlobalSlot α) :
    Option (Nat × ObjBigInt × Int × Nat) :=
  match x.value with
  | .bigint obj => do
    let o ← vm.heap[obj]?
    let (sign, m) ← smallMultiplier (readValue vm.heap y.value)
    if op = .mul ∧ dst = a ∧ o.refCount = 1 then some (obj, o.big, sign, m) else none
  | _ => none

def arithSlot (dst a b : Nat) : Effect α :=
  match vm.globals[dst]?, vm.globals[a]?, vm.globals[b]? with
  | some d, some x, some y =>
    match inplace vm op dst a x y with
    | some (obj, big, sign, m) =>
      let product := mulInplace big sign m
      ⟨{ vm with heap := vm.heap.modify obj fun o => { o with big := product } },
        readBoth vm (x.name, x.value) (y.name, y.value) ++ [.write d.name (some (.bigint product))], none⟩
    | none => arithInto compute vm op dst x y
  | _, _, _ => ⟨vm, [], some "Global slot out of bounds"⟩

def exec (f pc : Nat) : Effect α :=
  match vm.functions[f]?.bind fun func => func.code[pc]? with
  | some (.loadGlobal nameIdx) => loadByName (fun vm => quicken vm f pc .loadGlobalSlot) vm f nameIdx
  | some (.loadGlobal16 nameIdx) => loadByName (fun vm _ => vm) vm f nameIdx
  | some (.loadGlobalSlot slot) => loadGlobalSlot vm slot
  | some (.storeGlobal nameIdx) => storeByName (fun vm => quicken vm f pc .storeGlobalSlot) vm f nameIdx
  | some (.storeGlobal16 nameIdx) => storeByName (fun vm _ => vm) vm f nameIdx
  | some (.storeGlobalSlot slot) => storeGlobalSlot vm f pc slot
  | some (.arith op dst a b) => arith compute vm f pc op dst a b
  | some (.arithSlot op dst a b) => arithSlot compute vm op dst a b
  | some (.callGlobal nameIdx argCount) => callGlobal vm f pc nameIdx argCount
  | some (.callGlobalSlot slot argCount) => callGlobalSlot vm slot argCount
  | some (.jumpIfLocalGlobal eq a nameIdx) => jumpIfLocalGlobal vm f pc eq a nameIdx
  | some (.jumpIfLocalGlobalSlot _ _ slot) => jumpIfLocalGlobalSlot vm slot
  | some .other => ⟨vm, [], none⟩
  | none => ⟨vm, [], none⟩

end Instructions

def vmDebugSetGlobal (vm : VM α) (i : Nat) (s : GlobalSlot α) (v : Value α) : VM α :=
  writeSlot { vm with heap := valueFree (valueRetain vm.heap v) s.value } i v

/-- What can happen to a machine: other instructions and the host make, drop
and share values, the host sets and gets globals by name, the debugger by
number, and an instruction of some function is executed. -/
inductive Event (α : Type) where
  | push (d : Datum α)
  | drop
  | hold
  | fetch (i : Nat)
  | release (i : Nat)
  | setGlobal (name : Name)
  | getGlobal (name : Name)
  | debugGet (i : Nat)
  | debugSet (i : Nat)
  | exec (f pc : Nat)

variable (compute : Compute α)

def step (vm : VM α) : Event α → Effect α
  | .push d =>
    let (heap, v) := allocate vm.heap d
    let (vm, error) := push { vm with heap } v
    ⟨vm, [], error⟩
  | .drop =>
    let (vm, v, error) := pop vm
    ⟨{ vm with heap := valueFree vm.heap v }, [], error⟩
  | .hold =>
    match vm.stack with
    | [] => ⟨vm, [], none⟩
    | v :: _ => ⟨{ vm with heap := valueRetain vm.heap v, held := v :: vm.held }, [], none⟩
  | .fetch i =>
    match vm.held[i]? with
    | none => ⟨vm, [], none⟩
    | some v =>
      let (vm, error) := pushRetained vm v
      ⟨vm, [], error⟩
  | .release i =>
    match vm.held[i]? with
    | none => ⟨vm, [], none⟩
    | some v => ⟨{ vm with heap := valueFree vm.heap v, held := vm.held.eraseIdx i }, [], none⟩
  | .setGlobal name =>
    let (vm, v, error) := pop vm
    let vm := vmSetGlobal vm name v
    ⟨vm, [.write name (readValue vm.heap v)], error⟩
  | .getGlobal name => ⟨vm, [.read name (readValue vm.heap (vmGetGlobal vm name))], none⟩
  | .debugGet i =>
    match vm.globals[i]? with
    | none => ⟨vm, [], none⟩
    | some s => ⟨vm, [.read s.name (readValue vm.heap s.value)], none⟩
  | .debugSet i =>
    match vm.globals[i]?, vm.stack.head? with
    | some s, some v =>
      let vm := vmDebugSetGlobal vm i s v
      ⟨vm, [.write s.name (readValue vm.heap v)], none⟩
    | _, _ => ⟨vm, [], none⟩
  | .exec f pc => exec compute vm f pc

def run (vm : VM α) : List (Event α) → VM α × History α
  | [] => (vm, [])
  | e :: events =>
    let r := step compute vm e
    let rest := run r.vm events
    (rest.1, r.history ++ rest.2)

def start (functions : List Function) (maxStackSize : Nat) : VM α :=
  ⟨[], .init, [], [], maxStackSize, [], functions.map fun func => { func with globalSlotCache := [] }⟩

end Tablo.Globals
