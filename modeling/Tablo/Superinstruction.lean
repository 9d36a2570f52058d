import Mathlib.Data.Int.Basic
import Tablo.Addressing
import Tablo.Stepping

/-! The superinstruction pass over a chunk, and the machine that runs chunks. The pass looks at
adjacent instructions only; every replacement has the length of what it replaces, so that the
jump operands stay as they are. -/

namespace Tablo.Super

/-- The typed operators, from `OP_ADD_INT` to `OP_DIV_DOUBLE`. -/
inductive NumOp where
  | addInt | subInt | mulInt | divInt | modInt | bitAndInt | bitOrInt | bitXorInt
  | addDouble | subDouble | mulDouble | divDouble
  deriving DecidableEq, Repr

/-- `OP_ADD`, `OP_SUB`, `OP_MUL` and `OP_DIV`, which take values of any type. -/
inductive ArithOp where
  | add | sub | mul | div
  deriving DecidableEq, Repr

inductive ElemKind where
  | int | double
  deriving DecidableEq, Repr

/-- How the index of an array access is given: `OP_ARRAY_GET_LOCAL_CONST_..` or
`OP_ARRAY_GET_LOCAL_LOCAL_..`. -/
inductive Index where
  | const (i : Nat)
  | local (slot : Nat)
  deriving DecidableEq, Repr

/-- The instructions of the patterns, the superinstructions, and `other` for the opcodes that no
pattern looks for. Constants and global names are indices into the constant pool. -/
inductive Instr (O : Type) where
  | pop
  | const (index : Nat)
  | loadLocal (slot : Nat)
  | storeLocal (slot : Nat)
  | loadGlobal (name : Nat)
  | storeGlobal (name : Nat)
  | jumpIfFalse (offset : Int)
  | num (op : NumOp)
  | arith (op : ArithOp)
  | addLocalConst (slot index : Nat)
  | sqrt
  | arrayLen
  | arrayGet (kind : ElemKind) (array : Nat) (index : Index)
  | evalARecip (a b : Nat)
  | madd (acc array index : Nat)
  | jumpIfFalsePop (offset : Int)
  | globalToGlobal (op : ArithOp) (dst a b : Nat)
  | arrayGetToLocal (kind : ElemKind) (array : Nat) (index : Index) (dst : Nat)
  | mulToLocal (kind : ElemKind) (dst a b : Nat)
  | evalAMadd (acc array index a b : Nat)
  | add2LocalConst (a c1 b c2 : Nat)
  | locals (op : NumOp) (a b : Nat)
  | localConst (op : NumOp) (a index : Nat)
  | sqrtLocal (slot : Nat)
  | arrayLenLocal (slot : Nat)
  | stackLocal (op : NumOp) (slot : Nat)
  | stackConst (op : NumOp) (index : Nat)
  | other (o : O)
  deriving DecidableEq, Repr

variable {O D R W X : Type}

/-- What the pass and the jumps need to know of the other opcodes: their length and their jump
operands, which count from the end of the instruction. -/
structure Layout (O : Type) where
  len : O → Nat
  len_pos : ∀ o, 0 < len o
  jumps : O → List Int

def peepholeInstructionLen (L : Layout O) : Instr O → Nat
  | .pop | .num _ | .arith _ | .sqrt | .arrayLen => 1
  | .const _ | .loadLocal _ | .storeLocal _ | .loadGlobal _ | .storeGlobal _ => 2
  | .jumpIfFalse _ | .addLocalConst _ _ | .arrayGet _ _ _ | .evalARecip _ _ => 3
  | .sqrtLocal _ | .arrayLenLocal _ | .stackLocal _ _ | .stackConst _ _ => 3
  | .madd _ _ _ | .jumpIfFalsePop _ => 4
  | .locals _ _ _ | .localConst _ _ _ | .arrayGetToLocal _ _ _ _ => 5
  | .add2LocalConst _ _ _ _ => 6
  | .globalToGlobal _ _ _ _ | .mulToLocal _ _ _ _ | .evalAMadd _ _ _ _ _ => 7
  | .other o => L.len o

def NumOp.commutes : NumOp → Bool
  | .addInt | .mulInt | .bitAndInt | .bitOrInt | .bitXorInt | .addDouble | .mulDouble => true
  | _ => false

def NumOp.mulKind? : NumOp → Option ElemKind
  | .mulInt => some .int
  | .mulDouble => some .double
  | _ => none

/-- The patterns at the start of the code: the replacement, and how many instructions after the
first one it swallows. -/
def fuse : List (Instr O) → Option (Instr O × Nat)
  -- pattern J
  | .jumpIfFalse off :: .pop :: _ => some (.jumpIfFalsePop off, 1)
  -- global binary operators
  | .loadGlobal a :: .loadGlobal b :: .arith op :: .storeGlobal dst :: _ =>
    some (.globalToGlobal op dst a b, 3)
  -- pattern K
  | .arrayGet kind array index :: .storeLocal dst :: _ =>
    some (.arrayGetToLocal kind array index dst, 1)
  -- pattern M
  | .locals op a b :: .storeLocal dst :: _ => op.mulKind?.map fun kind => (.mulToLocal kind dst a b, 1)
  | .evalARecip a b :: .madd acc array index :: _ => some (.evalAMadd acc array index a b, 1)
  -- pattern L
  | .addLocalConst a c1 :: .addLocalConst b c2 :: _ => some (.add2LocalConst a c1 b c2, 1)
  -- patterns A, A2, B, C and D
  | .loadLocal a :: .loadLocal b :: .num op :: _ => some (.locals op a b, 2)
  | .loadLocal a :: .const c :: .num op :: _ => some (.localConst op a c, 2)
  | .loadLocal x :: .sqrt :: _ => some (.sqrtLocal x, 1)
  | .loadLocal array :: .arrayLen :: _ => some (.arrayLenLocal array, 1)
  | .loadLocal b :: .num op :: _ => some (.stackLocal op b, 1)
  -- patterns E and N
  | .const c :: .num op :: _ => some (.stackConst op c, 1)
  | .const c :: .stackLocal op b :: _ => if op.commutes then some (.localConst op b c, 1) else none
  | _ => none

/-- One iteration over the code; `skip` instructions are part of the last replacement. -/
def fusePass : Nat → List (Instr O) → List (Instr O)
  | _, [] => []
  | skip + 1, _ :: code => fusePass skip code
  | 0, i :: code =>
    match fuse (i :: code) with
    | some (j, n) => j :: fusePass n code
    | none => i :: fusePass 0 code

/-- An iteration that changes anything leaves fewer instructions. -/
def fuseLoop : Nat → List (Instr O) → List (Instr O)
  | 0, code => code
  | n + 1, code =>
    let code' := fusePass 0 code
    if code'.length = code.length then code' else fuseLoop n code'

def superinstructionOptimize (L : Layout O) (code : List (Instr O)) : List (Instr O) :=
  if Addressing.extent (peepholeInstructionLen L) code < 3 then code else fuseLoop 3 code

section Machine

inductive Value (D R : Type) where
  | nil
  | bool (b : Bool)
  | int (i : Int64)
  | double (d : D)
  | array (r : R)
  | other (r : R)
  deriving DecidableEq, Repr

/-- What a running function can read and write, apart from its position. -/
structure Data (D R W : Type) where
  stack : List (Value D R)
  locals : Nat → Value D R
  globals : String → Value D R
  world : W

inductive Outcome (D R W X : Type) where
  | next (d : Data D R W)
  | jump (k : Nat) (d : Data D R W)
  | stop (x : X)

/-- The parts of the machine that the pass does not depend on: the arithmetic of doubles and of
the untyped operators, the arrays, and the opcodes that no pattern looks for. -/
structure Machine (O D R W X : Type) extends Layout O where
  addDouble : D → D → D
  subDouble : D → D → D
  mulDouble : D → D → D
  divDouble : D → D → D
  isZero : D → Bool
  sqrt : Value D R → D
  recip : Int64 → D
  arith : ArithOp → Value D R → Value D R → Except String (Value D R)
  length : W → Value D R → Int64
  count : W → R → Int64
  intElement : W → R → Int64 → Option Int64
  doubleElement : W → R → Int64 → Option D
  exec : O → Data D R W → Outcome D R W X
  addDouble_comm : ∀ x y, addDouble x y = addDouble y x
  mulDouble_comm : ∀ x y, mulDouble x y = mulDouble y x

structure Pool (D R : Type) where
  values : List (Value D R)
  names : Nat → String

structure State (D R W : Type) where
  pc : Nat
  data : Data D R W

inductive Result (D R W X : Type) where
  | error (message : String) (globals : String → Value D R) (world : W)
  | stopped (x : X)
  | badAddress

variable (M : Machine O D R W X) (P : Pool D R) (d : Data D R W)

def applyInt (op : NumOp) (x y : Int64) : Except String (Value D R) :=
  match op with
  | .addInt => .ok (.int (x + y))
  | .subInt => .ok (.int (x - y))
  | .mulInt => .ok (.int (x * y))
  | .divInt => if y = 0 then .error "Division by zero" else .ok (.int (x / y))
  | .modInt => if y = 0 then .error "Modulo by zero" else .ok (.int (x % y))
  | .bitAndInt => .ok (.int (x &&& y))
  | .bitOrInt => .ok (.int (x ||| y))
  | .bitXorInt => .ok (.int (x ^^^ y))
  | _ => .error "Operands must be double"

def applyDouble (op : NumOp) (x y : D) : Except String (Value D R) :=
  match op with
  | .addDouble => .ok (.double (M.addDouble x y))
  | .subDouble => .ok (.double (M.subDouble x y))
  | .mulDouble => .ok (.double (M.mulDouble x y))
  | .divDouble => if M.isZero y then .error "Division by zero" else .ok (.double (M.divDouble x y))
  | _ => .error "Operands must be integer"

def NumOp.isDouble : NumOp → Bool
  | .addDouble | .subDouble | .mulDouble | .divDouble => true
  | _ => false

def applyNum (op : NumOp) : Value D R → Value D R → Except String (Value D R)
  | .int x, .int y => applyInt op x y
  | .double x, .double y => applyDouble M op x y
  | _, _ => .error (if op.isDouble then "Operands must be double" else "Operands must be integer")

def addConst : Value D R → Value D R → Except String (Value D R)
  | .int x, .int c => .ok (.int (x + c))
  | .double x, .double c => .ok (.double (M.addDouble x c))
  | _, _ => .error "Operands must be numbers"

def elementAt (M : Machine O D R W X) {α : Type} (message : String) (element : Option α) (w : W)
    (r : R) (i : Int64) : Except String α :=
  if i < 0 ∨ M.count w r ≤ i then .error "Array index out of bounds"
  else element.elim (.error message) .ok

def doubleAt (w : W) (r : R) (i : Int64) : Except String D :=
  elementAt M "Array element must be double" (M.doubleElement w r i) w r i

def arrayElement (w : W) (r : R) (i : Int64) : ElemKind → Except String (Value D R)
  | .int => (elementAt M "Array element must be integer" (M.intElement w r i) w r i).map .int
  | .double => (doubleAt M w r i).map .double

def asIndex : Value D R → Except String Int64
  | .int i => .ok i
  | _ => .error "Array index must be integer"

def asArray : Value D R → Except String R
  | .array r => .ok r
  | _ => .error "Cannot index non-array"

def asDouble (message : String) : Value D R → Except String D
  | .double x => .ok x
  | _ => .error message

def indexValue : Index → Except String Int64
  | .const i => .ok (Int64.ofNat i)
  | .local slot => asIndex (d.locals slot)

def evalADenom (i j : Int64) : Int64 :=
  let ij := i + j
  let tri := if ij &&& 1 ≠ 0 then ij * ((ij + 1) / 2) else (ij / 2) * (ij + 1)
  tri + i + 1

def evalAOperands (a b : Nat) : Except String (Int64 × Int64) :=
  match d.locals a, d.locals b with
  | .int i, .int j => .ok (i, j)
  | _, _ => .error "Operands must be integer"

def evalAFactor (i j : Int64) : Except String D :=
  if evalADenom i j = 0 then .error "Division by zero" else .ok (M.recip (evalADenom i j))

def Data.push (v : Value D R) : Data D R W := { d with stack := v :: d.stack }

def Data.setLocal (slot : Nat) (v : Value D R) : Data D R W :=
  { d with locals := Function.update d.locals slot v }

def Data.setGlobal (name : String) (v : Value D R) : Data D R W :=
  { d with globals := Function.update d.globals name v }

/-- `vm_runtime_error`: the run ends; what it has written so far stays. -/
def raise (message : String) : State D R W ⊕ Result D R W X :=
  .inr (.error message d.globals d.world)

def andNext (pc : Nat) (r : Except String (Data D R W)) :
    State D R W ⊕ Result D R W X :=
  match r with
  | .ok d' => .inl ⟨pc, d'⟩
  | .error message => raise d message

def Data.popped : Except String (Value D R × Data D R W) :=
  match d.stack with
  | [] => .error "Stack underflow"
  | v :: rest => .ok (v, { d with stack := rest })

/-- `OP_CONST`; index 255 stands for nil. -/
def constValue (index : Nat) : Except String (Value D R) :=
  if index = 255 then .ok .nil
  else (P.values[index]?).elim (.error "Constant index out of bounds") .ok

def poolValue (index : Nat) : Except String (Value D R) :=
  (P.values[index]?).elim (.error "Constant index out of bounds") .ok

def onStack (f : Value D R → Value D R → Except String (Value D R)) (d : Data D R W) :
    Except String (Data D R W) :=
  match d.stack with
  | b :: a :: rest => do return { d with stack := (← f a b) :: rest }
  | _ => .error "Stack underflow"

def onTop (f : Value D R → Except String (Value D R)) (d : Data D R W) : Except String (Data D R W) :=
  match d.stack with
  | a :: rest => do return { d with stack := (← f a) :: rest }
  | [] => .error "Stack underflow"

def mulOp : ElemKind → NumOp
  | .int => .mulInt
  | .double => .mulDouble

def maddOperands (acc array index : Nat) : Except String (D × R × Int64) := do
  let y ← asDouble "Accumulator must be double" (d.locals acc)
  let i ← asIndex (d.locals index)
  let r ← asArray (d.locals array)
  return (y, r, i)

def maddTo (acc : Nat) (y : D) (r : R) (i : Int64) (x : D) :
    Except String (Data D R W) := do
  let z ← doubleAt M d.world r i
  return d.setLocal acc (.double (M.addDouble y (M.mulDouble x z)))

def straight (i : Instr O) (d : Data D R W) : Except String (Data D R W) :=
  match i with
  | .pop => do return (← d.popped).2
  | .const c => do return d.push (← constValue P c)
  | .loadLocal slot => .ok (d.push (d.locals slot))
  | .storeLocal slot => do
    let (v, d) ← d.popped
    return d.setLocal slot v
  | .loadGlobal name => .ok (d.push (d.globals (P.names name)))
  | .storeGlobal name => do
    let (v, d) ← d.popped
    return d.setGlobal (P.names name) v
  | .num op => onStack (applyNum M op) d
  | .arith op => onStack (M.arith op) d
  | .addLocalConst slot c => do
    let v ← poolValue P c
    return d.setLocal slot (← addConst M (d.locals slot) v)
  | .sqrt => onTop (fun v => .ok (.double (M.sqrt v))) d
  | .arrayLen => onTop (fun v => .ok (.int (M.length d.world v))) d
  | .arrayGet kind array index => do
    let i ← indexValue d index
    let r ← asArray (d.locals array)
    return d.push (← arrayElement M d.world r i kind)
  | .evalARecip a b => do
    let (i, j) ← evalAOperands d a b
    return d.push (.double (← evalAFactor M i j))
  | .madd acc array index => do
    let (v, d) ← d.popped
    let x ← asDouble "Operand must be double" v
    let (y, r, i) ← maddOperands d acc array index
    maddTo M d acc y r i x
  | .globalToGlobal op dst a b => do
    let v ← M.arith op (d.globals (P.names a)) (d.globals (P.names b))
    return d.setGlobal (P.names dst) v
  | .arrayGetToLocal kind array index dst => do
    let r ← asArray (d.locals array)
    let i ← indexValue d index
    return d.setLocal dst (← arrayElement M d.world r i kind)
  | .mulToLocal kind dst a b => do
    return d.setLocal dst (← applyNum M (mulOp kind) (d.locals a) (d.locals b))
  | .evalAMadd acc array index a b => do
    let (y, r, i) ← maddOperands d acc array index
    let (p, q) ← evalAOperands d a b
    let _ ← doubleAt M d.world r i
    maddTo M d acc y r i (← evalAFactor M p q)
  | .add2LocalConst a c1 b c2 => do
    let v1 ← poolValue P c1
    let v2 ← poolValue P c2
    let d := d.setLocal a (← addConst M (d.locals a) v1)
    return d.setLocal b (← addConst M (d.locals b) v2)
  | .locals op a b => do return d.push (← applyNum M op (d.locals a) (d.locals b))
  | .localConst op a c => do return d.push (← applyNum M op (d.locals a) (← poolValue P c))
  | .sqrtLocal slot => .ok (d.push (.double (M.sqrt (d.locals slot))))
  | .arrayLenLocal slot => .ok (d.push (.int (M.length d.world (d.locals slot))))
  | .stackLocal op slot => onTop (fun a => applyNum M op a (d.locals slot)) d
  | .stackConst op c => onTop (fun a => do applyNum M op a (← poolValue P c)) d
  | .jumpIfFalse _ | .jumpIfFalsePop _ | .other _ => .ok d

def jumpTo (base : Nat) (offset : Int) (d : Data D R W) : State D R W ⊕ Result D R W X :=
  .inl ⟨(base + offset).toNat, d⟩

/-- The instruction at `pc`. `OP_JUMP_IF_FALSE_POP` counts its offset from before the padding
byte, where `OP_JUMP_IF_FALSE` ends. -/
def stepInstr (i : Instr O) (pc : Nat) (d : Data D R W) : State D R W ⊕ Result D R W X :=
  match i with
  | .jumpIfFalse offset =>
    match d.stack with
    | .bool true :: _ => .inl ⟨pc + 3, d⟩
    | .bool false :: _ => jumpTo (pc + 3) offset d
    | [] => raise d "Peek out of bounds"
    | _ => raise d "Condition must be bool"
  | .jumpIfFalsePop offset =>
    match d.stack with
    | .bool true :: rest => .inl ⟨pc + 4, { d with stack := rest }⟩
    | .bool false :: _ => jumpTo (pc + 3) offset d
    | [] => raise d "Peek out of bounds"
    | _ => raise d "Condition must be bool"
  | .other o =>
    match M.exec o d with
    | .next d' => .inl ⟨pc + M.len o, d'⟩
    | .jump k d' =>
      match (M.jumps o)[k]? with
      | some offset => jumpTo (pc + M.len o) offset d'
      | none => .inl ⟨pc + M.len o, d'⟩
    | .stop x => .inr (.stopped x)
  | i => andNext d (pc + peepholeInstructionLen M.toLayout i) (straight M P i d)

def step (code : List (Instr O)) (s : State D R W) : State D R W ⊕ Result D R W X :=
  match Addressing.locate (peepholeInstructionLen M.toLayout) code s.pc with
  | some i => stepInstr M P i s.pc s.data
  | none => .inr .badAddress

end Machine

def jumpTargets (L : Layout O) (pc : Nat) : Instr O → List Int
  | .jumpIfFalse offset | .jumpIfFalsePop offset => [(pc + 3 : Nat) + offset]
  | .other o => (L.jumps o).map fun offset => ((pc + L.len o : Nat) : Int) + offset
  | _ => []

def targets (L : Layout O) : Nat → List (Instr O) → List Int
  | _, [] => []
  | pc, i :: code => jumpTargets L pc i ++ targets L (pc + peepholeInstructionLen L i) code

/-- Every jump operand lands on the first byte of an instruction. -/
def Aligned (L : Layout O) (code : List (Instr O)) : Prop :=
  ∀ t ∈ targets L 0 code, ∃ a : Nat, t = a ∧ (Addressing.locate (peepholeInstructionLen L) code a).isSome

end Tablo.Super
