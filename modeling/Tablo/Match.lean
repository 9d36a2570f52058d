import Tablo.Stepping
import Mathlib.Algebra.GroupWithZero.Nat
import Mathlib.Logic.Function.Basic

/-! Compiled pattern matching: `compile_match`, `compile_match_expression` and
the pattern tests they emit, and the instructions of the virtual machine these
use. Code is a list of instructions; the operands of its jumps are kept beside
it, by position, until they are patched. The subject, guards, compared values
and arms are compiled elsewhere; here they are single instructions that carry
the slots of the names a pattern has bound. -/

namespace Tablo.Match

inductive OtherKind where
  | function | native | map | set | socket | file | unknown
  deriving DecidableEq, Repr

inductive Value where
  | nil
  | bool (b : Bool)
  | int (n : Int)
  | bigint (n : Int)
  | double (bits : BitVec 64)
  | string (chars : String)
  | bytes (ref : Nat)
  | array (ref : Nat)
  | record (ref : Nat)
  | tuple (ref : Nat) (elements : List Value)
  | other (kind : OtherKind) (ref : Nat)
  deriving Repr

/-- Equality of doubles: a NaN equals nothing and the zeros are equal. -/
def doubleEquals (a b : BitVec 64) : Bool :=
  let magnitude (x : BitVec 64) : Nat := x.toNat % 2 ^ 63
  let nan (x : BitVec 64) : Bool := decide (0x7ff0000000000000 < magnitude x)
  !nan a && !nan b && (a == b || (magnitude a == 0 && magnitude b == 0))

/-- What `strcmp` reads: the characters before the first zero. -/
def cString (s : String) : List Char := s.toList.takeWhile (· != Char.ofNat 0)

def valueEqualsInternal : Nat → Value → Value → Bool
  | 0, _, _ => false
  | _ + 1, .nil, .nil => true
  | _ + 1, .int a, .int b => a == b
  | _ + 1, .int a, .bigint b => a == b
  | _ + 1, .bigint a, .int b => a == b
  | _ + 1, .bigint a, .bigint b => a == b
  | _ + 1, .bool a, .bool b => a == b
  | _ + 1, .double a, .double b => doubleEquals a b
  | _ + 1, .string a, .string b => cString a == cString b
  | _ + 1, .bytes a, .bytes b => a == b
  | _ + 1, .array a, .array b => a == b
  | _ + 1, .record a, .record b => a == b
  | depth + 1, .tuple a xs, .tuple b ys =>
    a == b || (xs.length == ys.length && (xs.zip ys).all fun xy => valueEqualsInternal depth xy.1 xy.2)
  | _ + 1, _, _ => false

def valueEquals (a b : Value) : Bool := valueEqualsInternal 65 a b

structure RecordObj where
  typeName : String
  fields : List Value

abbrev Env := List (String × Value)

inductive Completion (W R : Type) where
  | falls (w : W)
  | leaves (w : W)
  | raises (r : R)

/-- The code compiled elsewhere, over the state `W` of the rest of the machine:
what expressions `E` and statements `S` do, how many bytes and slots their
code takes, and `ir_stmt_guarantees_termination`. -/
structure Program (W E S R : Type) where
  record : W → Nat → RecordObj
  patternValue : E → Env → W → Except R Value
  exprValue : E → Env → W → Except R (Value × W)
  execStmt : S → Env → W → Completion W R
  exprSize : E → Nat
  exprLocals : E → Nat
  stmtSize : S → Nat
  stmtLocals : S → Nat
  terminates : S → Bool
  terminates_leaves : ∀ s env w w', terminates s = true → execStmt s env w ≠ .falls w'

/-- A record type: its fields, and those of the declaration of that name. -/
structure RecordType where
  name : String
  fields : List String
  declared : List String
  deriving Repr

/-- A member of an enum with payloads, with the places of its type test and of
its tag in the constant pool. -/
structure Member where
  enumName : String
  name : String
  tag : Int
  payloadCount : Nat
  typeConstant : Nat
  tagConstant : Nat
  deriving Repr

inductive Pattern (E : Type) where
  | identifier (name : String) (e : E)
  | value (e : E)
  | tuple (elements : List (Pattern E))
  | record (type : RecordType) (fieldNames : List String) (fieldValues : List (Pattern E))
  | member (m : Member) (args : List (Pattern E))

inductive Body (E S : Type) where
  | statement (s : S)
  | value (e : E)

structure Arm (E S : Type) where
  pattern : Pattern E
  guard : Option E
  body : Body E S

/-- Guards and arms name their position; `none` is the else branch. -/
inductive Instr (E S : Type) where
  | loadLocal (slot : Nat)
  | storeLocal (slot : Nat)
  | tupleGet (index : Nat)
  | recordGetField (index : Nat)
  | typeOf
  | constNil
  | const (v : Value) (index : Nat)
  | eq
  | jumpIfFalse
  | jump
  | pop
  | subject (e : E)
  | compared (e : E) (names : List (String × Nat))
  | guard (arm : Nat) (e : E) (names : List (String × Nat))
  | body (arm : Option Nat) (b : Body E S) (names : List (String × Nat))

variable {W E S R : Type} (P : Program W E S R)

def Body.size : Body E S → Nat
  | .statement s => P.stmtSize s
  | .value e => P.exprSize e

def Body.locals : Body E S → Nat
  | .statement s => P.stmtLocals s
  | .value e => P.exprLocals e

def Instr.size : Instr E S → Nat
  | .loadLocal _ | .storeLocal _ | .tupleGet _ | .recordGetField _ | .constNil => 2
  | .const _ index => if index ≤ 0xfe then 2 else 3
  | .typeOf | .eq | .pop => 1
  | .jumpIfFalse | .jump => 3
  | .subject e | .compared e _ | .guard _ e _ => P.exprSize e
  | .body _ b _ => b.size P

def codeSize (code : List (Instr E S)) : Nat := (code.map (Instr.size P)).sum

/-- The state of the compiler. A jump whose operand was never patched keeps
the placeholder, here `none`. -/
structure Emitter (E S : Type) where
  code : List (Instr E S)
  targets : Nat → Option Nat
  localCount : Nat
  names : List (String × Nat)
  failJumps : List Nat
  endJumps : List Nat

def emit (i : Instr E S) (c : Emitter E S) : Emitter E S := { c with code := c.code ++ [i] }

variable (c : Emitter E S)

def emitFailJump : Emitter E S :=
  { c with
    code := c.code ++ [.jumpIfFalse]
    targets := Function.update c.targets c.code.length none
    failJumps := c.failJumps ++ [c.code.length] }

def emitEndJump : Emitter E S :=
  { c with
    code := c.code ++ [.jump]
    targets := Function.update c.targets c.code.length none
    endJumps := c.endJumps ++ [c.code.length] }

/-- A jump that would be too far is reported and left as it is. -/
def patchJump (pos : Nat) : Emitter E S :=
  if codeSize P (c.code.drop (pos + 1)) ≤ 32767 then
    { c with targets := Function.update c.targets pos (some c.code.length) }
  else c

def takeLocals (n : Nat) (c : Emitter E S) : Except String (Emitter E S) :=
  if 256 < c.localCount + n then .error "Too many local variables in function (max 256)"
  else .ok { c with localCount := c.localCount + n }

def addLocal (name : String) (c : Emitter E S) : Except String (Emitter E S) := do
  let c' ← takeLocals 1 c
  .ok { c' with names := c'.names ++ [(name, c.localCount)] }

def compilerMatchBindingNameLooksDestructure (name : String) : Bool :=
  match name.toList with
  | [] => false
  | first :: _ => name == "_" || (decide ('a' ≤ first) && decide (first ≤ 'z'))

def compileMatchValueCompare (subjectSlot : Nat) (e : E) (c : Emitter E S) :
    Except String (Emitter E S) := do
  let c := emit (.loadLocal subjectSlot) c
  let c ← takeLocals (P.exprLocals e) c
  .ok (emit .pop (emitFailJump (emit .eq (emit (.compared e c.names) c))))

/-- The names of the source's record fields, or those of the declaration. -/
def resolveRecordFieldIndexFromType (type : RecordType) (name : String) : Option Nat :=
  match type.fields.idxOf? name with
  | some index => some index
  | none => type.declared.idxOf? name

def tupleElement (i : Nat) : Except String (Instr E S) :=
  if 255 < i then
    .error "Tuple match pattern exceeds tuple index operand range (max 255 elements)"
  else .ok (.tupleGet i)

def recordField (type : RecordType) (fieldNames : List String) (i : Nat) : Except String (Instr E S) :=
  match (fieldNames[i]?).bind (resolveRecordFieldIndexFromType type) with
  | none => .error "Unknown record field in match pattern"
  | some index =>
    if 255 < index then
      .error "Record match pattern field index exceeds operand range (max 255 fields)"
    else .ok (.recordGetField index)

def payloadElement (i : Nat) : Except String (Instr E S) := .ok (.tupleGet (i + 1))

def compileMemberTests (subjectSlot : Nat) (m : Member) (c : Emitter E S) : Emitter E S :=
  let c := emit (.const (.string "tuple") m.typeConstant) (emit .typeOf (emit (.loadLocal subjectSlot) c))
  let c := emit .pop (emitFailJump (emit .eq c))
  let c := emit (.const (.int m.tag) m.tagConstant) (emit (.tupleGet 0) (emit (.loadLocal subjectSlot) c))
  emit .pop (emitFailJump (emit .eq c))

def checkMember (m : Member) (argCount : Nat) : Except String Unit :=
  if m.payloadCount ≠ argCount then
    .error ("Enum payload match pattern arity mismatch for '" ++ m.enumName ++ "." ++ m.name ++
      "': expected " ++ toString m.payloadCount ++ ", got " ++ toString argCount)
  else if 254 < m.payloadCount then
    .error "Enum payload match pattern exceeds tuple index operand range (max 254 payload elements)"
  else .ok ()

mutual

def compilePattern : Pattern E → Nat → Bool → Emitter E S → Except String (Emitter E S)
  | .identifier name e, subjectSlot, allowBinding, c =>
    if allowBinding && compilerMatchBindingNameLooksDestructure name then
      if name == "_" then .ok c
      else do
        let c' ← addLocal name c
        .ok (emit (.storeLocal c.localCount) (emit (.loadLocal subjectSlot) c'))
    else compileMatchValueCompare P subjectSlot e c
  | .value e, subjectSlot, _, c => compileMatchValueCompare P subjectSlot e c
  | .tuple elements, subjectSlot, _, c => compileComponents tupleElement subjectSlot 0 elements c
  | .record type fieldNames fieldValues, subjectSlot, _, c =>
    compileComponents (recordField type fieldNames) subjectSlot 0 fieldValues c
  | .member m args, subjectSlot, _, c => do
    checkMember m args.length
    compileComponents payloadElement subjectSlot 0 args (compileMemberTests subjectSlot m c)

def compileComponents (fetch : Nat → Except String (Instr E S)) (subjectSlot : Nat) :
    Nat → List (Pattern E) → Emitter E S → Except String (Emitter E S)
  | _, [], c => .ok c
  | i, p :: ps, c => do
    let get ← fetch i
    let c' ← takeLocals 1 c
    let c' ← compilePattern p c.localCount true
      (emit (.storeLocal c.localCount) (emit get (emit (.loadLocal subjectSlot) c')))
    compileComponents fetch subjectSlot (i + 1) ps c'

end

def compileGuard (arm : Nat) : Option E → Emitter E S → Except String (Emitter E S)
  | none, c => .ok c
  | some g, c => do
    let c ← takeLocals (P.exprLocals g) c
    .ok (emit .pop (emitFailJump (emit (.guard arm g c.names) c)))

def compileBody (arm : Option Nat) (resultSlot : Nat) (b : Body E S) (c : Emitter E S) :
    Except String (Emitter E S) := do
  let c ← takeLocals (b.locals P) c
  let c := emit (.body arm b c.names) c
  match b with
  | .statement _ => .ok c
  | .value _ => .ok (emit (.storeLocal resultSlot) c)

def armTerminates : Body E S → Bool
  | .statement s => P.terminates s
  | .value _ => false

def endScope (startSlot : Nat) (c : Emitter E S) : Emitter E S :=
  { c with names := c.names.filter fun n => n.2 < startSlot }

def matchArmJumpListPatchAndPop (c : Emitter E S) : Emitter E S :=
  if c.failJumps = [] then c
  else emit .pop { c.failJumps.foldl (patchJump P) c with failJumps := [] }

def compileArm (subjectSlot resultSlot arm : Nat) (a : Arm E S) (c : Emitter E S) :
    Except String (Emitter E S) := do
  let scopeStart := c.localCount
  let c ← compilePattern P a.pattern subjectSlot false c
  let c ← compileGuard P arm a.guard c
  let c ← compileBody P (some arm) resultSlot a.body c
  let c := endScope scopeStart c
  let c := if armTerminates P a.body then c else emitEndJump c
  .ok (matchArmJumpListPatchAndPop P c)

def compileArms (subjectSlot resultSlot : Nat) :
    Nat → List (Arm E S) → Emitter E S → Except String (Emitter E S)
  | _, [], c => .ok c
  | arm, a :: arms, c => do
    let c ← compileArm P subjectSlot resultSlot arm a c
    compileArms subjectSlot resultSlot (arm + 1) arms c

def compileElse (resultSlot : Nat) : Option (Body E S) → Emitter E S → Except String (Emitter E S)
  | none, c => .ok c
  | some b, c => compileBody P none resultSlot b c

def compileDispatch (resultSlot : Nat) (subject : E) (arms : List (Arm E S)) (elseBody : Option (Body E S))
    (c : Emitter E S) : Except String (Emitter E S) := do
  let c ← takeLocals (P.exprLocals subject) c
  let subjectSlot := c.localCount
  let c ← takeLocals 1 (emit (.subject subject) c)
  let c ← compileArms P subjectSlot resultSlot 0 arms (emit (.storeLocal subjectSlot) c)
  let c ← compileElse P resultSlot elseBody c
  .ok (c.endJumps.foldl (patchJump P) c)

def startEmitter (n : Nat) : Emitter E S := ⟨[], fun _ => none, n, [], [], []⟩

def compileMatch (n : Nat) (subject : E) (arms : List (Pattern E × Option E × S)) (elseBranch : Option S) :
    Except String (Emitter E S) :=
  compileDispatch P 0 subject (arms.map fun a => ⟨a.1, a.2.1, .statement a.2.2⟩)
    (elseBranch.map .statement) (startEmitter n)

def compileMatchExpression (n : Nat) (subject : E) (arms : List (Pattern E × Option E × E))
    (elseExpr : Option E) : Except String (Emitter E S) := do
  let c ← takeLocals 1 (emit .constNil (startEmitter n))
  let c ← compileDispatch P n subject (arms.map fun a => ⟨a.1, a.2.1, .value a.2.2⟩)
    (elseExpr.map .value) (emit (.storeLocal n) c)
  .ok (emit (.loadLocal n) c)

/-- Errors of the tests themselves. A jump left unpatched lands on its own
operand, which is no instruction. -/
inductive Fault (R : Type) where
  | nonTuple
  | nonRecord
  | unknownOpcode
  | underflow
  | compared (r : R)

inductive RunError (R : Type) where
  | conditionNotBool
  | raised (r : R)

inductive Event where
  | guard (arm : Nat) (env : Env)
  | body (arm : Option Nat) (env : Env)

inductive Result (W R : Type) where
  | finished (stack : List Value) (events : List Event) (w : W)
  | left (stack : List Value) (events : List Event) (w : W)
  | raised (error : RunError R) (events : List Event)
  | fault (f : Fault R)

structure State (W : Type) where
  pc : Nat
  stack : List Value
  locals : Nat → Value
  events : List Event
  world : W

def typeName (w : W) : Value → String
  | .nil => "nil"
  | .bool _ => "bool"
  | .int _ => "int"
  | .bigint _ => "bigint"
  | .double _ => "double"
  | .string _ => "string"
  | .bytes _ => "bytes"
  | .array _ => "array"
  | .record ref => if (P.record w ref).typeName = "" then "record" else (P.record w ref).typeName
  | .tuple _ _ => "tuple"
  | .other .function _ => "function"
  | .other .native _ => "native"
  | .other .map _ => "map"
  | .other .set _ => "set"
  | .other .socket _ => "socket"
  | .other .file _ => "file"
  | .other .unknown _ => "unknown"

def envOf (locals : Nat → Value) (names : List (String × Nat)) : Env :=
  names.map fun n => (n.1, locals n.2)

def State.push (s : State W) (v : Value) : State W := { s with pc := s.pc + 1, stack := v :: s.stack }

def jumpTo (s : State W) : Option Nat → State W ⊕ Result W R
  | some pc => .inl { s with pc := pc }
  | none => .inr (.fault .unknownOpcode)

def stepBody (arm : Option Nat) (b : Body E S) (env : Env) (s : State W) : State W ⊕ Result W R :=
  let events := s.events ++ [.body arm env]
  match b with
  | .statement st =>
    match P.execStmt st env s.world with
    | .falls w => .inl { s with pc := s.pc + 1, events := events, world := w }
    | .leaves w => .inr (.left s.stack events w)
    | .raises r => .inr (.raised (.raised r) events)
  | .value e =>
    match P.exprValue e env s.world with
    | .ok (v, w) => .inl { s.push v with events := events, world := w }
    | .error r => .inr (.raised (.raised r) events)

def stepInstr (targets : Nat → Option Nat) (s : State W) : Instr E S → State W ⊕ Result W R
  | .loadLocal slot => .inl (s.push (s.locals slot))
  | .storeLocal slot =>
    match s.stack with
    | [] => .inr (.fault .underflow)
    | v :: stack =>
      .inl { s with pc := s.pc + 1, stack := stack, locals := Function.update s.locals slot v }
  | .tupleGet index =>
    match s.stack with
    | .tuple _ elements :: stack => .inl ({ s with stack := stack }.push (elements.getD index .nil))
    | _ :: _ => .inr (.fault .nonTuple)
    | [] => .inr (.fault .underflow)
  | .recordGetField index =>
    match s.stack with
    | .record ref :: stack =>
      .inl ({ s with stack := stack }.push ((P.record s.world ref).fields.getD index .nil))
    | _ :: _ => .inr (.fault .nonRecord)
    | [] => .inr (.fault .underflow)
  | .typeOf =>
    match s.stack with
    | v :: stack => .inl ({ s with stack := stack }.push (.string (typeName P s.world v)))
    | [] => .inr (.fault .underflow)
  | .constNil => .inl (s.push .nil)
  | .const v _ => .inl (s.push v)
  | .eq =>
    match s.stack with
    | b :: a :: stack => .inl ({ s with stack := stack }.push (.bool (valueEquals a b)))
    | _ => .inr (.fault .underflow)
  | .jumpIfFalse =>
    match s.stack with
    | .bool true :: _ => .inl { s with pc := s.pc + 1 }
    | .bool false :: _ => jumpTo s (targets s.pc)
    | _ => .inr (.raised .conditionNotBool s.events)
  | .jump => jumpTo s (targets s.pc)
  | .pop =>
    match s.stack with
    | _ :: stack => .inl { s with pc := s.pc + 1, stack := stack }
    | [] => .inr (.fault .underflow)
  | .subject e =>
    match P.exprValue e [] s.world with
    | .ok (v, w) => .inl { s.push v with world := w }
    | .error r => .inr (.raised (.raised r) s.events)
  | .compared e names =>
    match P.patternValue e (envOf s.locals names) s.world with
    | .ok v => .inl (s.push v)
    | .error r => .inr (.fault (.compared r))
  | .guard arm e names =>
    let env := envOf s.locals names
    let events := s.events ++ [.guard arm env]
    match P.exprValue e env s.world with
    | .ok (v, w) => .inl { s.push v with events := events, world := w }
    | .error r => .inr (.raised (.raised r) events)
  | .body arm b names => stepBody P arm b (envOf s.locals names) s

/-- One instruction; past the end of the code the match is over. -/
def step (c : Emitter E S) (s : State W) : State W ⊕ Result W R :=
  match c.code[s.pc]? with
  | none => .inr (.finished s.stack s.events s.world)
  | some i => stepInstr P c.targets s i

end Tablo.Match
