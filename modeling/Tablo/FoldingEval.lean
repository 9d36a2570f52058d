import Tablo.Folding

/-! What the virtual machine computes for an expression compiled without folding. -/

namespace Tablo.Folding

/-- `B` are bigints and `O` all other objects. -/
inductive Value (B O : Type) where
  | nil
  | int (n : Int64)
  | bool (b : Bool)
  | string (s : List UInt8)
  | double (d : UInt64)
  | bigint (b : B)
  | object (o : O)

inductive Fault where
  | undefined
  | runtime (message : String)
  deriving DecidableEq, Repr

/-- What the machine leaves to doubles, bigints, objects and conversions. A bigint quotient or
remainder is `none` for a zero divisor. -/
structure Host (B O : Type) where
  doubles : Doubles
  maxStringLength : Nat
  bigintOfInt : Int64 → B
  bigintOfText : List UInt8 → B
  bigintArithmetic : BinaryOp → B → B → Option B
  bigintBitwise : BinaryOp → B → B → B
  bigintCompare : B → B → Int
  bigintNegate : B → B
  bigintNot : B → B
  objectEqual : O → O → Bool
  cast : Kind → Value B O → Except Fault (Value B O)

variable {B O K S : Type}

def Literal.value (host : Host B O) : Literal → Value B O
  | .int n => .int n
  | .bool b => .bool b
  | .string s => .string s
  | .double d => .double d
  | .bigint text => .bigint (host.bigintOfText text)
  | .nil => .nil

def ofInt : Except Undefined Int64 → Except Fault (Value B O)
  | .ok n => .ok (.int n)
  | .error _ => .error .undefined

def arithmeticInt (moduloByZero : String) (op : BinaryOp) (a b : Int64) : Except Fault (Value B O) :=
  match op with
  | .plus => ofInt (cAdd a b)
  | .minus => ofInt (cSub a b)
  | .star => ofInt (cMul a b)
  | .slash => if b = 0 then .error (.runtime "Division by zero") else ofInt (cDiv a b)
  | .percent => if b = 0 then .error (.runtime moduloByZero) else ofInt (cMod a b)
  | .bitAnd => .ok (.int (a &&& b))
  | .bitOr => .ok (.int (a ||| b))
  | .bitXor => .ok (.int (a ^^^ b))
  | _ => .error (.runtime "Unsupported arithmetic opcode")

/-- `OP_ADD_INT` and the other typed integer operations -/
def opInt (op : BinaryOp) (a b : Value B O) : Except Fault (Value B O) :=
  match a, b with
  | .int x, .int y => arithmeticInt "Modulo by zero" op x y
  | _, _ => .error (.runtime "Operands must be integer")

def arithmeticDouble (ds : Doubles) (op : BinaryOp) (a b : UInt64) : Except Fault (Value B O) :=
  match op with
  | .plus => .ok (.double (ds.add a b))
  | .minus => .ok (.double (ds.sub a b))
  | .star => .ok (.double (ds.mul a b))
  | .slash => if ds.isZero b then .error (.runtime "Division by zero") else .ok (.double (ds.div a b))
  | _ => .error (.runtime "Unsupported arithmetic opcode")

/-- `OP_ADD_DOUBLE` and the other typed double operations -/
def opDouble (host : Host B O) (op : BinaryOp) (a b : Value B O) : Except Fault (Value B O) :=
  match a, b with
  | .double x, .double y => arithmeticDouble host.doubles op x y
  | _, _ => .error (.runtime "Operands must be double")

def tooLong : Fault := .runtime "String length exceeds maximum allowed"

/-- `value_init_string` stops at the first zero byte. -/
def concat (host : Host B O) (a b : List UInt8) : Except Fault (Value B O) :=
  if a.length + b.length > host.maxStringLength then .error tooLong
  else .ok (.string ((a ++ b).takeWhile (· ≠ 0)))

/-- `bigint_from_value` -/
def bigintFromValue (host : Host B O) : Value B O → Option B
  | .bigint b => some b
  | .int n => some (host.bigintOfInt n)
  | .nil | .bool _ | .string _ | .double _ | .object _ => none

def Value.isBigint : Value B O → Bool
  | .bigint _ => true
  | .nil | .int _ | .bool _ | .string _ | .double _ | .object _ => false

def Value.isDouble : Value B O → Bool
  | .double _ => true
  | .nil | .int _ | .bool _ | .string _ | .bigint _ | .object _ => false

def arithmeticBigint (host : Host B O) (message : String) (op : BinaryOp) (a b : Value B O) :
    Except Fault (Value B O) :=
  match bigintFromValue host a, bigintFromValue host b with
  | some x, some y =>
    match host.bigintArithmetic op x y with
    | some z => .ok (.bigint z)
    | none => .error (.runtime "Division by zero")
  | _, _ => .error (.runtime message)

/-- `vm_compute_arithmetic_op`: `OP_ADD`, `OP_SUB`, `OP_MUL` and `OP_DIV` -/
def vmComputeArithmeticOp (host : Host B O) (op : BinaryOp) (a b : Value B O) : Except Fault (Value B O) :=
  let message := if op = .plus then "Operands must be numbers or strings" else "Operands must be numbers"
  if (a.isBigint || b.isBigint) && (a.isDouble || b.isDouble) then .error (.runtime "Cannot mix bigint and double")
  else if a.isBigint || b.isBigint then arithmeticBigint host message op a b
  else
    match a, b with
    | .int x, .int y => arithmeticInt "Division by zero" op x y
    | .double x, .double y => arithmeticDouble host.doubles op x y
    | .string x, .string y => if op = .plus then concat host x y else .error (.runtime message)
    | _, _ => .error (.runtime message)

def opMod (host : Host B O) (a b : Value B O) : Except Fault (Value B O) :=
  if (a.isBigint || b.isBigint) && (a.isDouble || b.isDouble) then .error (.runtime "Cannot mix bigint and double")
  else if a.isBigint || b.isBigint then arithmeticBigint host "Operands must be integers" .percent a b
  else
    match a, b with
    | .int x, .int y => arithmeticInt "Division by zero" .percent x y
    | _, _ => .error (.runtime "Operands must be integers")

def opBitwise (host : Host B O) (op : BinaryOp) (a b : Value B O) : Except Fault (Value B O) :=
  let message := "Operands must be int/bigint for bitwise operation"
  if a.isBigint || b.isBigint then
    match bigintFromValue host a, bigintFromValue host b with
    | some x, some y => .ok (.bigint (host.bigintBitwise op x y))
    | _, _ => .error (.runtime message)
  else
    match a, b with
    | .int x, .int y => arithmeticInt "Division by zero" op x y
    | _, _ => .error (.runtime message)

def valueEquals (host : Host B O) : Value B O → Value B O → Bool
  | .nil, .nil => true
  | .int a, .int b => a == b
  | .bool a, .bool b => a == b
  | .string a, .string b => a.takeWhile (· ≠ 0) == b.takeWhile (· ≠ 0)
  | .double a, .double b => host.doubles.equal a b
  | .bigint a, .bigint b => host.bigintCompare a b == 0
  | .int a, .bigint b => host.bigintCompare b (host.bigintOfInt a) == 0
  | .bigint a, .int b => host.bigintCompare a (host.bigintOfInt b) == 0
  | .object a, .object b => host.objectEqual a b
  | _, _ => false

/-- `<`, `<=`, `>` and `>=` from "less" and "less or equal" -/
def comparison {α : Type} (less lessEqual : α → α → Bool) (op : BinaryOp) (a b : α) : Except Fault (Value B O) :=
  match op with
  | .lt => .ok (.bool (less a b))
  | .ltEq => .ok (.bool (lessEqual a b))
  | .gt => .ok (.bool (less b a))
  | .gtEq => .ok (.bool (lessEqual b a))
  | _ => .error (.runtime "Unsupported comparison opcode")

def vmComputeComparisonOp (host : Host B O) (op : BinaryOp) (a b : Value B O) : Except Fault (Value B O) :=
  if (a.isBigint || b.isBigint) && (a.isDouble || b.isDouble) then .error (.runtime "Cannot mix bigint and double")
  else if a.isBigint || b.isBigint then
    match bigintFromValue host a, bigintFromValue host b with
    | some x, some y =>
      comparison (fun x y => decide (host.bigintCompare x y < 0)) (fun x y => decide (host.bigintCompare x y ≤ 0)) op x y
    | _, _ => .error (.runtime "Operands must be comparable")
  else
    match a, b with
    | .int x, .int y => comparison (fun x y => decide (x < y)) (fun x y => decide (x ≤ y)) op x y
    | .double x, .double y => comparison host.doubles.less host.doubles.lessEqual op x y
    | _, _ => .error (.runtime "Operands must be comparable")

/-- The instruction `compile_binary` chooses by the kinds of the expression and its operands, on the
values of the operands. Of `&&` and `||` the right operand is the result. -/
def binaryOp (host : Host B O) (op : BinaryOp) (left right : Kind) (a b : Value B O) : Except Fault (Value B O) :=
  match op with
  | .plus | .minus | .star | .slash =>
    if left = .double ∧ right = .double then opDouble host op a b
    else if left = .int ∧ right = .int then opInt op a b
    else vmComputeArithmeticOp host op a b
  | .percent => if left = .int ∧ right = .int then opInt op a b else opMod host a b
  | .bitAnd | .bitOr | .bitXor => if left = .int ∧ right = .int then opInt op a b else opBitwise host op a b
  | .eqEq => .ok (.bool (valueEquals host a b))
  | .bangEq => .ok (.bool (!valueEquals host a b))
  | .lt | .ltEq | .gt | .gtEq => vmComputeComparisonOp host op a b
  | .and | .or => .ok b

def shortCircuit (op : BinaryOp) (a : Value B O) : Option (Except Fault (Value B O)) :=
  match op, a with
  | .and, .bool b => if b then none else some (.ok (.bool false))
  | .or, .bool b => if b then some (.ok (.bool true)) else none
  | .and, _ | .or, _ => some (.error (.runtime "Condition must be bool"))
  | _, _ => none

def negate (host : Host B O) (operand : Kind) (a : Value B O) : Except Fault (Value B O) :=
  match a with
  | .int n => if operand = .double then .error (.runtime "Operand must be double") else ofInt (cNeg n)
  | .double d =>
    if operand = .int then .error (.runtime "Operand must be integer") else .ok (.double (host.doubles.neg d))
  | .bigint b =>
    if operand = .double then .error (.runtime "Operand must be double")
    else if operand = .int then .error (.runtime "Operand must be integer")
    else .ok (.bigint (host.bigintNegate b))
  | .nil | .bool _ | .string _ | .object _ =>
    if operand = .double then .error (.runtime "Operand must be double")
    else if operand = .int then .error (.runtime "Operand must be integer")
    else .error (.runtime "Operand must be a number")

def bitNot (host : Host B O) (operand : Kind) (a : Value B O) : Except Fault (Value B O) :=
  match a with
  | .int n => .ok (.int (~~~n))
  | .bigint b =>
    if operand = .int then .error (.runtime "Operand must be integer") else .ok (.bigint (host.bigintNot b))
  | .nil | .bool _ | .string _ | .double _ | .object _ =>
    if operand = .int then .error (.runtime "Operand must be integer")
    else .error (.runtime "Operand must be int/bigint for bitwise not")

/-- The instruction `compile_unary` chooses, on the value of the operand. -/
def unaryOp (host : Host B O) (op : UnaryOp) (operand : Kind) (a : Value B O) : Except Fault (Value B O) :=
  match op with
  | .minus => negate host operand a
  | .not =>
    match a with
    | .bool b => .ok (.bool !b)
    | _ => .error (.runtime "Operand must be bool for logical not")
  | .bitNot => bitNot host operand a

abbrev Outcome (B O S : Type) := Except Fault (Value B O) × S

def Outcome.andThen (x : Outcome B O S) (f : Value B O → S → Outcome B O S) : Outcome B O S :=
  match x with
  | (.ok v, s) => f v s
  | (.error e, s) => (.error e, s)

/-- `run` evaluates the leaves: reads of variables, calls and whatever else has its own effects. -/
def eval (host : Host B O) (run : K → S → Outcome B O S) : Expr K → S → Outcome B O S
  | .literal c, s => (.ok (c.value host), s)
  | .leaf k _, s => run k s
  | .binary op left right, s =>
    (eval host run left s).andThen fun a s =>
      match shortCircuit op a with
      | some result => (result, s)
      | none => (eval host run right s).andThen fun b s => (binaryOp host op left.kind right.kind a b, s)
  | .unary op operand, s =>
    (eval host run operand s).andThen fun a s => (unaryOp host op operand.kind a, s)
  | .cast target value, s =>
    if isNoopPrimitiveCast value.kind target then eval host run value s
    else (eval host run value s).andThen fun a s => (host.cast target a, s)

end Tablo.Folding
