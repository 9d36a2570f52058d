import Mathlib.Logic.Basic

/-! Constant folding in `compiler.c`, on expressions with the type kinds the type
checker gives them. Everything that is not a literal, an operator or a cast is a leaf. -/

namespace Tablo.Folding

inductive Kind where
  | int
  | bool
  | double
  | string
  | bigint
  | any
  | nil
  | other
  deriving DecidableEq, Repr

inductive BinaryOp where
  | plus
  | minus
  | star
  | slash
  | percent
  | and
  | or
  | bitAnd
  | bitOr
  | bitXor
  | eqEq
  | bangEq
  | lt
  | ltEq
  | gt
  | gtEq
  deriving DecidableEq, Repr

inductive UnaryOp where
  | minus
  | not
  | bitNot
  deriving DecidableEq, Repr

/-- A double is its 64 bits, a bigint its decimal text; `EXPR_NIL` counts as a literal. -/
inductive Literal where
  | int (n : Int64)
  | bool (b : Bool)
  | string (s : List UInt8)
  | double (d : UInt64)
  | bigint (text : List UInt8)
  | nil
  deriving DecidableEq, Repr

/-- `K` names variables, calls and all other expressions. -/
inductive Expr (K : Type) where
  | literal (c : Literal)
  | leaf (k : K) (kind : Kind)
  | binary (op : BinaryOp) (left right : Expr K)
  | unary (op : UnaryOp) (operand : Expr K)
  | cast (target : Kind) (value : Expr K)
  deriving DecidableEq, Repr

/-! ### Type kinds -/

def Literal.kind : Literal → Kind
  | .int _ => .int
  | .bool _ => .bool
  | .string _ => .string
  | .double _ => .double
  | .bigint _ => .bigint
  | .nil => .nil

variable (op : BinaryOp) (a b : Int64) {K : Type} (ds : Doubles)

/-- The kind `typecheck_binary` gives. -/
def binaryKind (left right : Kind) : Kind :=
  match op with
  | .percent => if left = .bigint ∨ right = .bigint then .bigint else .int
  | .plus | .minus | .star | .slash =>
    if op = .plus ∧ left = .string ∧ right = .string then .string
    else if left ≠ .any ∧ right ≠ .any ∧ (left = .string ∨ right = .string) then .any
    else if (left = .bigint ∧ right = .double) ∨ (right = .bigint ∧ left = .double) then .any
    else if left = .bigint ∨ right = .bigint then .bigint
    else if (left = .int ∧ right = .double) ∨ (left = .double ∧ right = .int) then .any
    else if left = .double ∨ right = .double then .double
    else if left = .string ∨ right = .string then .any
    else .int
  | .bitAnd | .bitOr | .bitXor => if left = .bigint ∨ right = .bigint then .bigint else .int
  | .and | .or | .eqEq | .bangEq | .lt | .ltEq | .gt | .gtEq => .bool

/-- The kind `typecheck_unary` gives. -/
def unaryKind (op : UnaryOp) (operand : Kind) : Kind :=
  match op with
  | .minus => if operand = .bigint then .bigint else if operand = .double then .double else .int
  | .not => .bool
  | .bitNot => if operand = .bigint then .bigint else .int

/-- `expr->type->kind` after type checking -/
def Expr.kind {K : Type} : Expr K → Kind
  | .literal c => c.kind
  | .leaf _ kind => kind
  | .binary op left right => binaryKind op left.kind right.kind
  | .unary op operand => unaryKind op operand.kind
  | .cast target _ => target

/-- `typecheck_binary` reports no error. -/
def binaryAccepted (left right : Kind) : Prop :=
  match op with
  | .percent => left ∈ [.any, .int, .bigint] ∧ right ∈ [.any, .int, .bigint]
  | .plus | .minus | .star | .slash =>
    left ∈ [.any, .int, .double, .bigint, .string] ∧ right ∈ [.any, .int, .double, .bigint, .string] ∧
      (left, right) ∉ [(.bigint, .double), (.double, .bigint), (.int, .double), (.double, .int)]
  | .and | .or => left ∈ [.any, .bool] ∧ right ∈ [.any, .bool]
  | .bitAnd | .bitOr | .bitXor => left ∈ [.any, .int, .bigint] ∧ right ∈ [.any, .int, .bigint]
  | .lt | .ltEq | .gt | .gtEq =>
    left ∈ [.any, .int, .double, .bigint] ∧ right ∈ [.any, .int, .double, .bigint] ∧
      (left, right) ∉ [(.bigint, .double), (.double, .bigint), (.int, .double), (.double, .int)]
  | .eqEq | .bangEq => True

/-- `typecheck_unary` reports no error. -/
def unaryAccepted (op : UnaryOp) (operand : Kind) : Prop :=
  match op with
  | .minus => operand ∈ [.any, .int, .double, .bigint]
  | .not => operand ∈ [.any, .bool]
  | .bitNot => operand ∈ [.any, .int, .bigint]

def isNoopPrimitiveCast (source target : Kind) : Bool :=
  source == target && [.int, .bool, .double, .string, .bigint].contains target

/-! ### Integer operations of C -/

inductive Undefined where
  | intOverflow
  deriving DecidableEq, Repr

def int64Of (n : Int) : Except Undefined Int64 :=
  if -9223372036854775808 ≤ n ∧ n ≤ 9223372036854775807 then .ok (Int64.ofInt n) else .error .intOverflow

def cAdd : Except Undefined Int64 := int64Of (a.toInt + b.toInt)

def cSub : Except Undefined Int64 := int64Of (a.toInt - b.toInt)

def cMul : Except Undefined Int64 := int64Of (a.toInt * b.toInt)

def cDiv : Except Undefined Int64 := int64Of (a.toInt.tdiv b.toInt)

def cMod : Except Undefined Int64 := do
  let _ ← cDiv a b
  int64Of (a.toInt.tmod b.toInt)

def cNeg (a : Int64) : Except Undefined Int64 := int64Of (-a.toInt)

/-! ### Folding -/

structure Doubles where
  isZero : UInt64 → Bool
  isOne : UInt64 → Bool
  equal : UInt64 → UInt64 → Bool
  less : UInt64 → UInt64 → Bool
  lessEqual : UInt64 → UInt64 → Bool
  add : UInt64 → UInt64 → UInt64
  sub : UInt64 → UInt64 → UInt64
  mul : UInt64 → UInt64 → UInt64
  div : UInt64 → UInt64 → UInt64
  neg : UInt64 → UInt64

def Expr.isInt (n : Int64) : Expr K → Bool
  | .literal (.int m) => m == n
  | .literal _ | .leaf _ _ | .binary _ _ _ | .unary _ _ | .cast _ _ => false

def Expr.isBool (b : Bool) : Expr K → Bool
  | .literal (.bool c) => c == b
  | .literal _ | .leaf _ _ | .binary _ _ _ | .unary _ _ | .cast _ _ => false

def Expr.isDouble (p : UInt64 → Bool) : Expr K → Bool
  | .literal (.double d) => p d
  | .literal _ | .leaf _ _ | .binary _ _ _ | .unary _ _ | .cast _ _ => false

def Expr.isEmptyString : Expr K → Bool
  | .literal (.string s) => s.isEmpty
  | .literal _ | .leaf _ _ | .binary _ _ _ | .unary _ _ | .cast _ _ => false

def foldIdentity (op : BinaryOp) (left right : Expr K) : Option (Expr K) :=
  let intBin := left.kind = .int ∧ right.kind = .int
  let doubleBin := left.kind = .double ∧ right.kind = .double
  let boolBin := left.kind = .bool ∧ right.kind = .bool
  match op with
  | .plus =>
    if intBin then
      if right.isInt 0 then some left else if left.isInt 0 then some right else none
    else if doubleBin then
      if right.isDouble ds.isZero then some left else if left.isDouble ds.isZero then some right else none
    else if left.isEmptyString ∧ right.kind = .string then some right
    else if right.isEmptyString ∧ left.kind = .string then some left
    else none
  | .minus =>
    if intBin ∧ right.isInt 0 then some left
    else if doubleBin ∧ right.isDouble ds.isZero then some left
    else none
  | .star =>
    if intBin then
      if right.isInt 1 then some left else if left.isInt 1 then some right else none
    else if doubleBin then
      if right.isDouble ds.isOne then some left else if left.isDouble ds.isOne then some right else none
    else none
  | .slash =>
    if intBin ∧ right.isInt 1 then some left
    else if doubleBin ∧ right.isDouble ds.isOne then some left
    else none
  | .and =>
    if boolBin then
      if left.isBool false then some (.literal (.bool false))
      else if left.isBool true then some right
      else if right.isBool true then some left
      else none
    else none
  | .or =>
    if boolBin then
      if left.isBool true then some (.literal (.bool true))
      else if left.isBool false then some right
      else if right.isBool false then some left
      else none
    else none
  | .percent | .bitAnd | .bitOr | .bitXor | .eqEq | .bangEq | .lt | .ltEq | .gt | .gtEq => none

/-- `literal.as_int`, the member a bool literal uses too -/
def Literal.asInt : Literal → Int64
  | .int n => n
  | .bool b => if b then 1 else 0
  | .string _ | .double _ | .bigint _ | .nil => 0

/-- Literals that are no bigint and no nil: equal as `==` is at run time. -/
def literalEq : Literal → Literal → Bool
  | .string l, .string r => l == r
  | .double l, .double r => ds.equal l r
  | .bool l, .bool r => l == r
  | .int l, .int r => l == r
  | _, _ => false

def foldArithmeticInt (left right : Int64) : Except Undefined (Option Literal) :=
  match op with
  | .plus => do
    let n ← cAdd left right
    .ok (some (.int n))
  | .minus => do
    let n ← cSub left right
    .ok (some (.int n))
  | .star => do
    let n ← cMul left right
    .ok (some (.int n))
  | .slash =>
    if right = 0 then .ok none
    else do
      let n ← cDiv left right
      .ok (some (.int n))
  | .percent =>
    if right = 0 then .ok none
    else do
      let n ← cMod left right
      .ok (some (.int n))
  | _ => .ok none

def foldArithmeticDouble (op : BinaryOp) (left right : UInt64) : Option Literal :=
  match op with
  | .plus => some (.double (ds.add left right))
  | .minus => some (.double (ds.sub left right))
  | .star => some (.double (ds.mul left right))
  | .slash => if ds.isZero right then none else some (.double (ds.div left right))
  | _ => none

def foldArithmetic (op : BinaryOp) (left right : Literal) : Except Undefined (Option Literal) :=
  match left, right with
  | .string l, .string r => .ok (if op = .plus then some (.string (l ++ r)) else none)
  | .string _, _ | _, .string _ => .ok none
  | .double l, .double r => .ok (if op = .percent then none else foldArithmeticDouble ds op l r)
  | .double _, _ | _, .double _ => .ok none
  | l, r => foldArithmeticInt op l.asInt r.asInt

def foldComparison (op : BinaryOp) (left right : Literal) : Option Literal :=
  match left, right with
  | .double l, .double r =>
    match op with
    | .lt => some (.bool (ds.less l r))
    | .ltEq => some (.bool (ds.lessEqual l r))
    | .gt => some (.bool (ds.less r l))
    | .gtEq => some (.bool (ds.lessEqual r l))
    | _ => none
  | .int l, .int r =>
    match op with
    | .lt => some (.bool (l < r))
    | .ltEq => some (.bool (l ≤ r))
    | .gt => some (.bool (l > r))
    | .gtEq => some (.bool (l ≥ r))
    | _ => none
  | _, _ => none

def foldBitwise (left right : Literal) : Option Literal :=
  match left, right with
  | .int l, .int r =>
    match op with
    | .bitAnd => some (.int (l &&& r))
    | .bitOr => some (.int (l ||| r))
    | .bitXor => some (.int (l ^^^ r))
    | _ => none
  | _, _ => none

def foldLogical (left right : Literal) : Option Literal :=
  match left, right with
  | .bool l, .bool r => some (.bool (if op = .and then l && r else l || r))
  | _, _ => none

def foldLiterals (op : BinaryOp) (left right : Literal) : Except Undefined (Option Literal) :=
  match left, right with
  | .bigint _, _ | _, .bigint _ => .ok none
  | .nil, r =>
    match op with
    | .eqEq => .ok (some (.bool (r == .nil)))
    | .bangEq => .ok (some (.bool (r != .nil)))
    | _ => .ok none
  | _, .nil =>
    match op with
    | .eqEq => .ok (some (.bool false))
    | .bangEq => .ok (some (.bool true))
    | _ => .ok none
  | l, r =>
    match op with
    | .eqEq => .ok (some (.bool (literalEq ds l r)))
    | .bangEq => .ok (some (.bool (!literalEq ds l r)))
    | .and | .or => .ok (foldLogical op l r)
    | .bitAnd | .bitOr | .bitXor => .ok (foldBitwise op l r)
    | .lt | .ltEq | .gt | .gtEq => .ok (foldComparison ds op l r)
    | .plus | .minus | .star | .slash | .percent => foldArithmetic ds op l r

def foldBinary (op : BinaryOp) (left right : Expr K) : Except Undefined (Option (Expr K)) :=
  match foldIdentity ds op left right with
  | some e => .ok (some e)
  | none =>
    match left, right with
    | .literal l, .literal r => do
      let c ← foldLiterals ds op l r
      .ok (c.map .literal)
    | _, _ => .ok none

def foldUnary (op : UnaryOp) (operand : Expr K) : Except Undefined (Option (Expr K)) :=
  match op, operand with
  | .not, .literal (.bool b) => .ok (some (.literal (.bool !b)))
  | .bitNot, .literal (.int n) => .ok (some (.literal (.int (~~~n))))
  | .minus, .literal (.double d) => .ok (some (.literal (.double (ds.neg d))))
  | .minus, .literal (.int n) => do
    let m ← cNeg n
    .ok (some (.literal (.int m)))
  | _, _ => .ok none

/-- `none` stands for the null pointer: the expression is compiled as it is. -/
def foldExpressionRecursive (ds : Doubles) : Expr K → Except Undefined (Option (Expr K))
  | .binary op left right => do
    let foldedLeft ← foldExpressionRecursive ds left
    let foldedRight ← foldExpressionRecursive ds right
    foldBinary ds op (foldedLeft.getD left) (foldedRight.getD right)
  | .unary op operand => do
    let foldedOperand ← foldExpressionRecursive ds operand
    foldUnary ds op (foldedOperand.getD operand)
  | .cast target value => do
    let foldedValue ← foldExpressionRecursive ds value
    if isNoopPrimitiveCast (foldedValue.getD value).kind target then .ok (some (foldedValue.getD value))
    else .ok (foldedValue.map (.cast target))
  | .literal _ | .leaf _ _ => .ok none

end Tablo.Folding
