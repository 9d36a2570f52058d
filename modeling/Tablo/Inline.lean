import Mathlib.Algebra.GroupWithZero.Nat
import Mathlib.Data.List.Basic

/-! Inlining of calls. `compileInlineCall` accepts a call of a small function with simple
arguments and emits the function's body in place of the call, with the arguments and some of
the declared variables substituted for their names. -/

namespace Tablo.Inline

inductive TypeKind where
  | int | double | bool | string | bigint | other
  deriving DecidableEq, Repr

inductive BinaryOp where
  | plus | minus | star | slash | percent
  | eqEq | bangEq | lt | ltEq | gt | gtEq
  | and | or | bitAnd | bitOr | bitXor
  deriving DecidableEq, Repr

inductive UnaryOp where
  | minus | not | bitNot
  deriving DecidableEq, Repr

/-- Expressions over identifiers of type `I`: names in the source, slots and global names once
compiled. The kinds of expression that the inliner never looks into are `other`. -/
inductive Expr (I V : Type) where
  | literal (type : TypeKind) (value : V)
  | identifier (name : I)
  | binary (op : BinaryOp) (left right : Expr I V)
  | unary (op : UnaryOp) (operand : Expr I V)
  | cast (target : TypeKind) (value : Expr I V)
  | other (index : Nat)
  deriving DecidableEq, Repr

variable {I J V E : Type}

def TypeKind.isPrimitive : TypeKind → Bool
  | .int | .double | .bool => true
  | _ => false

def exprInlineEligible : Expr I V → Bool
  | .literal type _ => type.isPrimitive
  | .identifier _ => true
  | .binary _ left right => exprInlineEligible left && exprInlineEligible right
  | .unary _ operand => exprInlineEligible operand
  | .cast target value => target.isPrimitive && exprInlineEligible value
  | .other _ => false

def exprNodeCount : Expr I V → Nat
  | .literal _ _ | .identifier _ => 1
  | .binary _ left right => 1 + exprNodeCount left + exprNodeCount right
  | .unary _ operand => 1 + exprNodeCount operand
  | .cast _ value => 1 + exprNodeCount value
  | .other _ => 1000

def exprCountIdentifier (name : String) : Expr String V → Nat
  | .identifier x => if x = name then 1 else 0
  | .binary _ left right => exprCountIdentifier name left + exprCountIdentifier name right
  | .unary _ operand => exprCountIdentifier name operand
  | .cast _ value => exprCountIdentifier name value
  | .literal _ _ | .other _ => 0

def exprInlineSubstitutionSafe : Expr I V → Bool
  | .identifier _ | .literal _ _ => true
  | _ => false

inductive Stmt (V : Type) where
  | varDecl (name : String) (initializer : Option (Expr String V))
  | returnStmt (value : Option (Expr String V))
  | other (index : Nat)

def Stmt.declared? : Stmt V → Option String
  | .varDecl name _ => some name
  | _ => none

/-- A function that passed the type checker: the parameters and the variables of the body live
in one scope, so no name is declared twice. -/
structure FuncDecl (V : Type) where
  isAsync : Bool
  returnType : TypeKind
  params : List String
  body : List (Stmt V)
  nodup : (params ++ body.filterMap Stmt.declared?).Nodup

structure VarDecl (V : Type) where
  name : String
  init : Expr String V

def findParamIndex (params : List String) (name : String) : Option Nat :=
  params.findIdx? (· == name)

def inlineDecl (params : List String) : Stmt V → Option (VarDecl V)
  | .varDecl name (some init) =>
    if (findParamIndex params name).isNone && exprInlineEligible init then some ⟨name, init⟩ else none
  | _ => none

def inlineReturn : Stmt V → Option (Expr String V)
  | .returnStmt (some value) => if exprInlineEligible value then some value else none
  | _ => none

/-- `func_inline_eligible`; an eligible body is returned as its declarations and the returned
expression. -/
def funcInlineEligible (f : FuncDecl V) : Option (List (VarDecl V) × Expr String V) := do
  guard (!f.isAsync && f.returnType.isPrimitive)
  let last ← f.body.getLast?
  let value ← inlineReturn last
  let decls ← f.body.dropLast.mapM (inlineDecl f.params)
  guard (f.body.length ≤ 16 && f.params.length ≤ 8)
  return (decls, value)

def exprSubstituteParams (params : List String) (args : List (Expr String V)) :
    Expr String V → Expr String V
  | .identifier x =>
    match (findParamIndex params x).bind (args[·]?) with
    | some arg => arg
    | none => .identifier x
  | .binary op left right =>
    .binary op (exprSubstituteParams params args left) (exprSubstituteParams params args right)
  | .unary op operand => .unary op (exprSubstituteParams params args operand)
  | .cast target value => .cast target (exprSubstituteParams params args value)
  | e@(.literal _ _) | e@(.other _) => e

def exprSubstituteIdentifier (name : String) (replacement : Expr String V) :
    Expr String V → Expr String V
  | .identifier x => if x = name then replacement else .identifier x
  | .binary op left right =>
    .binary op (exprSubstituteIdentifier name replacement left) (exprSubstituteIdentifier name replacement right)
  | .unary op operand => .unary op (exprSubstituteIdentifier name replacement operand)
  | .cast target value => .cast target (exprSubstituteIdentifier name replacement value)
  | e@(.literal _ _) | e@(.other _) => e

/-- A declaration with the decision made for it: substituted into the returned expression, or
kept as a local. -/
structure Decision (V : Type) extends VarDecl V where
  inlined : Bool

def usesInKeptInits (name : String) (later : List (Decision V)) : Nat :=
  ((later.filter (!·.inlined)).map (exprCountIdentifier name ·.init)).sum

def doInline (d : VarDecl V) (later : List (Decision V)) (ret : Expr String V) : Bool :=
  let uses := exprCountIdentifier d.name ret
  decide (0 < uses) && usesInKeptInits d.name later == 0 && (uses == 1 || (uses ≤ 2 && exprNodeCount d.init ≤ 4))

def inlineVars (params : List String) (args : List (Expr String V)) (ret : Expr String V) :
    List (VarDecl V) → List (Decision V) × Expr String V
  | [] => ([], ret)
  | d :: ds =>
    let (later, ret') := inlineVars params args ret ds
    if doInline d later ret' then
      (⟨d, true⟩ :: later, exprSubstituteIdentifier d.name (exprSubstituteParams params args d.init) ret')
    else (⟨d, false⟩ :: later, ret')

section Code

inductive Ref where
  | local (slot : Nat)
  | global (name : String)
  deriving DecidableEq, Repr

variable (names : List (Option String))

/-- `resolve_local`: the last slot of that name. Slots of closed scopes have no name. -/
def resolveLocal (name : String) : Option Nat :=
  (List.range names.length).reverse.find? fun i => names[i]? == some (some name)

def compileIdentifier (name : String) : Ref :=
  match resolveLocal names name with
  | some slot => .local slot
  | none => .global name

def Expr.map (r : I → J) : Expr I V → Expr J V
  | .literal type value => .literal type value
  | .identifier x => .identifier (r x)
  | .binary op left right => .binary op (left.map r) (right.map r)
  | .unary op operand => .unary op (operand.map r)
  | .cast target value => .cast target (value.map r)
  | .other index => .other index

def compileExpression (e : Expr String V) : Expr Ref V :=
  e.map (compileIdentifier names)

/-- Code of declarations followed by an expression: values stored into slots, then the value
that is left on the stack. -/
structure Code (V : Type) where
  stores : List (Nat × Expr Ref V)
  result : Expr Ref V

def compileBody (names : List (Option String)) (ret : Expr String V) : List (VarDecl V) → Code V
  | [] => ⟨[], compileExpression names ret⟩
  | d :: ds =>
    let rest := compileBody (names ++ [some d.name]) ret ds
    ⟨(names.length, compileExpression names d.init) :: rest.stores, rest.result⟩

def keptDecls (params : List String) (args : List (Expr String V)) (ds : List (Decision V)) :
    List (VarDecl V) :=
  (ds.filter (!·.inlined)).map fun d => ⟨d.name, exprSubstituteParams params args d.init⟩

/-- `compile_inline_call` in a function whose slots have these names. -/
def compileInlineCall (isTopLevel : Bool) (names : List (Option String)) (f : FuncDecl V)
    (args : List (Expr String V)) : Option (Code V) := do
  guard (!isTopLevel)
  let (decls, value) ← funcInlineEligible f
  guard (args.length = f.params.length)
  guard (args.all exprInlineSubstitutionSafe)
  let (decisions, ret) :=
    inlineVars f.params args (exprSubstituteParams f.params args value) decls
  let kept := keptDecls f.params args decisions
  guard (names.length + kept.length ≤ 256)
  return compileBody names ret kept

end Code

/-- The operators of the machine. `binary` is used for the operators that evaluate both
operands. -/
structure Machine (V E : Type) where
  binary : BinaryOp → V → V → Except E V
  unary : UnaryOp → V → Except E V
  cast : TypeKind → V → Except E V
  asBool : V → Except E Bool
  other : Nat → Except E V

/-- `compile_binary`: the code of `and` and `or` jumps over the right operand when the left one
decides. -/
def evalBinary (M : Machine V E) (op : BinaryOp) (left right : Except E V) : Except E V := do
  let a ← left
  match op with
  | .and => if ← M.asBool a then right else .ok a
  | .or => if ← M.asBool a then .ok a else right
  | op => M.binary op a (← right)

def Expr.eval (M : Machine V E) (load : I → Except E V) : Expr I V → Except E V
  | .literal _ value => .ok value
  | .identifier x => load x
  | .binary op left right => evalBinary M op (left.eval M load) (right.eval M load)
  | .unary op operand => do M.unary op (← operand.eval M load)
  | .cast target value => do M.cast target (← value.eval M load)
  | .other index => M.other index

abbrev Frame (V : Type) := Nat → V

/-- Loading a global never fails: a name that has no value yet reads as nil. -/
def loadRef (globals : String → V) (frame : Frame V) : Ref → V
  | .local slot => frame slot
  | .global name => globals name

def runStores (M : Machine V E) (globals : String → V) :
    List (Nat × Expr Ref V) → Frame V → Except E (Frame V)
  | [], frame => .ok frame
  | (slot, e) :: stores, frame => do
    let v ← e.eval M fun r => .ok (loadRef globals frame r)
    runStores M globals stores (Function.update frame slot v)

def Code.run (M : Machine V E) (globals : String → V) (c : Code V) (frame : Frame V) :
    Except E (V × Frame V) := do
  let frame ← runStores M globals c.stores frame
  let v ← c.result.eval M fun r => .ok (loadRef globals frame r)
  return (v, frame)

def argFrame [Inhabited V] (values : List V) : Frame V := fun slot => (values[slot]?).getD default

def functionCode (params : List String) (decls : List (VarDecl V)) (value : Expr String V) : Code V :=
  compileBody (params.map some) value decls

def callFunction [Inhabited V] (M : Machine V E) (globals : String → V) (params : List String)
    (decls : List (VarDecl V)) (value : Expr String V) (names : List (Option String))
    (args : List (Expr String V)) (frame : Frame V) : Except E V := do
  let values ← args.mapM fun a =>
    (compileExpression names a).eval M fun r => .ok (loadRef globals frame r)
  ((functionCode params decls value).run M globals (argFrame values)).map Prod.fst

end Tablo.Inline
