import Tablo.Encoding

/-! Named types and their resolution: how generic records, aliases and enums are
applied to type arguments. A text is its bytes. A record definition is shared by
pointer in the source; here its name stands for it. -/

namespace Tablo.GenericTypes

open Encoding (Byte ascii)

abbrev Text := Encoding.Text

def isWord (b : Byte) : Bool :=
  (97 ≤ b.toNat && b.toNat ≤ 122) || (65 ≤ b.toNat && b.toNat ≤ 90) || (48 ≤ b.toNat && b.toNat ≤ 57) || b = 95

structure Ident where
  text : Text
  word : ∀ b ∈ text, isWord b = true
  deriving DecidableEq

inductive Prim where
  | bool | double | bigint | string | bytes
  deriving DecidableEq, Repr

/-- The kinds whose text never shows that they are nullable. -/
inductive Blank where
  | nil | void | any
  deriving DecidableEq, Repr

inductive CellKind where
  | array | future | set
  deriving DecidableEq, Repr

mutual

inductive Ty where
  | int (enumName : Option Text) (nullable : Bool)
  | prim (kind : Prim) (nullable : Bool)
  | blank (kind : Blank) (nullable : Bool)
  | typeParam (name : Text) (nullable : Bool)
  | cell (kind : CellKind) (element : Ty) (nullable : Bool)
  | map (key value : Ty) (nullable : Bool)
  | tuple (elements : Tys) (nullable : Bool)
  | function (typeParams : TypeParams) (params : Tys) (result : Ty) (nullable : Bool)
  | record (name : Text) (args : Tys) (nullable : Bool)
  | interface (name : Text) (nullable : Bool)

inductive Tys where
  | nil
  | cons (head : Ty) (tail : Tys)

/-- The type parameters of a generic function, each with its constraint if it has one. -/
inductive TypeParams where
  | nil
  | plain (name : Text) (tail : TypeParams)
  | bounded (name : Text) (constraint : Ty) (tail : TypeParams)

end

def Tys.length : Tys → Nat
  | .nil => 0
  | .cons _ ts => ts.length + 1

def Tys.toList : Tys → List Ty
  | .nil => []
  | .cons t ts => t :: ts.toList

def Ty.nullable : Ty → Bool
  | .int _ n | .prim _ n | .blank _ n | .typeParam _ n | .cell _ _ n | .map _ _ n | .tuple _ n
  | .function _ _ _ n | .record _ _ n | .interface _ n => n

def Ty.setNullable (n : Bool) : Ty → Ty
  | .int e _ => .int e n
  | .prim k _ => .prim k n
  | .blank k _ => .blank k n
  | .typeParam s _ => .typeParam s n
  | .cell k e _ => .cell k e n
  | .map k v _ => .map k v n
  | .tuple es _ => .tuple es n
  | .function tps ps r _ => .function tps ps r n
  | .record s as _ => .record s as n
  | .interface s _ => .interface s n

def Ty.orNullable (t : Ty) (n : Bool) : Ty := t.setNullable (t.nullable || n)

def anyType (n : Bool) : Ty := .blank .any n

/-! ### Printing -/

def Prim.text : Prim → Text
  | .bool => ascii "bool"
  | .double => ascii "double"
  | .bigint => ascii "bigint"
  | .string => ascii "string"
  | .bytes => ascii "bytes"

def Blank.text : Blank → Text
  | .nil => ascii "nil"
  | .void => ascii "void"
  | .any => ascii "any"

def CellKind.text : CellKind → Text
  | .array => ascii "array"
  | .future => ascii "Future"
  | .set => ascii "set"

def mark (nullable : Bool) : Text := if nullable then ascii "?" else []

mutual

/-- The text `type_to_string` formats, before it is cut to the caller's buffer. Nested texts are
cut to the buffers of the function itself, of 256 or 512 bytes (128 for a constraint). -/
def compose : Ty → Text
  | .int _ n => ascii "int" ++ mark n
  | .prim k n => k.text ++ mark n
  | .blank k _ => k.text
  | .typeParam name n => name ++ mark n
  | .cell k e n => k.text ++ ascii "<" ++ (compose e).take 255 ++ ascii ">" ++ mark n
  | .map k v n =>
    ascii "map<" ++ (compose k).take 255 ++ ascii ", " ++ (compose v).take 255 ++ ascii ">" ++ mark n
  | .tuple es n => ascii "(" ++ (composeAll (ascii ", ") es).take 511 ++ ascii ")" ++ mark n
  | .function tps ps r _ =>
    ascii "func" ++ (composeParams tps).take 255 ++ ascii "(" ++ (composeAll (ascii ", ") ps).take 511 ++
      ascii "): " ++ (compose r).take 255
  | .record name args n =>
    -- the name of an instance already shows its arguments
    ascii "record " ++ name ++ (if 91 ∈ name then [] else (composeArgs args).take 511) ++ mark n
  | .interface name n => ascii "interface " ++ name ++ mark n

def composeAll (separator : Text) : Tys → Text
  | .nil => []
  | .cons t ts => (compose t).take 255 ++ composeRest separator ts

def composeRest (separator : Text) : Tys → Text
  | .nil => []
  | .cons t ts => separator ++ (compose t).take 255 ++ composeRest separator ts

def composeArgs : Tys → Text
  | .nil => []
  | .cons t ts => ascii "[" ++ (compose t).take 255 ++ composeRest (ascii ", ") ts ++ ascii "]"

def composeParams : TypeParams → Text
  | .nil => []
  | .plain name ps => ascii "[" ++ name ++ composeMore ps ++ ascii "]"
  | .bounded name c ps => ascii "[" ++ name ++ ascii ": " ++ (compose c).take 127 ++ composeMore ps ++ ascii "]"

def composeMore : TypeParams → Text
  | .nil => []
  | .plain name ps => ascii ", " ++ name ++ composeMore ps
  | .bounded name c ps => ascii ", " ++ name ++ ascii ": " ++ (compose c).take 127 ++ composeMore ps

end

def typeToString (type : Ty) (bufferSize : Nat) : Text := (compose type).take (bufferSize - 1)

def buildGenericKey (name : Text) (args : Tys) : Text :=
  name ++ ascii "[" ++ composeAll (ascii ",") args ++ ascii "]"

/-! ### Substitution -/

mutual

def containsTypeParam : Ty → Bool
  | .int _ _ | .prim _ _ | .blank _ _ | .interface _ _ => false
  | .typeParam _ _ => true
  | .cell _ e _ => containsTypeParam e
  | .map k v _ => containsTypeParam k || containsTypeParam v
  | .tuple es _ => anyContainsTypeParam es
  | .function tps ps r _ =>
    containsTypeParam r || anyContainsTypeParam ps || boundContainsTypeParam tps
  | .record _ args _ => anyContainsTypeParam args

def anyContainsTypeParam : Tys → Bool
  | .nil => false
  | .cons t ts => containsTypeParam t || anyContainsTypeParam ts

def boundContainsTypeParam : TypeParams → Bool
  | .nil => false
  | .plain _ ps => boundContainsTypeParam ps
  | .bounded _ c ps => containsTypeParam c || boundContainsTypeParam ps

end

def binding (name : Text) : List Text → List Ty → Option Ty
  | p :: ps, t :: ts => if p = name then some t else binding name ps ts
  | _, _ => none

section Substitute

variable (params : List Text) (bound : List Ty)

mutual

def substituteGenericType : Ty → Ty
  | .typeParam name n =>
    match binding name params bound with
    | some t => t.orNullable n
    | none => anyType n
  | .cell k e n => .cell k (substituteGenericType e) n
  | .map k v n => .map (substituteGenericType k) (substituteGenericType v) n
  | .tuple es n => .tuple (substituteAll es) n
  | .function tps ps r n => .function tps (substituteAll ps) (substituteGenericType r) n
  | .record name args n => .record name (substituteAll args) n
  | .int e n => .int e n
  | .prim k n => .prim k n
  | .blank k n => .blank k n
  | .interface name n => .interface name n

def substituteAll : Tys → Tys
  | .nil => .nil
  | .cons t ts => .cons (substituteGenericType t) (substituteAll ts)

end

end Substitute

/-! ### Declarations -/

structure RecordDecl where
  name : Ident
  typeParams : List Text
  generic : typeParams ≠ []
  fields : List (Text × Ty)

structure AliasDecl where
  name : Ident
  typeParams : List Text
  generic : typeParams ≠ []
  target : Ty

structure EnumDecl where
  name : Ident
  typeParams : List Text
  generic : typeParams ≠ []

/-- A global symbol. `accessible` says whether the file that is checked may use it. -/
structure Symbol where
  isTypeAlias : Bool
  type : Ty
  accessible : Bool

/-- What the checker knows while it resolves a type: the generic declarations and the globals. -/
structure Env where
  records : List RecordDecl
  aliases : List AliasDecl
  enums : List EnumDecl
  symbol : Text → Option Symbol

namespace Env

def findRecord (env : Env) (name : Text) : Option RecordDecl := env.records.find? (·.name.text = name)
def findAlias (env : Env) (name : Text) : Option AliasDecl := env.aliases.find? (·.name.text = name)
def findEnum (env : Env) (name : Text) : Option EnumDecl := env.enums.find? (·.name.text = name)

def hidden (env : Env) (name : Text) : Bool := (env.symbol name).any (!·.accessible)

end Env

structure Instance where
  key : Text
  args : Tys
  fields : List (Text × Ty)

abbrev Registry := List Instance

namespace Registry

variable (reg : Registry)

def findInstance (key : Text) : Option Instance := reg.find? (·.key = key)

def addInstance (key : Text) (args : Tys) : Registry := reg ++ [⟨key, args, []⟩]

def setFields (key : Text) (fields : List (Text × Ty)) : Registry :=
  reg.map fun e => if e.key = key then { e with fields := fields } else e

end Registry

/-! ### Resolution -/

def resolvePlain (env : Env) (name : Text) (args : Tys) (n : Bool) : Ty :=
  match env.symbol name with
  | none => .record name args n
  | some symbol =>
    match symbol.type with
    | .interface iface m =>
      if args.length ≠ 0 ∧ symbol.isTypeAlias then anyType n else .interface iface (m || n)
    | .record definition as m =>
      if args.length ≠ 0 then anyType n
      else if symbol.isTypeAlias then .record definition as (m || n) else .record definition args n
    | type =>
      if symbol.isTypeAlias then
        if args.length ≠ 0 then anyType n else type.orNullable n
      else .record name args n

def resolveFuture : Tys → Bool → Ty
  | .cons t .nil, n => .cell .future t n
  | _, n => anyType n

variable (env : Env)

mutual

/-- `typechecker_resolve_type`; `none` is that the fuel did not suffice. -/
def resolve : Nat → Registry → Ty → Option (Registry × Ty)
  | 0, _, _ => none
  | fuel + 1, reg, type =>
    match type with
    | .cell k e n =>
      if k = .future then some (reg, .cell k e n)
      else do
        let (reg, e) ← resolve fuel reg e
        some (reg, .cell k e n)
    | .function tps ps r n => do
      let (reg, r) ← resolve fuel reg r
      let (reg, ps) ← resolveAll fuel reg ps
      some (reg, .function tps ps r n)
    | .tuple es n => do
      let (reg, es) ← resolveAll fuel reg es
      some (reg, .tuple es n)
    | .map k v n => do
      let (reg, k) ← resolve fuel reg k
      let (reg, v) ← resolve fuel reg v
      some (reg, .map k v n)
    | .record name args n => do
      let (reg, args) ← resolveAll fuel reg args
      resolveNamed fuel reg name args n
    | .int e n => some (reg, .int e n)
    | .prim k n => some (reg, .prim k n)
    | .blank k n => some (reg, .blank k n)
    | .typeParam name n => some (reg, .typeParam name n)
    | .interface name n => some (reg, .interface name n)

def resolveAll : Nat → Registry → Tys → Option (Registry × Tys)
  | 0, _, _ => none
  | _ + 1, reg, .nil => some (reg, .nil)
  | fuel + 1, reg, .cons t ts => do
    let (reg, t) ← resolve fuel reg t
    let (reg, ts) ← resolveAll fuel reg ts
    some (reg, .cons t ts)

/-- A name applied to resolved arguments. A wrong number of arguments is reported and gives `any`. -/
def resolveNamed : Nat → Registry → Text → Tys → Bool → Option (Registry × Ty)
  | 0, _, _, _, _ => none
  | fuel + 1, reg, name, args, n =>
    if name = ascii "Future" then some (reg, resolveFuture args n)
    else if env.hidden name then some (reg, .record name args n)
    else
      match env.findEnum name with
      | some decl =>
        if args.length ≠ decl.typeParams.length then some (reg, anyType n)
        else some (reg, .int (some (buildGenericKey decl.name.text args)) n)
      | none =>
        match env.findAlias name with
        | some decl =>
          if args.length ≠ decl.typeParams.length then some (reg, anyType n)
          else do
            let (reg, type) ← resolve fuel reg (substituteGenericType decl.typeParams args.toList decl.target)
            some (reg, type.orNullable n)
        | none =>
          match env.findRecord name with
          | some decl =>
            if args.length ≠ decl.typeParams.length then some (reg, anyType n)
            else instantiateGenericRecord fuel reg decl args n
          | none => some (reg, resolvePlain env name args n)

def instantiateGenericRecord : Nat → Registry → RecordDecl → Tys → Bool → Option (Registry × Ty)
  | 0, _, _, _, _ => none
  | fuel + 1, reg, decl, args, n =>
    if anyContainsTypeParam args then some (reg, .record decl.name.text args n)
    else
      let key := buildGenericKey decl.name.text args
      match reg.findInstance key with
      | some existing => some (reg, .record existing.key existing.args n)
      | none => do
        let (reg, fields) ← resolveFields fuel (reg.addInstance key args) decl.typeParams args decl.fields
        some (reg.setFields key fields, .record key args n)

def resolveFields : Nat → Registry → List Text → Tys → List (Text × Ty) →
    Option (Registry × List (Text × Ty))
  | 0, _, _, _, _ => none
  | _ + 1, reg, _, _, [] => some (reg, [])
  | fuel + 1, reg, params, args, (field, type) :: rest => do
    let (reg, type) ← resolve fuel reg (substituteGenericType params args.toList type)
    let (reg, rest) ← resolveFields fuel reg params args rest
    some (reg, (field, type) :: rest)

end

end Tablo.GenericTypes
