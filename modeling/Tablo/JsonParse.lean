import Tablo.JsonGrammar

/-! `jsonParse` of `builtins.c`: a fast route for scalars, flat arrays and flat
objects, and the general one through the tree of the cJSON reader. Pointers into
the text are what is left of it up to the end that the trimming leaves. -/

namespace Tablo.Json

open Encoding (Byte Text)
open HttpRequest (isspace trimBounds cstring)

/-- What the C library says about a number token, and the conversion of an `int64_t` to a `double`.
`rangeError` is an error of `strtod` or a result that is not finite. -/
structure Host (D : Type) where
  strtod : Text → D
  rangeError : Text → Bool
  ofInt : Int → D

inductive Value (D : Type) where
  | nil
  | bool (b : Bool)
  | int (i : Int)
  | double (d : D)
  | string (s : Text)
  | array (elements : List (Value D))
  | map (entries : List (Text × Value D))

/-- `obj_map_set`: the entries of a map have different keys. -/
def objMapSet {α : Type} (key : Text) (value : α) : List (Text × α) → List (Text × α)
  | [] => [(key, value)]
  | e :: es => if e.1 = key then (key, value) :: es else e :: objMapSet key value es

def magnitude (digits : Text) : Nat := digits.foldl (fun value b => value * 10 + (b.toNat - 48)) 0

def strtoll (n : Text) : Int := if n.head? = some 45 then -(magnitude n.tail : Int) else magnitude n

/-- `strtoll` reports no range error. -/
def fits (i : Int) : Bool := -2 ^ 63 ≤ i && i ≤ 2 ^ 63 - 1

/-! ### The fast route -/

variable (t : Text)

def scanDigits : Text := t.dropWhile isDigit

def scanDigits1 : Option Text := if t.head?.any isDigit then some (scanDigits t) else none

def dropSign (minusOnly : Bool) : Text → Text
  | [] => []
  | b :: r => if b = 45 ∨ (b = 43 ∧ minusOnly = false) then r else b :: r

def scanInt : Text → Option Text
  | [] => none
  | b :: r =>
    if b = 48 then some r
    else if 49 ≤ b.toNat ∧ b.toNat ≤ 57 then some (scanDigits r)
    else none

def scanFraction : Option (Bool × Text) :=
  if t.head? = some 46 then (scanDigits1 t.tail).map fun r => (true, r) else some (false, t)

def scanExponent : Option (Bool × Text) :=
  if t.head? = some 101 ∨ t.head? = some 69 then
    (scanDigits1 (dropSign false t.tail)).map fun r => (true, r)
  else some (false, t)

/-- The scan that `json_parse_fast_number_token` and `json_parse_fast_number_ptr` have in common:
whether there is a fraction or an exponent, and where the number ends. -/
def scanNumber : Option (Bool × Text) := do
  let p ← scanInt (dropSign true t)
  let (frac, p) ← scanFraction p
  let (exp, p) ← scanExponent p
  some (frac || exp, p)

variable {D : Type} (host : Host D) (reader : Reader)

def jsonParseFastNumberToken (token : Text) : Option (Value D) := do
  let (isFloat, p) ← scanNumber token
  if p ≠ [] then none
  else if isFloat then
    if host.rangeError token then none else some (.double (host.strtod token))
  else if fits (strtoll token) then some (.int (strtoll token))
  else none

def jsonParseFastNumberPtr (t : Text) : Option (Value D × Text) := do
  let (_, p) ← scanNumber t
  let v ← jsonParseFastNumberToken host (t.take (t.length - p.length))
  some (v, p)

def jsonParseFastPlainString (s : Text) : Option (Value D) :=
  if s.length < 2 then none
  else if s.head? ≠ some 34 ∨ s.getLast? ≠ some 34 then none
  else if s.tail.dropLast.any fun b => b = 92 || b.toNat < 0x20 then none
  else some (.string s.tail.dropLast)

def plainChars : Text → Option (Text × Text)
  | [] => none
  | b :: r =>
    if b = 34 then some ([], r)
    else if b = 92 ∨ b.toNat < 0x20 then none
    else (plainChars r).map fun (s, r) => (b :: s, r)

def jsonParseFastPlainStringPtr : Text → Option (Text × Text)
  | [] => none
  | b :: r => if b = 34 then plainChars r else none

def nullText : Text := [110, 117, 108, 108]
def trueText : Text := [116, 114, 117, 101]
def falseText : Text := [102, 97, 108, 115, 101]

def jsonParseFastLiteralPtr (t : Text) : Option (Value D × Text) :=
  if trueText.isPrefixOf t then some (.bool true, t.drop 4)
  else if falseText.isPrefixOf t then some (.bool false, t.drop 5)
  else if nullText.isPrefixOf t then some (.nil, t.drop 4)
  else none

def numberStart (b : Byte) : Bool := b = 45 || isDigit b

def jsonParseFastPrimitivePtr (t : Text) : Option (Value D × Text) :=
  match t with
  | [] => none
  | b :: _ =>
    if b = 34 then (jsonParseFastPlainStringPtr t).map fun (s, r) => (.string s, r)
    else if numberStart b then jsonParseFastNumberPtr host t
    else if b = 116 ∨ b = 102 ∨ b = 110 then jsonParseFastLiteralPtr t
    else none

def jsonParseFastScalar (t : Text) : Option (Value D) :=
  let s := trimBounds t
  if s = [] then none
  else if s = nullText then some .nil
  else if s = trueText then some (.bool true)
  else if s = falseText then some (.bool false)
  else if s.head? = some 34 ∧ s.getLast? = some 34 then jsonParseFastPlainString s
  else if s.head?.any numberStart then jsonParseFastNumberToken host s
  else none

/-- The loop of `json_parse_fast_primitive_array_ptr`. Every round takes a byte, so that as many rounds
as there are bytes are enough. -/
def arrayLoop : Nat → Text → Option (List (Value D) × Text)
  | 0, _ => none
  | n + 1, p => do
    let (elem, p) ← jsonParseFastPrimitivePtr host p
    match skip isspace p with
    | [] => none
    | b :: q =>
      if b = 44 then do
        let (elems, q) ← arrayLoop n (skip isspace q)
        some (elem :: elems, q)
      else if b = 93 then some ([elem], q)
      else none

def jsonParseFastPrimitiveArrayPtr : Text → Option (Value D × Text)
  | [] => none
  | b :: r =>
    if b ≠ 91 then none
    else
      let p := skip isspace r
      if p.head? = some 93 then some (.array [], p.tail)
      else (arrayLoop host p.length p).map fun (elems, q) => (.array elems, q)

def memberValue (p : Text) : Option (Value D × Text) :=
  if p.head? = some 91 then jsonParseFastPrimitiveArrayPtr host p else jsonParseFastPrimitivePtr host p

def objectLoop : Nat → List (Text × Value D) → Text → Option (List (Text × Value D) × Text)
  | 0, _, _ => none
  | n + 1, map, p => do
    let (key, p) ← jsonParseFastPlainStringPtr p
    match skip isspace p with
    | [] => none
    | b :: q =>
      if b ≠ 58 then none
      else do
        let (val, q) ← memberValue host (skip isspace q)
        match skip isspace q with
        | [] => none
        | b :: q =>
          if b = 44 then objectLoop n (objMapSet key val map) (skip isspace q)
          else if b = 125 then some (objMapSet key val map, q)
          else none

def jsonParseFastFlatObjectPtr : Text → Option (Value D × Text)
  | [] => none
  | b :: r =>
    if b ≠ 123 then none
    else
      let p := skip isspace r
      if p.head? = some 125 then some (.map [], p.tail)
      else (objectLoop host p.length [] p).map fun (map, q) => (.map map, q)

def jsonParseFastCommon (json : Text) : Option (Value D) :=
  let s := trimBounds json
  match s with
  | [] => none
  | b :: _ => do
    let (parsed, p) ←
      if b = 123 then jsonParseFastFlatObjectPtr host s
      else if b = 91 then jsonParseFastPrimitiveArrayPtr host s
      else (jsonParseFastScalar host (skip isspace json)).map fun v => (v, [])
    if skip isspace p ≠ [] then none else some parsed

/-! ### The general route -/

def cJsonIsInt64 : Json → Bool
  | .number n => !fractional n && fits (strtoll n)
  | _ => false

def cJsonGetInt64Value : Json → Int
  | .number n => strtoll n
  | _ => 0

def cJsonGetNumberValue (n : Text) : D :=
  if cJsonIsInt64 (.number n) then host.ofInt (strtoll n) else host.strtod n

inductive ArrayKind where
  | boxed | int | double | bool
  deriving DecidableEq, Repr

/-- One round of the detection; `none` is the early return. -/
def detectStep (detected : ArrayKind) : Json → Option ArrayKind
  | .number n =>
    if detected = .bool then none
    else if cJsonIsInt64 (.number n) then some (if detected = .boxed then .int else detected)
    else some .double
  | .bool _ => if detected = .boxed ∨ detected = .bool then some .bool else none
  | .null | .string _ | .array _ | .object _ => none

def detectLoop (detected : ArrayKind) : List Json → ArrayKind
  | [] => detected
  | child :: rest =>
    match detectStep detected child with
    | none => .boxed
    | some kind => detectLoop kind rest

def jsonDetectDensePrimitiveArrayKind (children : List Json) : ArrayKind := detectLoop .boxed children

def denseElement (kind : ArrayKind) : Json → Value D
  | .number n => if kind = .int then .int (strtoll n) else .double (cJsonGetNumberValue host n)
  | .bool b => .bool b
  | .null | .string _ | .array _ | .object _ => .nil

def scalarFromCjson (n : Text) : Value D :=
  if cJsonIsInt64 (.number n) then .int (cJsonGetInt64Value (.number n)) else .double (cJsonGetNumberValue host n)

mutual

def jsonFromCjson (depth : Nat) : Json → Option (Value D)
  | .null => if nestingLimit < depth then none else some .nil
  | .bool b => if nestingLimit < depth then none else some (.bool b)
  | .number n => if nestingLimit < depth then none else some (scalarFromCjson host n)
  | .string s => if nestingLimit < depth then none else some (.string (cstring s.bytes))
  | .array children =>
    if nestingLimit < depth then none
    else
      let kind := jsonDetectDensePrimitiveArrayKind children
      if children.length > 0 ∧ kind ≠ .boxed then some (.array (children.map (denseElement host kind)))
      else (elementsFromCjson (depth + 1) children).map .array
  | .object children =>
    if nestingLimit < depth then none
    else (membersFromCjson (depth + 1) [] children).map .map

def elementsFromCjson (depth : Nat) : List Json → Option (List (Value D))
  | [] => some []
  | child :: rest => do
    let elem ← jsonFromCjson depth child
    let elems ← elementsFromCjson depth rest
    some (elem :: elems)

def membersFromCjson (depth : Nat) (map : List (Text × Value D)) :
    List (Str × Json) → Option (List (Text × Value D))
  | [] => some map
  | (name, child) :: rest => do
    let val ← jsonFromCjson depth child
    membersFromCjson depth (objMapSet (cstring name.bytes) val map) rest

end

/-- The cJSON reader. It reads one value off the front of the text, as `cJSON_Parse` does not ask for
the end of the text behind it. -/
structure Reader where
  cJsonParse : Text → Option Json
  correct : ∀ t j, cJsonParse t = some j ↔ Front t j

def jsonParseGeneral (json : Text) : Option (Value D) := do
  let root ← reader.cJsonParse json
  jsonFromCjson host 0 root

def quickStart (b : Byte) : Bool :=
  b = 34 || numberStart b || b = 116 || b = 102 || b = 110 || b = 123 || b = 91

/-- `builtin_json_parse`; `none` is a reported error. -/
def jsonParse (text : Text) : Option (Value D) :=
  let json := cstring text
  if (skip isspace json).head?.any quickStart then
    (jsonParseFastCommon host json).or (jsonParseGeneral host reader json)
  else jsonParseGeneral host reader json

end Tablo.Json
