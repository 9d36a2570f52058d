import Tablo.Encoding

/-! The HTTP request reader of `builtins.c`. What the client sends is one list
of bytes, followed by the end of the connection; how `recv` cuts it into pieces
is a parameter of the reader. -/

namespace Tablo.HttpRequest

open Encoding (Byte char ascii)

abbrev Bytes := List Byte

inductive Code where
  | limit
  | parse
  | network
  deriving DecidableEq, Repr

structure Failure where
  code : Code
  message : String
  deriving DecidableEq, Repr

def tooLong : Failure := ⟨.limit, "HTTP request exceeds maxBytes"⟩
def closedEarly : Failure := ⟨.network, "Connection closed before full request"⟩
def invalidLength : Failure := ⟨.parse, "Invalid Content-Length header"⟩
def conflictingLength : Failure := ⟨.parse, "Conflicting Content-Length headers"⟩
def malformed : Failure := ⟨.parse, "Malformed HTTP request"⟩
def malformedLine : Failure := ⟨.parse, "Malformed HTTP request line"⟩
def bodyTooLong : Failure := ⟨.limit, "HTTP body exceeds max string length"⟩

def sizeMax : Nat := 2 ^ 64 - 1

def memchr (c : Byte) : Bytes → Option (Bytes × Bytes)
  | [] => none
  | b :: rest => if b = c then some ([], rest) else (memchr c rest).map fun (x, y) => (b :: x, y)

def isspace (b : Byte) : Bool := b = 32 || (9 ≤ b.toNat && b.toNat ≤ 13)

def tolower (b : Byte) : Byte := if 65 ≤ b.toNat ∧ b.toNat ≤ 90 then b + 32 else b

variable (text : Bytes) (limit : Nat)

/-- `trim_bounds`, and the copy of `httpx_trim_copy`. -/
def trimBounds : Bytes :=
  ((text.dropWhile isspace).reverse.dropWhile isspace).reverse

def cstring : Bytes := text.takeWhile (· ≠ 0)

def textEqualsIgnoreCase (a b : Bytes) : Bool := a.map tolower = b.map tolower

def parseDigits (value : Nat) : Bytes → Option Nat
  | [] => some value
  | b :: rest =>
    if b.toNat < 48 ∨ 57 < b.toNat then none
    else if (sizeMax - (b.toNat - 48)) / 10 < value then none
    else parseDigits (value * 10 + (b.toNat - 48)) rest

def parseSizeTDecimal : Option Nat := if text = [] then none else parseDigits 0 text

def indexOf (pattern : Bytes) : Bytes → Option Nat
  | [] => none
  | b :: rest => if pattern.isPrefixOf (b :: rest) then some 0 else (indexOf pattern rest).map (· + 1)

def crlf2 : Bytes := [13, 10, 13, 10]
def lf2 : Bytes := [10, 10]

def httpFindHeaderEnd (data : Bytes) : Option (Nat × Nat) :=
  match indexOf crlf2 data with
  | some i => some (i, 4)
  | none => (indexOf lf2 data).map fun i => (i, 2)

/-! ### Header lines -/

def headerLines (head : Bytes) : List Bytes :=
  match memchr 10 head with
  | none => []
  | some (_, rest) => rest.splitOn 10

def dropCr (line : Bytes) : Bytes := if line.getLast? = some 13 then line.dropLast else line

def headerField (line : Bytes) : Option (Bytes × Bytes) :=
  (memchr (char ':') (dropCr line)).map fun (key, value) => (trimBounds key, trimBounds value)

def contentLengthLine (seen : Option Nat) (line : Bytes) : Except Failure (Option Nat) :=
  match headerField line with
  | none => .ok seen
  | some (key, value) =>
    if textEqualsIgnoreCase (cstring key) (ascii "Content-Length") then
      match parseSizeTDecimal value with
      | none => .error invalidLength
      | some parsed =>
        if seen.any (· ≠ parsed) then .error conflictingLength else .ok (some parsed)
    else .ok seen

def httpRequestContentLength (head : Bytes) : Except Failure Nat := do
  let seen ← (headerLines head).foldlM contentLengthLine none
  return seen.getD 0

/-! ### The reader -/

/-- What the reader has learnt from the header block. The code keeps `total`
only, as `required_total`; the boundary it was computed from is kept for the
comparison with the one the parser finds. -/
structure Target where
  headerEnd : Nat
  delimLen : Nat
  total : Nat
  deriving DecidableEq, Repr

def scan (buf : Bytes) : Except Failure (Option Target) :=
  match httpFindHeaderEnd buf with
  | none => .ok none
  | some (headerEnd, delimLen) =>
    match httpRequestContentLength (buf.take headerEnd) with
    | .error f => .error f
    | .ok contentLength =>
      if sizeMax < headerEnd + delimLen + contentLength then .error tooLong
      else if limit < headerEnd + delimLen + contentLength then .error tooLong
      else .ok (some ⟨headerEnd, delimLen, headerEnd + delimLen + contentLength⟩)

def startCap : Nat :=
  let cap := if limit < 4096 then limit else 4096
  let cap := if cap < 256 then limit else cap
  if cap = 0 then 256 else cap

def doubleCap (need : Nat) : Nat → Nat → Nat
  | 0, cap => cap
  | fuel + 1, cap => if cap < need then doubleCap need fuel (cap * 2) else cap

def reserve (limit cap need : Nat) : Option Nat :=
  if cap < need then
    let cap := doubleCap need need cap
    let cap := if limit < cap then limit else cap
    if cap < need then none else some cap
  else some cap

/-- The number of bytes of one `recv` behind `len` bytes. A schedule says how many bytes more
than one are there at that moment; every way to cut the stream is such a function. -/
def received (schedule : Nat → Nat) (len : Nat) (rest : Bytes) : Nat :=
  min (schedule len + 1) (min (min 4096 (limit - len)) rest.length)

def readLoop (limit : Nat) (schedule : Nat → Nat) (cap : Nat) (buf rest : Bytes)
    (target : Option Target) : Except Failure (Bytes × Option Target) :=
  if target.any (·.total ≤ buf.length) then .ok (buf, target)
  else if hlimit : limit ≤ buf.length then .error tooLong
  else if hrest : rest = [] then .error closedEarly
  else
    let n := received limit schedule buf.length rest
    match reserve limit cap (buf.length + n + 1) with
    | none => .error tooLong
    | some cap =>
      match target with
      | some t => readLoop limit schedule cap (buf ++ rest.take n) (rest.drop n) (some t)
      | none =>
        match scan limit (buf ++ rest.take n) with
        | .error f => .error f
        | .ok found => readLoop limit schedule cap (buf ++ rest.take n) (rest.drop n) found
termination_by rest.length
decreasing_by
  all_goals
    have := List.length_pos_iff.mpr hrest
    simp only [List.length_drop, received]
    omega

def httpReadRawRequest (schedule : Nat → Nat) (stream : Bytes) :
    Except Failure (Bytes × Option Target) :=
  readLoop limit schedule (startCap limit) [] stream none

/-! ### The parser -/

structure Head where
  method : Bytes
  path : Bytes
  version : Bytes
  headers : List (Bytes × Bytes)
  deriving DecidableEq, Repr

structure Request where
  head : Head
  body : Bytes
  deriving DecidableEq, Repr

def setHeader (headers : List (Bytes × Bytes)) (key value : Bytes) : List (Bytes × Bytes) :=
  headers.filter (·.1 ≠ key) ++ [(key, value)]

def headerLine (headers : List (Bytes × Bytes)) (line : Bytes) : List (Bytes × Bytes) :=
  match headerField line with
  | none => headers
  | some (key, value) => if key = [] then headers else setHeader headers key (cstring value)

def parseHead (head : Bytes) : Except Failure Head :=
  match memchr 10 head with
  | none => .error malformedLine
  | some (line, _) =>
    match memchr (char ' ') (dropCr line) with
    | none => .error malformedLine
    | some (method, rest) =>
      match memchr (char ' ') rest with
      | none => .error malformedLine
      | some (path, version) =>
        let method := cstring (trimBounds method)
        let path := cstring (trimBounds path)
        let version := cstring (trimBounds version)
        if method = [] ∨ path = [] ∨ version = [] then .error malformedLine
        else .ok ⟨method, path, version, (headerLines head).foldl headerLine []⟩

/-- `maxString` is the limit of the machine's configuration, without effect when it is 0. -/
def httpParseRequestValue (maxString : Nat) (raw : Bytes) : Except Failure Request :=
  match httpFindHeaderEnd raw with
  | none => .error malformed
  | some (headerEnd, delimLen) => do
    let head ← parseHead (raw.take headerEnd)
    let body := raw.drop (headerEnd + delimLen)
    if 0 < maxString ∧ maxString < body.length then .error bodyTooLong
    else return ⟨head, cstring body⟩

/-- `builtin_http_read_request` on an open socket: reading, then parsing. -/
def httpReadRequest (limit maxString : Nat) (schedule : Nat → Nat) (stream : Bytes) :
    Except Failure Request := do
  let (raw, _) ← httpReadRawRequest limit schedule stream
  httpParseRequestValue maxString raw

end Tablo.HttpRequest
