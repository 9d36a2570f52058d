import Mathlib.Data.List.Basic

/-! `lib/regexp.tblo`: compiling a pattern, matching it at a position and
finding the first match. A string is the list of its characters, and an index
into a string is kept as the part of the string from there on. -/

namespace Tablo.Regexp

inductive Detail where
  | text (chars : List Char)
  | index (i : Nat)
  deriving DecidableEq, Repr

/-- An `Error` with code `ERR_PARSE`, the only code used here. -/
structure ParseError where
  message : String
  context : String
  detail : Detail
  deriving DecidableEq, Repr

def find (s : List Char) (ch : Char) : Int :=
  match s.idxOf? ch with
  | some i => i
  | none => -1

def digits : List Char := "0123456789".toList
def upper : List Char := "ABCDEFGHIJKLMNOPQRSTUVWXYZ".toList
def lower : List Char := "abcdefghijklmnopqrstuvwxyz".toList

variable (ch : Char)

def regexpIsDigit : Bool := 0 ≤ find digits ch

def regexpIsLetter : Bool := 0 ≤ find (lower ++ upper) ch

def regexpIsWordChar : Bool := regexpIsLetter ch || regexpIsDigit ch || ch == '_'

def regexpIsSpaceChar : Bool := ch == ' ' || ch == '\t' || ch == '\n' || ch == '\r'

inductive Quant where
  | once | star | plus | optional
  deriving DecidableEq, Repr

inductive ItemKind where
  | literal (value : Char)
  | digit | word | space
  deriving DecidableEq, Repr

inductive TokenKind where
  | item (kind : ItemKind)
  | any
  | class (value : List Char) (negate : Bool)
  deriving DecidableEq, Repr

structure RegexpToken where
  kind : TokenKind
  quant : Quant
  deriving DecidableEq, Repr

structure RegexpPattern where
  raw : List Char
  anchoredStart : Bool
  anchoredEnd : Bool
  tokens : List RegexpToken
  deriving DecidableEq, Repr

/-- `end` is the index after the last character. -/
structure RegexpMatch where
  start : Nat
  stop : Nat
  text : List Char
  deriving DecidableEq, Repr

def regexpEmptyPattern (raw : List Char) : RegexpPattern := ⟨raw, false, false, []⟩

def regexpDecodeEscape (ch : Char) : Except ParseError ItemKind :=
  match ch with
  | 'd' => .ok .digit
  | 'w' => .ok .word
  | 's' => .ok .space
  | 'n' => .ok (.literal '\n')
  | 't' => .ok (.literal '\t')
  | 'r' => .ok (.literal '\r')
  | '\\' => .ok (.literal '\\')
  | '.' => .ok (.literal '.')
  | '*' => .ok (.literal '*')
  | '+' => .ok (.literal '+')
  | '?' => .ok (.literal '?')
  | '^' => .ok (.literal '^')
  | '$' => .ok (.literal '$')
  | '[' => .ok (.literal '[')
  | ']' => .ok (.literal ']')
  | '(' => .ok (.literal '(')
  | ')' => .ok (.literal ')')
  | '{' => .ok (.literal '{')
  | '}' => .ok (.literal '}')
  | '|' => .ok (.literal '|')
  | '-' => .ok (.literal '-')
  | _ => .error ⟨"unsupported escape sequence", "regexpDecodeEscape.escape", .text [ch]⟩

/-- The loop of `regexpParseClass`; the result is the body and what follows the class. -/
def parseClassLoop (pattern body : List Char) : List Char → Except ParseError (List Char × List Char)
  | [] => .error ⟨"unterminated character class", "regexpParseClass.unterminated", .text pattern⟩
  | ']' :: rest =>
    if body = [] then
      .error ⟨"character class cannot be empty", "regexpParseClass.empty", .text pattern⟩
    else .ok (body, rest)
  | ['\\'] => .error ⟨"dangling escape in character class", "regexpParseClass.escape", .text pattern⟩
  | '\\' :: ch :: rest => parseClassLoop pattern (body ++ ['\\', ch]) rest
  | ch :: rest => parseClassLoop pattern (body ++ [ch]) rest

def regexpParseClass (pattern : List Char) :
    List Char → Except ParseError (List Char × Bool × List Char)
  | [] => .error ⟨"unterminated character class", "regexpParseClass.underflow", .text pattern⟩
  | '^' :: rest => do
    let (body, rest) ← parseClassLoop pattern [] rest
    return (body, true, rest)
  | rest => do
    let (body, rest) ← parseClassLoop pattern [] rest
    return (body, false, rest)

def regexpClassItemMatches : ItemKind → Bool
  | .literal value => ch == value
  | .digit => regexpIsDigit ch
  | .word => regexpIsWordChar ch
  | .space => regexpIsSpaceChar ch

/-- One alphabet of `regexpClassRangeMatch`: nothing if the bounds are not both in it. -/
def rangeWithin (alphabet : List Char) (ch lo hi : Char) : Option Bool :=
  let li := find alphabet lo
  let hii := find alphabet hi
  if 0 ≤ li ∧ 0 ≤ hii then
    let ci := find alphabet ch
    if ci < 0 then some false
    else if hii < li then some (hii ≤ ci && ci ≤ li)
    else some (li ≤ ci && ci ≤ hii)
  else none

/-- Whether the range holds the character, and whether it is a range at all. -/
def regexpClassRangeMatch (ch lo hi : Char) : Bool × Bool :=
  match rangeWithin digits ch lo hi with
  | some found => (found, true)
  | none =>
    match rangeWithin upper ch lo hi with
    | some found => (found, true)
    | none =>
      match rangeWithin lower ch lo hi with
      | some found => (found, true)
      | none => (false, false)

def regexpParseClassItem (body : List Char) : List Char → Except ParseError (ItemKind × List Char)
  | [] => .error ⟨"class item index out of bounds", "regexpParseClassItem.bounds", .index body.length⟩
  | ['\\'] => .error ⟨"dangling escape in class body", "regexpParseClassItem.escape", .text body⟩
  | '\\' :: ch :: rest => do
    let kind ← regexpDecodeEscape ch
    return (kind, rest)
  | ch :: rest => .ok (.literal ch, rest)

/-- The range that starts with the literal `lo`, with what follows it: a `-` and one more literal,
if these can be the bounds of a range. -/
def rangeAfter (body : List Char) (ch lo : Char) : List Char → Option (Bool × List Char)
  | '-' :: c :: more =>
    match regexpParseClassItem body (c :: more) with
    | .ok (.literal hi, rest) =>
      match regexpClassRangeMatch ch lo hi with
      | (found, true) => some (found, rest)
      | (_, false) => none
    | _ => none
  | _ => none

/-- The loop of `regexpClassMatches`. Every round takes at least one character of the body. -/
def classLoop (body : List Char) (ch : Char) : Nat → List Char → Except ParseError Bool
  | 0, _ => .ok false
  | _ + 1, [] => .ok false
  | fuel + 1, rest => do
    let (kind, next) ← regexpParseClassItem body rest
    let range := match kind with
      | .literal lo => rangeAfter body ch lo next
      | _ => none
    match range with
    | some (true, _) => return true
    | some (false, after) => classLoop body ch fuel after
    | none => if regexpClassItemMatches ch kind then return true else classLoop body ch fuel next

def regexpClassMatches (body : List Char) (ch : Char) : Except ParseError Bool :=
  classLoop body ch body.length body

def regexpTokenMatches (token : RegexpToken) (ch : Char) : Except ParseError Bool :=
  match token.kind with
  | .item kind => .ok (regexpClassItemMatches ch kind)
  | .any => .ok true
  | .class value negate => do
    let found ← regexpClassMatches value ch
    return if negate then !found else found

def quantOf : Option Quant :=
  match ch with
  | '*' => some .star
  | '+' => some .plus
  | '?' => some .optional
  | _ => none

def compileKind (raw : List Char) (ch : Char) (rest : List Char) :
    Except ParseError (TokenKind × List Char) :=
  match ch with
  | '.' => .ok (.any, rest)
  | '\\' =>
    match rest with
    | [] => .error ⟨"dangling escape in pattern", "regexpCompile.escape", .text raw⟩
    | c :: rest => do
      let kind ← regexpDecodeEscape c
      return (.item kind, rest)
  | '[' => do
    let (body, negate, rest) ← regexpParseClass raw rest
    return (.class body negate, rest)
  | _ => .ok (.item (.literal ch), rest)

def compileQuant : List Char → Quant × List Char
  | [] => (.once, [])
  | q :: rest =>
    match quantOf q with
    | some quant => (quant, rest)
    | none => (.once, q :: rest)

/-- The loop of `regexpCompile`. Every round takes at least one character of the pattern. -/
def compileLoop (raw : List Char) : Nat → RegexpPattern → List Char → Except ParseError RegexpPattern
  | _, out, [] => .ok out
  | 0, out, _ => .ok out
  | fuel + 1, out, ch :: rest =>
    if ch = '$' ∧ rest = [] then compileLoop raw fuel { out with anchoredEnd := true } rest
    else if (quantOf ch).isSome then
      .error ⟨"quantifier must follow a token", "regexpCompile.quantifier", .text [ch]⟩
    else do
      let (kind, next) ← compileKind raw ch rest
      let (quant, next) := compileQuant next
      compileLoop raw fuel { out with tokens := out.tokens ++ [⟨kind, quant⟩] } next

def regexpCompile (pattern : List Char) : Except ParseError RegexpPattern :=
  match pattern with
  | '^' :: rest =>
    compileLoop pattern rest.length { regexpEmptyPattern pattern with anchoredStart := true } rest
  | rest => compileLoop pattern rest.length (regexpEmptyPattern pattern) rest

def countRun (token : RegexpToken) : List Char → Except ParseError Nat
  | [] => .ok 0
  | ch :: rest => do
    if ← regexpTokenMatches token ch then
      let consumed ← countRun token rest
      return consumed + 1
    else return 0

def tryDown (next : Nat → Except ParseError (Option Nat)) (least : Nat) :
    Nat → Except ParseError (Option Nat)
  | 0 => if least = 0 then next 0 else .ok none
  | count + 1 =>
    if least ≤ count + 1 then do
      match ← next (count + 1) with
      | some stop => return some stop
      | none => tryDown next least count
    else .ok none

def matchRepeated (token : RegexpToken) (next : Nat → Except ParseError (Option Nat)) (least : Nat)
    (rest : List Char) : Except ParseError (Option Nat) := do
  let consumed ← countRun token rest
  if consumed < least then return none
  tryDown next least consumed

/-- `regexpMatchRecursive`: the index where the match of the tokens ends. `rest` is the text from
`textIndex` on. -/
def regexpMatchRecursive (anchoredEnd : Bool) :
    List RegexpToken → List Char → Nat → Except ParseError (Option Nat)
  | [], rest, textIndex => .ok (if anchoredEnd && rest ≠ [] then none else some textIndex)
  | token :: tokens, rest, textIndex =>
    let next (count : Nat) := regexpMatchRecursive anchoredEnd tokens (rest.drop count) (textIndex + count)
    match token.quant with
    | .once =>
      match rest with
      | [] => .ok none
      | ch :: _ => do
        if ← regexpTokenMatches token ch then next 1 else return none
    | .star => matchRepeated token next 0 rest
    | .plus => matchRepeated token next 1 rest
    | .optional => do
      -- after the attempt without the token nothing bounds the count from above
      match ← next 0 with
      | some stop => return some stop
      | none => matchRepeated token next 1 rest

def findLoop (compiled : RegexpPattern) (i : Nat) (rest : List Char) :
    Except ParseError (Option RegexpMatch) :=
  if compiled.anchoredStart && i != 0 then .ok none
  else do
    match ← regexpMatchRecursive compiled.anchoredEnd compiled.tokens rest i with
    | some stop => return some ⟨i, stop, if i < stop then rest.take (stop - i) else []⟩
    | none =>
      match rest with
      | [] => return none
      | _ :: rest => findLoop compiled (i + 1) rest
  termination_by structural rest

def regexpFindFirstCompiled (text : List Char) (compiled : RegexpPattern) (fromIndex : Int) :
    Except ParseError (Option RegexpMatch) :=
  let start := fromIndex.toNat
  if text.length < start then .ok none
  else if compiled.anchoredStart && 0 < start then .ok none
  else findLoop compiled start (text.drop start)

def regexpIsMatch (text pattern : List Char) : Except ParseError Bool := do
  let compiled ← regexpCompile pattern
  let first ← regexpFindFirstCompiled text compiled 0
  return first.isSome

def regexpFindFirst (text pattern : List Char) : Except ParseError (Option RegexpMatch) := do
  let compiled ← regexpCompile pattern
  regexpFindFirstCompiled text compiled 0

end Tablo.Regexp
