import Tablo.HttpRequest

/-! JSON texts. A derivation takes one value off the front of a text. The grammar
is that of RFC 8259 when `sp` is its white space; the reader of `builtins.c` also
works with the white space of `isspace`. -/

namespace Tablo.Json

open Encoding (Byte Text)
open HttpRequest (isspace)

variable (b : Byte)

def jsonSpace : Bool := b = 32 || b = 9 || b = 10 || b = 13

def isDigit : Bool := 48 ≤ b.toNat && b.toNat ≤ 57

def numeric : Bool := isDigit b || b = 43 || b = 45 || b = 46 || b = 69 || b = 101

/-! ### Numbers -/

def IntPart (i : Text) : Prop :=
  i = [48] ∨ ∃ d ds, 49 ≤ d.toNat ∧ d.toNat ≤ 57 ∧ (∀ b ∈ ds, isDigit b = true) ∧ i = d :: ds

def FracPart (f : Text) : Prop := f = [] ∨ ∃ ds, ds ≠ [] ∧ (∀ b ∈ ds, isDigit b = true) ∧ f = 46 :: ds

def ExpPart (e : Text) : Prop :=
  e = [] ∨ ∃ m sign ds, (m = 101 ∨ m = 69) ∧ (sign = [] ∨ sign = [43] ∨ sign = [45]) ∧ ds ≠ [] ∧
    (∀ b ∈ ds, isDigit b = true) ∧ e = m :: (sign ++ ds)

def IsNumber (n : Text) : Prop :=
  ∃ sign i f e, (sign = [] ∨ sign = [45]) ∧ IntPart i ∧ FracPart f ∧ ExpPart e ∧ n = sign ++ (i ++ (f ++ e))

def fractional (n : Text) : Bool := n.any fun b => b = 46 || b = 69 || b = 101

def Stops (r : Text) : Prop := ∀ b ∈ r.head?, numeric b = false

/-! ### Strings -/

/-- The bytes a string stands for, and whether it is spelled without escapes. -/
structure Str where
  bytes : Text
  plain : Bool

def shortEscape (e : Byte) : Option Byte :=
  if e = 34 ∨ e = 92 ∨ e = 47 then some e
  else if e = 98 then some 8
  else if e = 102 then some 12
  else if e = 110 then some 10
  else if e = 114 then some 13
  else if e = 116 then some 9
  else none

def hexDigit : Option Nat :=
  if 48 ≤ b.toNat ∧ b.toNat ≤ 57 then some (b.toNat - 48)
  else if 65 ≤ b.toNat ∧ b.toNat ≤ 70 then some (b.toNat - 55)
  else if 97 ≤ b.toNat ∧ b.toNat ≤ 102 then some (b.toNat - 87)
  else none

def hex4 (a b c d : Byte) : Option Nat := do
  let a ← hexDigit a
  let b ← hexDigit b
  let c ← hexDigit c
  let d ← hexDigit d
  some (((a * 16 + b) * 16 + c) * 16 + d)

def highSurrogate (u : Nat) : Bool := 0xD800 ≤ u && u ≤ 0xDBFF
def lowSurrogate (u : Nat) : Bool := 0xDC00 ≤ u && u ≤ 0xDFFF

def utf8 (c : Nat) : Text :=
  if c < 0x80 then [BitVec.ofNat 8 c]
  else if c < 0x800 then [BitVec.ofNat 8 (0xC0 + c / 64), BitVec.ofNat 8 (0x80 + c % 64)]
  else if c < 0x10000 then
    [BitVec.ofNat 8 (0xE0 + c / 4096), BitVec.ofNat 8 (0x80 + c / 64 % 64), BitVec.ofNat 8 (0x80 + c % 64)]
  else
    [BitVec.ofNat 8 (0xF0 + c / 262144), BitVec.ofNat 8 (0x80 + c / 4096 % 64),
      BitVec.ofNat 8 (0x80 + c / 64 % 64), BitVec.ofNat 8 (0x80 + c % 64)]

def isPlain : Bool := 0x20 ≤ b.toNat && b ≠ 34 && b ≠ 92

/-- The rest of a string behind its opening quote. A surrogate must be followed by its partner. -/
inductive Chars : Text → Str → Text → Prop
  | close {t r : Text} (ht : t = 34 :: r) : Chars t ⟨[], true⟩ r
  | plain {t u r : Text} {b : Byte} {s : Str} (ht : t = b :: u) (hb : isPlain b = true) (h : Chars u s r) :
      Chars t ⟨b :: s.bytes, s.plain⟩ r
  | short {t u r : Text} {e b : Byte} {s : Str} (ht : t = 92 :: e :: u) (he : shortEscape e = some b)
      (h : Chars u s r) : Chars t ⟨b :: s.bytes, false⟩ r
  | unit {t u r : Text} {a b c d : Byte} {x : Nat} {s : Str} (ht : t = 92 :: 117 :: a :: b :: c :: d :: u)
      (hx : hex4 a b c d = some x) (hhigh : highSurrogate x = false) (hlow : lowSurrogate x = false)
      (h : Chars u s r) : Chars t ⟨utf8 x ++ s.bytes, false⟩ r
  | pair {t u r : Text} {a b c d a' b' c' d' : Byte} {x y : Nat} {s : Str}
      (ht : t = 92 :: 117 :: a :: b :: c :: d :: 92 :: 117 :: a' :: b' :: c' :: d' :: u)
      (hx : hex4 a b c d = some x) (hhigh : highSurrogate x = true)
      (hy : hex4 a' b' c' d' = some y) (hlow : lowSurrogate y = true) (h : Chars u s r) :
      Chars t ⟨utf8 (0x10000 + (x - 0xD800) * 1024 + (y - 0xDC00)) ++ s.bytes, false⟩ r

/-! ### Values -/

inductive Json where
  | null
  | bool (b : Bool)
  | number (n : Text)
  | string (s : Str)
  | array (elements : List Json)
  | object (members : List (Str × Json))

inductive Leaf : Text → Json → Text → Prop
  | null {t r : Text} (ht : t = 110 :: 117 :: 108 :: 108 :: r) : Leaf t .null r
  | yes {t r : Text} (ht : t = 116 :: 114 :: 117 :: 101 :: r) : Leaf t (.bool true) r
  | no {t r : Text} (ht : t = 102 :: 97 :: 108 :: 115 :: 101 :: r) : Leaf t (.bool false) r
  | number {t n r : Text} (ht : t = n ++ r) (hn : IsNumber n) (hr : Stops r) : Leaf t (.number n) r
  | string {t u r : Text} {s : Str} (ht : t = 34 :: u) (h : Chars u s r) : Leaf t (.string s) r

/-- What a derivation is about. Elements and members are those from here to the closing bracket. -/
inductive Part where
  | value | elements | members

def skip (sp : Byte → Bool) (t : Text) : Text := t.dropWhile sp

inductive Reads (sp : Byte → Bool) : Part → Nat → Text → Json → Text → Prop
  | leaf {d : Nat} {t r : Text} {j : Json} (h : Leaf t j r) : Reads sp .value d t j r
  | emptyArray {d : Nat} {t u r : Text} (ht : t = 91 :: u) (hu : skip sp u = 93 :: r) :
      Reads sp .value (d + 1) t (.array []) r
  | array {d : Nat} {t u r : Text} {js : List Json} (ht : t = 91 :: u)
      (h : Reads sp .elements d (skip sp u) (.array js) r) : Reads sp .value (d + 1) t (.array js) r
  | emptyObject {d : Nat} {t u r : Text} (ht : t = 123 :: u) (hu : skip sp u = 125 :: r) :
      Reads sp .value (d + 1) t (.object []) r
  | object {d : Nat} {t u r : Text} {ms : List (Str × Json)} (ht : t = 123 :: u)
      (h : Reads sp .members d (skip sp u) (.object ms) r) : Reads sp .value (d + 1) t (.object ms) r
  | lastElement {d : Nat} {t u r : Text} {j : Json} (h : Reads sp .value d t j u) (hu : skip sp u = 93 :: r) :
      Reads sp .elements d t (.array [j]) r
  | element {d : Nat} {t u v r : Text} {j : Json} {js : List Json} (h : Reads sp .value d t j u)
      (hu : skip sp u = 44 :: v) (hrest : Reads sp .elements d (skip sp v) (.array js) r) :
      Reads sp .elements d t (.array (j :: js)) r
  | lastMember {d : Nat} {t u v w x r : Text} {k : Str} {j : Json} (ht : t = 34 :: u) (hk : Chars u k v)
      (hv : skip sp v = 58 :: w) (h : Reads sp .value d (skip sp w) j x) (hx : skip sp x = 125 :: r) :
      Reads sp .members d t (.object [(k, j)]) r
  | member {d : Nat} {t u v w x y r : Text} {k : Str} {j : Json} {ms : List (Str × Json)} (ht : t = 34 :: u)
      (hk : Chars u k v) (hv : skip sp v = 58 :: w) (h : Reads sp .value d (skip sp w) j x)
      (hx : skip sp x = 44 :: y) (hrest : Reads sp .members d (skip sp y) (.object ms) r) :
      Reads sp .members d t (.object ((k, j) :: ms)) r

/-- `CJSON_NESTING_LIMIT` -/
def nestingLimit : Nat := 1000

def Document (sp : Byte → Bool) (t : Text) (j : Json) : Prop :=
  ∃ r, Reads sp .value nestingLimit (skip sp t) j r ∧ skip sp r = []

def Front (t : Text) (j : Json) : Prop := ∃ r, Reads jsonSpace .value nestingLimit (skip jsonSpace t) j r

end Tablo.Json
