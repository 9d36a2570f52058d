import Tablo.BigintArith
import Tablo.Encoding

/-! Big integers as decimal and hexadecimal texts. -/

namespace Tablo.Bigint

open Encoding (Byte Text)
open Globals (bigintMulAddSmallInplace)

def decBase : Nat := 1000000000

def bigintDigitsU32 (value : Nat) : Nat :=
  if 100000000 ≤ value then 9
  else if 10000000 ≤ value then 8
  else if 1000000 ≤ value then 7
  else if 100000 ≤ value then 6
  else if 10000 ≤ value then 5
  else if 1000 ≤ value then 4
  else if 100 ≤ value then 3
  else if 10 ≤ value then 2
  else 1

/-! ### Printing -/

def chunkLoop : Nat → List Nat → List Nat
  | 0, _ => []
  | n + 1, work =>
    if work = [] then []
    else (bigintDivmodSmall work decBase).2 :: chunkLoop n (bigintDivmodSmall work decBase).1

def chunks (limbs : List Nat) : List Nat := chunkLoop (limbs.length * 2 + 1) limbs

variable (x : ObjBigInt)

def objBigintDecimalDigits : Nat :=
  if x.limbs = [] then 1
  else ((chunks x.limbs).length - 1) * 9 + bigintDigitsU32 ((chunks x.limbs).getLastD 0)

def digitChar (d : Nat) : Byte := BitVec.ofNat 8 (48 + d)

/-- `%u` -/
def formatU (value : Nat) : Text := if value = 0 then [48] else ((Nat.digits 10 value).map digitChar).reverse

/-- `%09u` -/
def formatU9 (value : Nat) : Text := List.replicate (9 - (formatU value).length) 48 ++ formatU value

def signText (sign : Int) : Text := if sign < 0 then [45] else []

def objBigintToString : Text :=
  if x.limbs = [] then [48]
  else
    signText x.sign ++ (formatU ((chunks x.limbs).getLastD 0) ++ ((chunks x.limbs).dropLast.reverse.map formatU9).flatten)

def hexChar (d : Nat) : Byte := if d < 10 then BitVec.ofNat 8 (48 + d) else BitVec.ofNat 8 (87 + d)

def nibble (value i : Nat) : Nat := value / 16 ^ i % 16

def nibbles (value n : Nat) : Text := ((List.range n).map fun i => hexChar (nibble value i)).reverse

def msNibbles (ms : Nat) : Nat → Nat
  | 0 => 1
  | n + 1 => if 0 < n ∧ nibble ms n = 0 then msNibbles ms n else n + 1

def objBigintToHexString : Text :=
  if x.limbs = [] ∨ x.sign = 0 then [48, 120, 48]
  else
    let ms := x.limbs.getLastD 0
    signText x.sign ++ (48 :: 120 :: (nibbles ms (msNibbles ms 8) ++
      (x.limbs.dropLast.reverse.map fun limb => nibbles limb 8).flatten))

/-! ### Parsing -/

def isDigit (b : Byte) : Bool := 48 ≤ b.toNat && b.toNat ≤ 57

def bigintHexDigitValue (b : Byte) : Option Nat :=
  if 48 ≤ b.toNat ∧ b.toNat ≤ 57 then some (b.toNat - 48)
  else if 97 ≤ b.toNat ∧ b.toNat ≤ 102 then some (b.toNat - 97 + 10)
  else if 65 ≤ b.toNat ∧ b.toNat ≤ 70 then some (b.toNat - 65 + 10)
  else none

def stripZeros : Text → Text
  | b :: c :: r => if b = 48 then stripZeros (c :: r) else b :: c :: r
  | t => t

def hexLimb (t : Text) : Nat := t.foldl (fun limb b => limb * 16 % limbBase + (bigintHexDigitValue b).getD 0) 0

def hexLoop : Nat → Text → List Nat
  | 0, _ => []
  | n + 1, p =>
    if p = [] then []
    else hexLimb (p.drop (p.length - 8)) :: hexLoop n (p.take (p.length - 8))

def decimalChunk (t : Text) : Nat := t.foldl (fun chunk b => (chunk * 10 + (b.toNat - 48)) % limbBase) 0

def decimalLoop : Nat → List Nat → Nat → Text → List Nat
  | 0, limbs, _, _ => limbs
  | n + 1, limbs, chunkLen, p =>
    if p = [] then limbs
    else decimalLoop n (bigintMulAddSmallInplace limbs decBase (decimalChunk (p.take chunkLen))) 9 (p.drop chunkLen)

def firstDigits (len : Nat) : Nat := if len % 9 = 0 then 9 else len % 9

def parseMagnitude (p : Text) : Option (List Nat) :=
  if p = [] then none
  else if p.head? = some 48 ∧ (p.tail.head? = some 120 ∨ p.tail.head? = some 88) then
    let p := p.drop 2
    if p = [] then none
    else if p.any fun b => (bigintHexDigitValue b).isNone then none
    else
      let p := stripZeros p
      if p = [48] then some [] else some (hexLoop p.length p)
  else if p.any fun b => !isDigit b then none
  else
    let p := stripZeros p
    if p = [48] then some [] else some (decimalLoop p.length [] (firstDigits p.length) p)

def splitSign (s : Text) : Int × Text :=
  if s.head? = some 45 then (-1, s.tail) else if s.head? = some 43 then (1, s.tail) else (1, s)

def bigintParseString (s : Text) : Option (Int × List Nat) := do
  let limbs ← parseMagnitude (splitSign s).2
  some (if limbs = [] then 0 else (splitSign s).1, limbs)

def objBigintTryFromString (s : Text) : Option ObjBigInt := do
  let (sign, limbs) ← bigintParseString s
  some (bigintFromLimbs sign limbs)

end Tablo.Bigint
