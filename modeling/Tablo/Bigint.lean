import Mathlib.Data.Nat.Digits.Defs

/-! Arbitrary-precision integers as sign and little-endian 32-bit limbs, with
the division of `bigint.c`. A limb array and its count are one list. -/

namespace Tablo.Bigint

abbrev limbBase : Nat := 4294967296

def u64 (x : Nat) : Nat := x % 18446744073709551616

structure ObjBigInt where
  sign : Int
  limbs : List Nat
  deriving Repr, DecidableEq

def IsLimbs (l : List Nat) : Prop := ∀ x ∈ l, x < limbBase

def magnitude (l : List Nat) : Nat := Nat.ofDigits limbBase l

def ObjBigInt.value (x : ObjBigInt) : Int := x.sign * magnitude x.limbs

/-- No leading zero limb, and the sign is zero exactly for the empty array. -/
structure ObjBigInt.Normal (x : ObjBigInt) : Prop where
  limbs_lt : IsLimbs x.limbs
  last_ne : x.limbs.getLast? ≠ some 0
  sign_eq : (x.sign = 0 ∧ x.limbs = []) ∨ ((x.sign = 1 ∨ x.sign = -1) ∧ x.limbs ≠ [])

structure NormalBigInt extends ObjBigInt where
  normal : toObjBigInt.Normal

def bigintTrimCount (limbs : List Nat) : Nat → Nat
  | 0 => 0
  | count + 1 => if limbs.getD count 0 = 0 then bigintTrimCount limbs count else count + 1

def trimmed (limbs : List Nat) : List Nat := limbs.take (bigintTrimCount limbs limbs.length)

def bigintFromLimbs (sign : Int) (limbs : List Nat) : ObjBigInt :=
  if trimmed limbs = [] then ⟨0, []⟩ else ⟨if sign < 0 then -1 else 1, trimmed limbs⟩

def compareAbsFrom (a b : List Nat) : Nat → Int
  | 0 => 0
  | i + 1 =>
    if a.getD i 0 < b.getD i 0 then -1
    else if b.getD i 0 < a.getD i 0 then 1
    else compareAbsFrom a b i

variable (a b : List Nat)

def bigintCompareAbsLimbs : Int :=
  if a.length < b.length then -1
  else if b.length < a.length then 1
  else compareAbsFrom a b a.length

def mulSmallLoop (m : Nat) : List Nat → Nat → List Nat × Nat
  | [], carry => ([], carry)
  | x :: xs, carry =>
    let cur := u64 (x * m + carry)
    let rest := mulSmallLoop m xs (cur / limbBase)
    (cur % limbBase :: rest.1, rest.2)

def bigintMulSmall (a : List Nat) (m : Nat) : List Nat :=
  if a = [] ∨ m = 0 then []
  else
    let r := mulSmallLoop m a 0
    if r.2 ≠ 0 then r.1 ++ [r.2 % limbBase] else r.1

def divmodSmallLoop (d : Nat) : List Nat → List Nat × Nat
  | [] => ([], 0)
  | x :: xs =>
    let rest := divmodSmallLoop d xs
    let cur := rest.2 * limbBase + x
    (cur / d % limbBase :: rest.1, cur % d)

def bigintDivmodSmall (a : List Nat) (d : Nat) : List Nat × Nat :=
  let r := divmodSmallLoop d a
  (trimmed r.1, r.2 % limbBase)

def subBorrow (x s : Nat) : Nat × Nat :=
  if x < s then (x + limbBase - s, 1) else (x - s, 0)

def subMulLoop (qhat : Nat) : List Nat → List Nat → Nat → Nat → List Nat × Nat × Nat
  | u :: us, v :: vs, carry, borrow =>
    let p := u64 (qhat * v + carry)
    let d := subBorrow u (p % limbBase + borrow)
    let rest := subMulLoop qhat us vs (p / limbBase) d.2
    (d.1 :: rest.1, rest.2)
  | _, _, carry, borrow => ([], carry, borrow)

def bigintSubMul (u v : List Nat) (j qhat : Nat) : List Nat × Bool :=
  let w := subMulLoop qhat ((u.drop j).take v.length) v 0 0
  let top := subBorrow (u.getD (j + v.length) 0) (w.2.1 + w.2.2)
  (u.take j ++ (w.1 ++ top.1 :: u.drop (j + v.length + 1)), top.2 == 1)

def addLoop : List Nat → List Nat → Nat → List Nat × Nat
  | u :: us, v :: vs, carry =>
    let sum := u64 (u + v + carry)
    let rest := addLoop us vs (sum / limbBase)
    (sum % limbBase :: rest.1, rest.2)
  | _, _, carry => ([], carry)

def carryLoop : List Nat → Nat → List Nat
  | [], _ => []
  | u :: us, carry =>
    if carry = 0 then u :: us
    else (u + carry) % limbBase :: carryLoop us ((u + carry) / limbBase)

/-- The carry runs on to the end of `u`, past the limbs the window holds. -/
def bigintAddBack (u v : List Nat) (j : Nat) : List Nat :=
  let w := addLoop ((u.drop j).take v.length) v 0
  u.take j ++ (w.1 ++ carryLoop (u.drop (j + v.length)) w.2)

def trialLoop (v1 v2 u2 : Nat) : Nat → Nat → Nat → Nat
  | 0, qhat, _ => qhat
  | fuel + 1, qhat, rhat =>
    if u64 (u64 (rhat * limbBase) + u2) < u64 (qhat * v2) then
      if limbBase ≤ rhat + v1 then qhat - 1
      else trialLoop v1 v2 u2 fuel (qhat - 1) (rhat + v1)
    else qhat

def trialDigit (v1 v2 u0 u1 u2 : Nat) : Nat :=
  let numerator := u0 * limbBase + u1
  -- a clamped digit raises the remainder once, whatever the excess was
  if limbBase - 1 < numerator / v1 then
    trialLoop v1 v2 u2 limbBase (limbBase - 1) (numerator % v1 + v1)
  else trialLoop v1 v2 u2 limbBase (numerator / v1) (numerator % v1)

def trialAt (v u : List Nat) (j : Nat) : Nat :=
  let n := v.length
  trialDigit (v.getD (n - 1) 0) (v.getD (n - 2) 0) (u.getD (j + n) 0) (u.getD (j + n - 1) 0) (u.getD (j + n - 2) 0)

def knuthStep (v u : List Nat) (j : Nat) : List Nat × Nat :=
  let qhat := trialAt v u j
  let s := bigintSubMul u v j qhat
  if s.2 then (bigintAddBack s.1 v j, qhat - 1) else (s.1, qhat)

def knuthLoop (v : List Nat) : Nat → List Nat → List Nat × List Nat
  | 0, u => (u, [])
  | j + 1, u =>
    let s := knuthStep v u j
    let rest := knuthLoop v j s.1
    (rest.1, rest.2 ++ [s.2 % limbBase])

/-- The caller asks for the quotient, the remainder or both; what is not
asked for is not stored, and nothing else depends on the choice. -/
structure DivmodResult where
  q : List Nat
  r : List Nat
  divByZero : Bool
  deriving Repr, DecidableEq

def normalizer (b : List Nat) : Nat := limbBase / (b.getD (b.length - 1) 0 + 1) % limbBase

def normalizedDividend : List Nat :=
  let u := bigintMulSmall a (normalizer b)
  let u := if u.length = a.length then u ++ [0] else u
  if u.length ≤ b.length then u ++ List.replicate (b.length + 1 - u.length) 0 else u

def normalizedDivisor (b : List Nat) : List Nat := (bigintMulSmall b (normalizer b)).take b.length

def knuthDivmod : DivmodResult :=
  let u := normalizedDividend a b
  let v := normalizedDivisor b
  let s := knuthLoop v (u.length - v.length) u
  let r := s.1.take v.length
  ⟨trimmed s.2, if normalizer b = 1 then trimmed r else (bigintDivmodSmall r (normalizer b)).1, false⟩

def subLoop : List Nat → List Nat → Nat → List Nat
  | [], _, _ => []
  | x :: xs, ys, borrow =>
    let d := subBorrow x (ys.headD 0 + borrow)
    d.1 :: subLoop xs ys.tail d.2

def smallQuotientLoop (b : List Nat) : Nat → List Nat → Nat → List Nat × Nat
  | 0, rem, q => (rem, q)
  | fuel + 1, rem, q =>
    if bigintCompareAbsLimbs rem b < 0 then (rem, q)
    else smallQuotientLoop b fuel (trimmed (subLoop rem b 0)) (q + 1)

def smallQLimit : Nat := 16

def quotientEstimate : Nat :=
  let bh := b.getD (b.length - 1) 0
  if a.length = b.length then a.getD (a.length - 1) 0 / bh
  else (a.getD (a.length - 1) 0 * limbBase + a.getD (a.length - 2) 0) / bh

/-- Repeated subtraction when the leading limbs promise a small quotient. -/
def smallQuotient : Option DivmodResult :=
  if (a.length = b.length ∨ a.length = b.length + 1) ∧ b.getD (b.length - 1) 0 ≠ 0 ∧
      quotientEstimate a b < smallQLimit then
    let s := smallQuotientLoop b smallQLimit a 0
    if bigintCompareAbsLimbs s.1 b < 0 then
      some ⟨if s.2 = 0 then [] else [s.2], s.1, false⟩
    else none
  else none

def bigintDivmodAbsLimbs : DivmodResult :=
  if b = [] then ⟨[], [], true⟩
  else if a = [] then ⟨[], [], false⟩
  else if bigintCompareAbsLimbs a b < 0 then ⟨[], a, false⟩
  else if bigintCompareAbsLimbs a b = 0 then ⟨[1], [], false⟩
  else if b.length = 1 then
    let s := bigintDivmodSmall a (b.getD 0 0)
    ⟨s.1, if s.2 = 0 then [] else [s.2], false⟩
  else
    match smallQuotient a b with
    | some result => result
    | none => knuthDivmod a b

def objBigintDiv (a b : ObjBigInt) : ObjBigInt × Bool :=
  if b.sign = 0 then (bigintFromLimbs 0 [], true)
  else if a.sign = 0 then (bigintFromLimbs 0 [], false)
  else
    let s := bigintDivmodAbsLimbs a.limbs b.limbs
    (bigintFromLimbs (if s.q = [] then 0 else a.sign * b.sign) s.q, s.divByZero)

def objBigintMod (a b : ObjBigInt) : ObjBigInt × Bool :=
  if b.sign = 0 then (bigintFromLimbs 0 [], true)
  else if a.sign = 0 then (bigintFromLimbs 0 [], false)
  else
    let s := bigintDivmodAbsLimbs a.limbs b.limbs
    (bigintFromLimbs (if s.r = [] then 0 else a.sign) s.r, s.divByZero)

end Tablo.Bigint
