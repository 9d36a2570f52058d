import Tablo.Bigint

/-! `modPow` of `builtins.c` on big integers: square and multiply, over
Montgomery residues of fixed width for an odd modulus and over reduced big
integers for an even one. -/

namespace Tablo.Bigint

section Signed

def addAbsLoop : List Nat → List Nat → Nat → List Nat
  | [], [], carry => if carry = 0 then [] else [carry % limbBase]
  | [], y :: ys, carry => (carry + y) % limbBase :: addAbsLoop [] ys ((carry + y) / limbBase)
  | x :: xs, ys, carry =>
    (carry + x + ys.headD 0) % limbBase :: addAbsLoop xs ys.tail ((carry + x + ys.headD 0) / limbBase)

variable (a b : List Nat)

def bigintAddAbsLimbs : List Nat := trimmed (addAbsLoop a b 0)

def bigintSubAbsLimbs : List Nat := trimmed (subLoop a b 0)

def objBigintAdd (a b : ObjBigInt) : ObjBigInt :=
  if a.sign = 0 then b
  else if b.sign = 0 then a
  else if a.sign = b.sign then bigintFromLimbs a.sign (bigintAddAbsLimbs a.limbs b.limbs)
  else if bigintCompareAbsLimbs a.limbs b.limbs = 0 then bigintFromLimbs 0 []
  else if 0 < bigintCompareAbsLimbs a.limbs b.limbs then
    bigintFromLimbs a.sign (bigintSubAbsLimbs a.limbs b.limbs)
  else bigintFromLimbs b.sign (bigintSubAbsLimbs b.limbs a.limbs)

def mulAddLoop (x : Nat) : List Nat → List Nat → Nat → List Nat × Nat
  | o :: out, y :: b, carry =>
    let cur := u64 (x * y + o + carry)
    let rest := mulAddLoop x out b (cur / limbBase)
    (cur % limbBase :: rest.1, rest.2)
  | _, _, carry => ([], carry)

def mulAddRow (out b : List Nat) (i x : Nat) : List Nat :=
  let w := mulAddLoop x ((out.drop i).take b.length) b 0
  out.take i ++ (w.1 ++ carryLoop (out.drop (i + b.length)) w.2)

def mulRows (b : List Nat) : List Nat → Nat → List Nat → List Nat
  | [], _, out => out
  | x :: a, i, out => mulRows b a (i + 1) (mulAddRow out b i x)

def bigintMulAbsLimbs : List Nat :=
  if a = [] ∨ b = [] then []
  else trimmed (mulRows b a 0 (List.replicate (a.length + b.length + 1) 0))

def objBigintMul (a b : ObjBigInt) : ObjBigInt :=
  if a.sign = 0 ∨ b.sign = 0 then bigintFromLimbs 0 []
  else if a.limbs.length = 1 then
    bigintFromLimbs (a.sign * b.sign) (bigintMulSmall b.limbs (a.limbs.getD 0 0))
  else if b.limbs.length = 1 then
    bigintFromLimbs (a.sign * b.sign) (bigintMulSmall a.limbs (b.limbs.getD 0 0))
  else bigintFromLimbs (a.sign * b.sign) (bigintMulAbsLimbs a.limbs b.limbs)

def objBigintNegate (a : ObjBigInt) : ObjBigInt :=
  if a.sign = 0 then a else bigintFromLimbs (-a.sign) a.limbs

def bigintAbsCloneValue (a : ObjBigInt) : ObjBigInt := if a.sign < 0 then objBigintNegate a else a

def bigintModPositive (a mod : ObjBigInt) : ObjBigInt :=
  let rem := (objBigintMod a mod).1
  if rem.sign < 0 then objBigintAdd rem mod else rem

def bigintZero : ObjBigInt := ⟨0, []⟩

def bigintOne : ObjBigInt := ⟨1, [1]⟩

end Signed

def u32 (x : Nat) : Nat := x % limbBase

/-- `inv * (2 - n0 * inv)` on `uint32_t`. -/
def n0invStep (n0 inv : Nat) : Nat := u32 (inv * u32 (2 + limbBase - u32 (n0 * inv)))

def montgomeryN0inv (n0 : Nat) : Nat :=
  let inv := (n0invStep n0)^[5] 1
  u32 (limbBase - inv)

structure MontgomeryCtx where
  mod : List Nat
  n0inv : Nat
  r2 : List Nat

def fixedLimbs (src : ObjBigInt) (n : Nat) : List Nat :=
  src.limbs.take n ++ List.replicate (n - src.limbs.length) 0

def bigintCanUseMontgomery (mod : ObjBigInt) : Bool :=
  decide (0 < mod.sign) && decide (mod.limbs ≠ []) && mod.limbs.getD 0 0 % 2 == 1

def montCtxInit (mod : ObjBigInt) : MontgomeryCtx :=
  let n := mod.limbs.length
  let r2 := (objBigintMod ⟨1, List.replicate (n * 2) 0 ++ [1]⟩ mod).1
  ⟨mod.limbs, montgomeryN0inv (mod.limbs.getD 0 0), fixedLimbs r2 n⟩

def montReduce (ctx : MontgomeryCtx) : Nat → Nat → List Nat → List Nat
  | 0, _, scratch => scratch
  | rounds + 1, i, scratch =>
    montReduce ctx rounds (i + 1) (mulAddRow scratch ctx.mod i (u32 (scratch.getD i 0 * ctx.n0inv)))

def montMul (ctx : MontgomeryCtx) (a b : List Nat) : List Nat :=
  let n := ctx.mod.length
  let scratch := montReduce ctx n 0 (mulRows b a 0 (List.replicate (n * 2 + 1) 0))
  let out := (scratch.drop n).take n
  if scratch.getD (n * 2) 0 ≠ 0 ∨ 0 ≤ compareAbsFrom out ctx.mod n then subLoop out ctx.mod 0 else out

variable {β : Type}

/-- The loop over the bits of a `uint64_t` exponent, which has at most 64. -/
def powLoop (mul : β → β → β) : Nat → Nat → β → β → β
  | 0, _, acc, _ => acc
  | fuel + 1, e, acc, base =>
    if e = 0 then acc
    else
      let acc := if e % 2 = 1 then mul acc base else acc
      if e / 2 = 0 then acc else powLoop mul fuel (e / 2) acc (mul base base)

def u32BitLength : Nat → Nat → Nat
  | 0, _ => 0
  | fuel + 1, x => if x = 0 then 0 else u32BitLength fuel (x / 2) + 1

def powBits (mul : β → β → β) (last : Bool) : Nat → Nat → β → β → β × β
  | 0, _, acc, base => (acc, base)
  | bits + 1, w, acc, base =>
    powBits mul last bits (w / 2) (if w % 2 = 1 then mul acc base else acc)
      (if last ∧ bits = 0 then base else mul base base)

def powWords (mul : β → β → β) : List Nat → β → β → β
  | [], acc, _ => acc
  | w :: words, acc, base =>
    let bits := if words = [] then u32BitLength 32 w else 32
    let r := powBits mul (words = []) bits w acc base
    powWords mul words r.1 r.2

/-- An exponent: an `int` that is not negative, or a big integer. -/
inductive Exponent where
  | int (e : Nat)
  | bigint (e : ObjBigInt)

def Exponent.pow (mul : β → β → β) (acc base : β) : Exponent → β
  | .int e => powLoop mul 64 e acc base
  | .bigint e => powWords mul e.limbs acc base

def bigintModPowMontgomeryCommon (base mod : ObjBigInt) (exp : Exponent) : ObjBigInt :=
  let ctx := montCtxInit mod
  let n := mod.limbs.length
  let one := 1 :: List.replicate (n - 1) 0
  let baseN := fixedLimbs (bigintModPositive base mod) n
  let baseM := montMul ctx baseN ctx.r2
  let acc := montMul ctx one ctx.r2
  let acc := exp.pow (montMul ctx) acc baseM
  let result := trimmed (montMul ctx acc one)
  if result = [] then bigintZero else ⟨1, result⟩

/-- `bigint_mod_pow_int_value` and `bigint_mod_pow_bigint_value`. -/
def bigintModPowValue (base mod : ObjBigInt) (exp : Exponent) : ObjBigInt :=
  if bigintCanUseMontgomery mod then bigintModPowMontgomeryCommon base mod exp
  else
    let acc := exp.pow (fun x y => bigintModPositive (objBigintMul x y) mod) bigintOne (bigintModPositive base mod)
    bigintModPositive acc mod

/-- The arguments of the builtin, as far as it tells them apart. -/
inductive ModPowArg where
  | int (n : Int64)
  | bigint (x : ObjBigInt)
  | other

def builtinModPowBigint (base exp mod : ModPowArg) : ObjBigInt :=
  match base, mod with
  | .bigint base, .bigint mod =>
    let modAbs := bigintAbsCloneValue mod
    if modAbs.sign = 0 then bigintZero
    else
      match exp with
      | .int e => if e < 0 then bigintZero else bigintModPowValue base modAbs (.int e.toInt.toNat)
      | .bigint e => if e.sign < 0 then bigintZero else bigintModPowValue base modAbs (.bigint e)
      | .other => bigintZero
  | _, _ => bigintZero

end Tablo.Bigint
