import Mathlib.Algebra.Field.ZMod
import Mathlib.Algebra.Polynomial.Div
import Mathlib.Data.List.GetD

/-! Strings of bits and bytes as polynomials over the field with two elements. The first bit is the
constant coefficient; the first bit of a byte is its most significant one. -/

namespace BitPolynomial

open Polynomial List

/-! ### Bits -/

noncomputable def ofBit (b : Bool) : (ZMod 2)[X] := if b then 1 else 0

noncomputable def ofBits : List Bool → (ZMod 2)[X]
  | [] => 0
  | b :: bs => ofBit b + X * ofBits bs

theorem ofBit_xor (a b : Bool) : ofBit (a ^^ b) = ofBit a + ofBit b := by
  cases a <;> cases b <;> simp [ofBit, CharTwo.add_self_eq_zero]

theorem ofBits_xor {as bs : List Bool} (h : as.length = bs.length) :
    ofBits (zipWith xor as bs) = ofBits as + ofBits bs := by
  induction as generalizing bs with
  | nil =>
    cases bs with
    | nil => simp [ofBits]
    | cons b bs => simp at h
  | cons a as ih =>
    cases bs with
    | nil => simp at h
    | cons b bs =>
      rw [zipWith_cons_cons, ofBits, ofBits, ofBits, ofBit_xor, ih (by simpa using h)]
      ring

variable (bs : List Bool) (n : Nat) (p : (ZMod 2)[X]) (l : List UInt8)

theorem ofBits_append_singleton (b : Bool) : ofBits (bs ++ [b]) = ofBits bs + X ^ bs.length * ofBit b := by
  induction bs with
  | nil => simp [ofBits]
  | cons a bs ih =>
    rw [cons_append, ofBits, ofBits, ih, length_cons]
    ring

theorem ofBits_replicate : ofBits (replicate n false) = 0 := by
  induction n with
  | zero => rfl
  | succ n ih => simp [replicate_succ, ofBits, ofBit, ih]

theorem coeff_ofBits (i : Nat) : (ofBits bs).coeff i = if bs.getD i false then 1 else 0 := by
  induction bs generalizing i with
  | nil => simp [ofBits]
  | cons b bs ih =>
    rw [ofBits, coeff_add]
    cases i with
    | zero => cases b <;> simp [ofBit]
    | succ i =>
      rw [coeff_X_mul, ih]
      cases b <;> simp [ofBit, coeff_one]

theorem degree_ofBits : (ofBits bs).degree < bs.length := by
  rw [degree_lt_iff_coeff_zero]
  intro i hi
  rw [coeff_ofBits, getD_eq_default _ _ hi]
  rfl

noncomputable def toBits : List Bool := (List.range n).map fun i => decide (p.coeff i = 1)

theorem length_toBits : (toBits n p).length = n := by simp [toBits]

theorem toBits_ofBits : toBits bs.length (ofBits bs) = bs := by
  apply ext_getElem (length_toBits _ _)
  intro i hi hi'
  have hcoeff := coeff_ofBits bs i
  rw [getD_eq_getElem _ _ hi'] at hcoeff
  simp only [toBits, getElem_map, getElem_range, hcoeff]
  cases bs[i] <;> simp

/-! ### Bytes -/

def byteBits (x : UInt8) : List Bool := (List.range 8).map fun j => x.toBitVec.getLsbD (7 - j)

def bits : List Bool := l.flatMap byteBits

noncomputable def ofBytes : (ZMod 2)[X] := ofBits (bits l)

theorem length_byteBits (x : UInt8) : (byteBits x).length = 8 := rfl

theorem length_bits : (bits l).length = 8 * l.length := by
  induction l with
  | nil => rfl
  | cons x l ih =>
    rw [bits, flatMap_cons, length_append, length_byteBits, ← bits, length_cons]
    omega

theorem byteBits_xor (x y : UInt8) : byteBits (x ^^^ y) = zipWith xor (byteBits x) (byteBits y) := by
  simp [byteBits]

theorem bits_cons (x : UInt8) (l : List UInt8) : bits (x :: l) = byteBits x ++ bits l := rfl

theorem bits_append (l m : List UInt8) : bits (l ++ m) = bits l ++ bits m := flatMap_append

theorem bits_xor (l m : List UInt8) : bits (zipWith (· ^^^ ·) l m) = zipWith xor (bits l) (bits m) := by
  induction l generalizing m with
  | nil => simp [bits]
  | cons x l ih =>
    cases m with
    | nil => simp [bits]
    | cons y m =>
      rw [zipWith_cons_cons, bits_cons, bits_cons, bits_cons, ih, byteBits_xor,
        zipWith_append (by rw [length_byteBits, length_byteBits])]

theorem byteBits_inj {x y : UInt8} (h : byteBits x = byteBits y) : x = y := by
  apply UInt8.toBitVec_inj.mp
  apply BitVec.eq_of_getLsbD_eq
  intro i hi
  have hget := congrArg (fun l : List Bool => l[7 - i]?) h
  have hlt : 7 - i < 8 := by omega
  have hsub : 7 - (7 - i) = i := by omega
  simpa [byteBits, hlt, hsub] using hget

theorem bits_inj {l m : List UInt8} (h : bits l = bits m) : l = m := by
  induction l generalizing m with
  | nil =>
    cases m with
    | nil => rfl
    | cons y m => simp [bits, byteBits] at h
  | cons x l ih =>
    cases m with
    | nil => simp [bits, byteBits] at h
    | cons y m =>
      obtain ⟨hx, hl⟩ := append_inj h (by rw [length_byteBits, length_byteBits])
      rw [byteBits_inj hx, ih hl]

theorem ofBytes_xor {l m : List UInt8} (h : l.length = m.length) :
    ofBytes (zipWith (· ^^^ ·) l m) = ofBytes l + ofBytes m := by
  rw [ofBytes, bits_xor, ofBits_xor (by rw [length_bits, length_bits, h])]
  rfl

theorem degree_ofBytes : (ofBytes l).degree < ((8 * l.length : Nat) : WithBot Nat) := by
  rw [← length_bits]
  exact degree_ofBits _

def packByte : UInt8 := bs.foldl (fun x b => 2 * x + if b then 1 else 0) 0

theorem byteBits_packByte (f : Nat → Bool) : byteBits (packByte ((range 8).map f)) = (range 8).map f := by
  have h : ∀ b0 b1 b2 b3 b4 b5 b6 b7 : Bool,
      byteBits (packByte [b0, b1, b2, b3, b4, b5, b6, b7]) = [b0, b1, b2, b3, b4, b5, b6, b7] := by decide
  exact h (f 0) (f 1) (f 2) (f 3) (f 4) (f 5) (f 6) (f 7)

noncomputable def toBytes : List UInt8 :=
  (List.range n).map fun k => packByte ((List.range 8).map fun j => decide (p.coeff (8 * k + j) = 1))

theorem length_toBytes : (toBytes n p).length = n := by simp [toBytes]

theorem bits_toBytes : bits (toBytes n p) = toBits (8 * n) p := by
  induction n with
  | zero => rfl
  | succ n ih =>
    have hsplit : toBytes (n + 1) p =
        toBytes n p ++ [packByte ((range 8).map fun j => decide (p.coeff (8 * n + j) = 1))] := by
      simp [toBytes, range_succ]
    rw [hsplit, bits_append, ih, bits_cons, byteBits_packByte, toBits, toBits, Nat.mul_succ, range_add, map_append]
    simp [bits]

theorem toBytes_ofBytes : toBytes l.length (ofBytes l) = l := by
  apply bits_inj
  rw [bits_toBytes, ← length_bits]
  exact toBits_ofBits (bits l)

theorem eq_toBytes {l : List UInt8} {n : Nat} (hl : l.length = n) {p : (ZMod 2)[X]} (hp : ofBytes l = p) :
    l = toBytes n p := by
  rw [← hp, ← hl, toBytes_ofBytes]

end BitPolynomial
