import Tablo.CryptoAes
import Mathlib.RingTheory.AdjoinRoot

/-! The shift-and-reduce loop multiplies modulo the polynomial of the field. -/

namespace Tablo.CryptoAes

open GaloisCounter BitPolynomial Polynomial List AdjoinRoot

/-! ### Bits of a block -/

theorem decide_and_one (x : UInt8) : decide (x &&& 1 ≠ 0) = x.toBitVec.getLsbD 0 := by
  have h : ∀ b : BitVec 8, decide (b &&& 1#8 ≠ 0#8) = b.getLsbD 0 := by decide
  rw [← h, decide_eq_decide, ne_eq, ← UInt8.toBitVec_inj]
  rfl

theorem byteBits_shift (x carry : UInt8) :
    byteBits ((x >>> 1) ||| (if carry ≠ 0 then 0x80 else 0)) ++ [decide (x &&& 1 ≠ 0)] =
      decide (carry ≠ 0) :: byteBits x := by
  rw [decide_and_one]
  by_cases hc : carry = 0 <;> simp [hc, byteBits, range_succ]

variable (carry : UInt8) (xs : List UInt8)

def lastCarry : UInt8 := xs.foldl (fun _ x => x &&& 1) carry

theorem bits_shiftRightBytes :
    bits (shiftRightBytes carry xs) ++ [decide (lastCarry carry xs ≠ 0)] = decide (carry ≠ 0) :: bits xs := by
  induction xs generalizing carry with
  | nil => rfl
  | cons x xs ih =>
    have hlast : lastCarry carry (x :: xs) = lastCarry (x &&& 1) xs := rfl
    rw [shiftRightBytes, bits_cons, bits_cons, hlast, append_assoc, ih, ← cons_append, ← byteBits_shift]
    rfl

theorem lastCarry_eq {xs : List UInt8} (h : xs ≠ []) : lastCarry carry xs = xs.getLast h &&& 1 := by
  induction xs generalizing carry with
  | nil => exact absurd rfl h
  | cons x xs ih =>
    cases xs with
    | nil => rfl
    | cons y xs => exact ih (x &&& 1) (by simp)

theorem bits_getD (i : Nat) :
    (bits xs).getD i false = (xs.getD (i / 8) 0).toBitVec.getLsbD (7 - i % 8) := by
  induction xs generalizing i with
  | nil => simp [bits]
  | cons x xs ih =>
    rw [bits_cons]
    by_cases hi : i < 8
    · rw [getD_append _ _ _ _ hi, Nat.div_eq_of_lt hi, Nat.mod_eq_of_lt hi]
      simp [byteBits, hi]
    · obtain ⟨j, rfl⟩ : ∃ j, i = j + 8 := ⟨i - 8, by omega⟩
      rw [getD_append_right _ _ _ _ (by rw [length_byteBits]; omega), length_byteBits, Nat.add_sub_cancel, ih,
        Nat.add_div_right _ (by decide), Nat.add_mod_right, getD_cons_succ]

theorem decide_bit (x : Block) (i : Nat) :
    decide ((x.bytes.getD (i / 8) 0 >>> UInt8.ofNat (7 - i % 8)) &&& 1 ≠ 0) = (bits x.bytes).getD i false := by
  rw [decide_and_one, bits_getD]
  have hmod : (7 - i % 8) % 256 % 8 = 7 - i % 8 := by omega
  simp [hmod]

/-! ### The modulus -/

/-- What `0xe1` in the first byte stands for. -/
noncomputable def reduction : (ZMod 2)[X] := X ^ 7 + X ^ 2 + X + 1

theorem modulus_eq : modulus = X ^ 128 + reduction := by
  unfold modulus reduction
  generalize (X : (ZMod 2)[X]) ^ 128 = a
  ring

theorem degree_reduction : reduction.degree < 128 := by
  have hle : reduction.degree ≤ 7 := by
    rw [reduction]
    compute_degree
  exact lt_of_le_of_lt hle (by decide)

theorem modulus_monic : modulus.Monic := by
  rw [modulus_eq]
  exact monic_X_pow_add degree_reduction

theorem degree_modulus : modulus.degree = 128 := by
  have hpow : ((X : (ZMod 2)[X]) ^ 128).degree = 128 := degree_X_pow 128
  rw [modulus_eq, degree_add_eq_left_of_degree_lt (by rw [hpow]; exact degree_reduction), hpow]

theorem degree_poly (x : Block) : x.poly.degree < 128 := by
  have h := degree_ofBytes x.bytes
  rw [x.length_eq] at h
  exact h

theorem eq_mul_of_class {x y z : Block}
    (h : mk modulus z.poly = mk modulus (x.poly * y.poly)) : z = x.mul y := by
  have hmod : z.poly = x.poly * y.poly %ₘ modulus := by
    have hself : z.poly %ₘ modulus = z.poly :=
      (modByMonic_eq_self_iff modulus_monic).mpr (by rw [degree_modulus]; exact degree_poly z)
    rw [← hself]
    exact modByMonic_eq_of_dvd_sub modulus_monic (mk_eq_mk.mp h)
  exact Block.ext (eq_toBytes z.length_eq hmod)

theorem poly_xor (x y : Block) : (x.xor y).poly = x.poly + y.poly :=
  ofBytes_xor (x.length_eq.trans y.length_eq.symm)

theorem poly_zero : Block.zero.poly = 0 := ofBits_replicate 128

/-! ### The loop -/

theorem poly_shiftRightOne (v : Block) :
    (cryptoAesShiftRightOne v).poly + X ^ 128 * ofBit (decide (v.bytes.getD 15 0 &&& 1 ≠ 0)) = X * v.poly := by
  have hne : v.bytes ≠ [] := fun h => by
    have hlen := v.length_eq
    rw [h] at hlen
    cases hlen
  have hlast : v.bytes.getLast hne = v.bytes.getD 15 0 := by
    rw [getLast_eq_getElem, getD_eq_getElem _ _ (by rw [v.length_eq]; decide)]
    simp only [v.length_eq]
  have hbits := congrArg ofBits (bits_shiftRightBytes 0 v.bytes)
  have hlen : (bits (shiftRightBytes 0 v.bytes)).length = 128 := by
    rw [length_bits, length_shiftRightBytes, v.length_eq]
  rw [ofBits_append_singleton, hlen, lastCarry_eq 0 hne, hlast, ofBits] at hbits
  have hzero : ofBit (decide ((0 : UInt8) ≠ 0)) = 0 := rfl
  rw [hzero, zero_add] at hbits
  have hbytes : (cryptoAesShiftRightOne v).bytes = shiftRightBytes 0 v.bytes := rfl
  unfold Block.poly ofBytes
  rw [hbytes]
  exact hbits

theorem poly_reduceBlock (v : Block) : (reduceBlock v).poly = v.poly + reduction := by
  have hxor : (reduceBlock v) = v.xor ⟨0xe1 :: replicate 15 0, rfl⟩ := by
    obtain ⟨bytes, hlen⟩ := v
    apply Block.ext
    cases bytes with
    | nil => cases hlen
    | cons x bytes =>
      have hrest : zipWith (· ^^^ ·) bytes (replicate 15 0) = bytes := by
        have h15 : bytes.length = 15 := by simpa using hlen
        apply ext_getElem
        · simp [h15]
        · intro i hi hi'
          rw [getElem_zipWith, getElem_replicate, UInt8.xor_zero]
      change (x ^^^ 0xe1) :: bytes = (x ^^^ 0xe1) :: zipWith (· ^^^ ·) bytes (replicate 15 0)
      rw [hrest]
  have hbits : bits ((0xe1 : UInt8) :: replicate 15 0) =
      [true, true, true, false, false, false, false, true] ++ replicate 120 false := by decide
  rw [hxor, poly_xor]
  refine congrArg (v.poly + ·) ?_
  unfold Block.poly ofBytes reduction
  rw [hbits]
  generalize hzero : replicate 120 false = zeros
  have hz : ofBits zeros = 0 := hzero ▸ ofBits_replicate 120
  simp only [cons_append, nil_append, ofBits, hz, ofBit, Bool.false_eq_true, if_true, if_false]
  ring

theorem poly_multiplyStep_snd (x z v : Block) (i : Nat) :
    (multiplyStep x (z, v) i).2.poly = X * v.poly + ofBit (decide (v.bytes.getD 15 0 &&& 1 ≠ 0)) * modulus := by
  have hshift := poly_shiftRightOne v
  rw [modulus_eq]
  generalize (X : (ZMod 2)[X]) ^ 128 = a at hshift ⊢
  have hsub : (cryptoAesShiftRightOne v).poly = X * v.poly + a * ofBit (decide (v.bytes.getD 15 0 &&& 1 ≠ 0)) := by
    rw [← hshift, add_assoc, CharTwo.add_self_eq_zero, add_zero]
  change (if v.bytes.getD 15 0 &&& 1 ≠ 0 then reduceBlock (cryptoAesShiftRightOne v)
    else cryptoAesShiftRightOne v).poly = _
  by_cases hlsb : v.bytes.getD 15 0 &&& 1 ≠ 0
  · rw [if_pos hlsb, poly_reduceBlock, hsub, decide_eq_true hlsb]
    simp only [ofBit, if_true]
    ring
  · rw [if_neg hlsb, hsub, decide_eq_false hlsb]
    simp [ofBit]

theorem poly_multiplyStep_fst (x z v : Block) (i : Nat) :
    (multiplyStep x (z, v) i).1.poly = z.poly + ofBit ((bits x.bytes).getD i false) * v.poly := by
  rw [← decide_bit]
  change (if (x.bytes.getD (i / 8) 0 >>> UInt8.ofNat (7 - i % 8)) &&& 1 ≠ 0 then cryptoAesXorBlock z v else z).poly = _
  by_cases hbit : (x.bytes.getD (i / 8) 0 >>> UInt8.ofNat (7 - i % 8)) &&& 1 ≠ 0
  · rw [if_pos hbit, decide_eq_true hbit, cryptoAesXorBlock, poly_xor]
    simp [ofBit]
  · rw [if_neg hbit, decide_eq_false hbit]
    simp [ofBit]

/-- After `n` turns: `z` is the product with the first `n` bits of `x`, and `v` is `y` times `X ^ n`,
modulo the polynomial. -/
theorem multiplyLoop_class (x y : Block) {n : Nat} (hn : n ≤ 128) :
    mk modulus ((range n).foldl (multiplyStep x) (.zero, y)).1.poly =
        mk modulus (ofBits ((bits x.bytes).take n) * y.poly) ∧
      mk modulus ((range n).foldl (multiplyStep x) (.zero, y)).2.poly =
        mk modulus (X ^ n * y.poly) := by
  induction n with
  | zero => simp [poly_zero, ofBits]
  | succ n ih =>
    obtain ⟨hz, hv⟩ := ih (by omega)
    rw [range_succ, foldl_append, foldl_cons, foldl_nil]
    generalize (range n).foldl (multiplyStep x) (.zero, y) = zv at hz hv ⊢
    obtain ⟨z, v⟩ := zv
    rw [poly_multiplyStep_fst, poly_multiplyStep_snd]
    constructor
    · have hlt : n < (bits x.bytes).length := by
        rw [length_bits, x.length_eq]
        omega
      have htake : (bits x.bytes).take (n + 1) = (bits x.bytes).take n ++ [(bits x.bytes).getD n false] := by
        rw [take_succ_eq_append_getElem hlt, getD_eq_getElem _ _ hlt]
      rw [htake, ofBits_append_singleton, length_take, Nat.min_eq_left hlt.le, map_add, map_mul, hz, hv,
        map_mul, map_mul, map_mul, map_add, map_mul]
      ring
    · rw [map_add, map_mul, hv, map_mul _ (ofBit _), mk_self, pow_succ]
      simp only [map_mul]
      ring

theorem cryptoAesGcmMultiply_eq (x y : Block) : cryptoAesGcmMultiply x y = x.mul y := by
  apply eq_mul_of_class
  have h := (multiplyLoop_class x y (Nat.le_refl 128)).1
  rw [take_of_length_le (by rw [length_bits, x.length_eq])] at h
  exact h

end Tablo.CryptoAes
