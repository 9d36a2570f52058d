import Tablo.BitPolynomial

/-! Galois/Counter Mode of NIST SP 800-38D over a block cipher, for strings of whole bytes, a 96-bit
initialization vector and a 128-bit tag. -/

namespace GaloisCounter

open Polynomial BitPolynomial List

@[ext]
structure Block where
  bytes : List UInt8
  length_eq : bytes.length = 16
  deriving DecidableEq

variable (l : List UInt8) (ciph : Block → Block) (iv : Nonce) (x : List UInt8)

def Block.ofList : Block := ⟨(l ++ List.replicate 16 0).take 16, by simp⟩

def Block.zero : Block := ⟨List.replicate 16 0, rfl⟩

def Block.xor (x y : Block) : Block :=
  ⟨List.zipWith (· ^^^ ·) x.bytes y.bytes, by rw [List.length_zipWith, x.length_eq, y.length_eq]; rfl⟩

/-! ### The field -/

noncomputable def modulus : (ZMod 2)[X] := X ^ 128 + X ^ 7 + X ^ 2 + X + 1

noncomputable def Block.poly (x : Block) : (ZMod 2)[X] := ofBytes x.bytes

/-- The product of two blocks as polynomials modulo `modulus`. -/
noncomputable def Block.mul (x y : Block) : Block := ⟨toBytes 16 (x.poly * y.poly %ₘ modulus), length_toBytes _ _⟩

/-! ### Hash and counter mode -/

def blocks (x : List UInt8) : List Block :=
  if x = [] then [] else Block.ofList x :: blocks (x.drop 16)
termination_by x.length
decreasing_by
  rename_i h
  have hpos := List.length_pos_iff.mpr h
  rw [List.length_drop]
  omega

noncomputable def ghashBlocks (h y : Block) (xs : List Block) : Block := xs.foldl (fun y x => (y.xor x).mul h) y

noncomputable def ghash (h : Block) (x : List UInt8) : Block := ghashBlocks h .zero (blocks x)

def number : Nat := l.foldl (fun n x => 256 * n + x.toNat) 0

def numeral (n k : Nat) : List UInt8 := (List.range n).map fun i => UInt8.ofNat (k / 256 ^ (n - 1 - i))

theorem length_numeral (n k : Nat) : (numeral n k).length = n := by simp [numeral]

def inc32 (x : Block) : Block :=
  ⟨x.bytes.take 12 ++ numeral 4 ((number (x.bytes.drop 12) + 1) % 2 ^ 32), by
    rw [List.length_append, List.length_take, length_numeral, x.length_eq]
    rfl⟩

/-- Byte `i` of the text is masked with byte `i % 16` of the cipher of counter block `i / 16`. -/
def gctr (icb : Block) (x : List UInt8) : List UInt8 :=
  x.mapIdx fun i b => b ^^^ (ciph (inc32^[i / 16] icb)).bytes.getD (i % 16) 0

/-! ### Authenticated encryption -/

abbrev Nonce := {n : List UInt8 // n.length = 12}

theorem length_nonce_append : (iv.1 ++ [0, 0, 0, 1]).length = 16 := by
  rw [length_append, iv.2]
  rfl

def preCounter : Block := ⟨iv.1 ++ [0, 0, 0, 1], length_nonce_append iv⟩

def pad : List UInt8 := x ++ List.replicate ((16 - x.length % 16) % 16) 0

noncomputable def tag (aad c : List UInt8) : Block :=
  let s := ghash (ciph .zero) (pad aad ++ pad c ++ numeral 8 (8 * aad.length) ++ numeral 8 (8 * c.length))
  Block.ofList (gctr ciph (preCounter iv) s.bytes)

noncomputable def encrypt (aad p : List UInt8) : List UInt8 × Block :=
  let c := gctr ciph (inc32 (preCounter iv)) p
  (c, tag ciph iv aad c)

def AllowedText : Prop := 8 * x.length ≤ 2 ^ 39 - 256

def AllowedData : Prop := 8 * x.length ≤ 2 ^ 64 - 1

/-! ### Numerals -/

theorem numeral_succ (n k : Nat) : numeral (n + 1) k = numeral n (k / 256) ++ [UInt8.ofNat k] := by
  rw [numeral, range_succ, map_append, map_cons]
  have hlast : n + 1 - 1 - n = 0 := by omega
  rw [hlast, Nat.pow_zero, Nat.div_one]
  refine congrArg (· ++ [UInt8.ofNat k]) (map_congr_left fun i hi => ?_)
  have hlt : i < n := mem_range.mp hi
  have hexp : n + 1 - 1 - i = n - 1 - i + 1 := by omega
  rw [hexp, Nat.pow_succ', Nat.div_div_eq_div_mul]

theorem number_append_singleton (x : UInt8) : number (l ++ [x]) = 256 * number l + x.toNat := by
  rw [number, foldl_append, foldl_cons]
  rfl

theorem numeral_number : numeral l.length (number l) = l := by
  induction l using reverseRecOn with
  | nil => rfl
  | append_singleton l x ih =>
    have hx := x.toNat_lt
    rw [length_append, length_cons, length_nil, numeral_succ, number_append_singleton]
    have hdiv : (256 * number l + x.toNat) / 256 = number l := by omega
    rw [hdiv, ih]
    refine congrArg (fun y => l ++ [y]) (UInt8.toNat_inj.mp ?_)
    rw [UInt8.toNat_ofNat']
    omega

theorem numeral_mod (n k : Nat) : numeral n (k % 256 ^ n) = numeral n k := by
  induction n generalizing k with
  | zero => rfl
  | succ n ih =>
    have hdiv : k % 256 ^ (n + 1) / 256 = k / 256 % 256 ^ n := by
      rw [Nat.pow_succ', Nat.mod_mul_right_div_self]
    have hbyte : UInt8.ofNat (k % 256 ^ (n + 1)) = UInt8.ofNat k := by
      apply UInt8.toNat_inj.mp
      exact Nat.mod_mod_of_dvd k (Dvd.intro_left (256 ^ n) rfl)
    rw [numeral_succ, numeral_succ, hdiv, ih, hbyte]

/-! ### Blocks -/

theorem Block.xor_comm (x y : Block) : x.xor y = y.xor x := by
  apply Block.ext
  exact zipWith_comm_of_comm UInt8.xor_comm

theorem Block.ofList_bytes (x : Block) : Block.ofList x.bytes = x := by
  apply Block.ext
  change (x.bytes ++ replicate 16 0).take 16 = x.bytes
  rw [take_left' x.length_eq]

variable {l : List UInt8}

theorem Block.ofList_append (hl : 16 ≤ l.length) (m : List UInt8) : Block.ofList (l ++ m) = Block.ofList l := by
  apply Block.ext
  change (l ++ m ++ replicate 16 0).take 16 = (l ++ replicate 16 0).take 16
  rw [append_assoc, take_append_of_le_length hl, take_append_of_le_length hl]

theorem Block.ofList_replicate (l : List UInt8) (n : Nat) : Block.ofList (l ++ replicate n 0) = Block.ofList l := by
  apply Block.ext
  change (l ++ replicate n 0 ++ replicate 16 0).take 16 = (l ++ replicate 16 0).take 16
  rw [append_assoc, replicate_append_replicate, take_append, take_append, take_replicate, take_replicate]
  congr 2
  omega

theorem blocks_nil : blocks [] = [] := by
  rw [blocks, if_pos rfl]

theorem blocks_append_block (hl : l.length = 16) (m : List UInt8) : blocks (l ++ m) = Block.ofList l :: blocks m := by
  have hne : l ++ m ≠ [] := by
    intro h
    rw [(append_eq_nil_iff.mp h).1] at hl
    contradiction
  rw [blocks, if_neg hne, drop_left' hl, Block.ofList_append (by omega)]

theorem blocks_of_short (hne : l ≠ []) (hl : l.length ≤ 16) : blocks l = [Block.ofList l] := by
  rw [blocks, if_neg hne, drop_eq_nil_of_le hl, blocks_nil]

theorem blocks_pad_append (l m : List UInt8) : blocks (pad l ++ m) = blocks l ++ blocks m := by
  induction l using blocks.induct with
  | case1 => rw [blocks_nil]; rfl
  | case2 l hne ih =>
    have hpos := length_pos_iff.mpr hne
    by_cases hlong : 16 ≤ l.length
    · have htake : (l.take 16).length = 16 := by rw [length_take, Nat.min_eq_left hlong]
      have hpad : pad l = l.take 16 ++ pad (l.drop 16) := by
        rw [pad, pad, length_drop, ← append_assoc, take_append_drop]
        congr 3
        omega
      have hl : blocks l = Block.ofList (l.take 16) :: blocks (l.drop 16) := by
        rw [← blocks_append_block htake, take_append_drop]
      rw [hpad, append_assoc, blocks_append_block htake, ih, hl, cons_append]
    · have hpadLen : (pad l).length = 16 := by
        rw [pad, length_append, length_replicate]
        omega
      rw [blocks_append_block hpadLen, pad, Block.ofList_replicate, blocks_of_short hne (by omega)]
      rfl

/-! ### Masks -/

variable (ciph inc : Block → Block)

variable (icb : Block)

variable (x : List UInt8)

def mask : List UInt8 :=
  x.mapIdx fun i b => b ^^^ (ciph (inc^[i / 16] icb)).bytes.getD (i % 16) 0

theorem mask_mask : mask ciph inc icb (mask ciph inc icb x) = x := by
  rw [mask, mask, mapIdx_mapIdx]
  refine ext_getElem (by simp) fun i _ _ => ?_
  rw [getElem_mapIdx]
  dsimp only [Function.comp_apply]
  rw [UInt8.xor_assoc, UInt8.xor_self, UInt8.xor_zero]

theorem length_mask : (mask ciph inc icb x).length = x.length :=
  length_mapIdx

variable {x : List UInt8}

theorem mask_of_short (hx : x.length ≤ 16) : mask ciph inc icb x = zipWith (· ^^^ ·) x (ciph icb).bytes := by
  have hlen := (ciph icb).length_eq
  refine ext_getElem (by rw [length_mask, length_zipWith]; omega) fun i hi hi' => ?_
  rw [length_mask] at hi
  have hdiv : i / 16 = 0 := by omega
  have hmod : i % 16 = i := by omega
  simp only [mask]
  rw [getElem_mapIdx, getElem_zipWith, hdiv, hmod, Function.iterate_zero_apply, getD_eq_getElem _ _ (by omega)]

theorem mask_append (hx : x.length = 16) (y : List UInt8) :
    mask ciph inc icb (x ++ y) = mask ciph inc icb x ++ mask ciph inc (inc icb) y := by
  rw [mask, mask, mask, mapIdx_append]
  refine congrArg (mapIdx _ x ++ ·) (ext_getElem (by simp) fun i _ _ => ?_)
  have hdiv : (i + x.length) / 16 = i / 16 + 1 := by omega
  have hmod : (i + x.length) % 16 = i % 16 := by omega
  rw [getElem_mapIdx, getElem_mapIdx, hdiv, hmod, Function.iterate_succ_apply]

end GaloisCounter
