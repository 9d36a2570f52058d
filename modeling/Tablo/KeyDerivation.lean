import Mathlib.Data.BitVec

/-! Keyed hashing and key derivation over an arbitrary hash: HMAC (RFC 2104),
HKDF (RFC 5869) and PBKDF2 (RFC 8018). -/

namespace KeyDerivation

abbrev Byte := BitVec 8

variable (block : Nat → List Byte)

def blocks (n : Nat) : List Byte := (List.range n).flatMap fun i => block (i + 1)

@[simp] theorem blocks_zero : blocks block 0 = [] := rfl

theorem blocks_succ (n : Nat) : blocks block (n + 1) = blocks block n ++ block (n + 1) := by
  simp [blocks, List.range_succ]

theorem length_blocks {block : Nat → List Byte} {size : Nat} (h : ∀ i, (block (i + 1)).length = size) (n : Nat) :
    (blocks block n).length = size * n := by
  induction n with
  | zero => rfl
  | succ n ih => rw [blocks_succ, List.length_append, ih, h, Nat.mul_succ]

theorem take_blocks_succ (n len : Nat) : (blocks block (n + 1)).take len =
      (blocks block n).take len ++ (block (n + 1)).take (len - ((blocks block n).take len).length) := by
  rw [blocks_succ, List.take_append, List.length_take]
  congr 2
  omega

def output (size : Nat) (block : Nat → List Byte) (len : Nat) : List Byte :=
  (blocks block ((len + size - 1) / size)).take len

section Hmac

variable (hash : List Byte → List Byte) (blockLen : Nat)

def keyBlock (key : List Byte) : List Byte :=
  let k := if key.length > blockLen then hash key else key
  k ++ List.replicate (blockLen - k.length) 0

def hmac (key text : List Byte) : List Byte :=
  let k := keyBlock hash blockLen key
  hash (k.map (· ^^^ 0x5c) ++ hash (k.map (· ^^^ 0x36) ++ text))

end Hmac

variable (prf : List Byte → List Byte → List Byte) (hashLen : Nat) (int : Nat → List Byte)

def hkdfExtract (salt ikm : List Byte) : List Byte :=
  prf (if salt = [] then List.replicate hashLen 0 else salt) ikm

/-- The chain `T(0)`, `T(1)`, … of HKDF's expansion. -/
def hkdfBlock (prk info : List Byte) : Nat → List Byte
  | 0 => []
  | i + 1 => prf prk (hkdfBlock prk info i ++ info ++ [BitVec.ofNat 8 (i + 1)])

def hkdf (ikm salt info : List Byte) (len : Nat) : List Byte :=
  output hashLen (hkdfBlock prf (hkdfExtract prf hashLen salt ikm) info) len

/-- The chain `U_1`, `U_2`, … of PBKDF2, from index 0. -/
def pbkdf2Chain (password seed : List Byte) : Nat → List Byte
  | 0 => prf password seed
  | j + 1 => prf password (pbkdf2Chain password seed j)

def pbkdf2Sum (password seed : List Byte) : Nat → List Byte
  | 0 => pbkdf2Chain prf password seed 0
  | n + 1 => List.zipWith (· ^^^ ·) (pbkdf2Sum password seed n) (pbkdf2Chain prf password seed (n + 1))

/-- The block `F(P, S, c, i)`; `int` writes a block number in four bytes. -/
def pbkdf2Block (password salt : List Byte) (iterations i : Nat) : List Byte :=
  pbkdf2Sum prf password (salt ++ int i) (iterations - 1)

def pbkdf2 (password salt : List Byte) (iterations len : Nat) : List Byte :=
  output hashLen (pbkdf2Block prf int password salt iterations) len

variable {prf hashLen}

variable (h : ∀ key text, (prf key text).length = hashLen)

include h

theorem length_hkdfBlock (prk info : List Byte) (i : Nat) :
    (hkdfBlock prf prk info (i + 1)).length = hashLen := h _ _

theorem length_pbkdf2Sum (password seed : List Byte) (n : Nat) :
    (pbkdf2Sum prf password seed n).length = hashLen := by
  have hchain : ∀ j, (pbkdf2Chain prf password seed j).length = hashLen := by
    intro j
    cases j with
    | zero | succ j => exact h _ _
  induction n with
  | zero => exact hchain 0
  | succ n ih => rw [pbkdf2Sum, List.length_zipWith, ih, hchain, Nat.min_self]

end KeyDerivation
