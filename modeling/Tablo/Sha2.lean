import Mathlib.Data.BitVec
import Mathlib.Data.Nat.NthRoot.Defs

/-! SHA-256 as FIPS 180-4 states it, for messages of whole bytes. The chaining
value runs over the complete blocks of a message; the last incomplete block of
an unpadded message is not read. -/

namespace Sha2

open List

abbrev Byte := BitVec 8
abbrev Word := BitVec 32

/-- The eight words of a chaining value, and the working variables of a round. -/
structure Hash where
  a : Word
  b : Word
  c : Word
  d : Word
  e : Word
  f : Word
  g : Word
  h : Word
deriving DecidableEq

instance : Add Hash :=
  ⟨fun x y => ⟨x.a + y.a, x.b + y.b, x.c + y.c, x.d + y.d, x.e + y.e, x.f + y.f, x.g + y.g, x.h + y.h⟩⟩

theorem Hash.add_def (x y : Hash) : x + y =
    ⟨x.a + y.a, x.b + y.b, x.c + y.c, x.d + y.d, x.e + y.e, x.f + y.f, x.g + y.g, x.h + y.h⟩ := rfl

def Hash.words (v : Hash) : List Word := [v.a, v.b, v.c, v.d, v.e, v.f, v.g, v.h]

def ch (x y z : Word) : Word := (x &&& y) ^^^ (~~~x &&& z)

def maj (x y z : Word) : Word := (x &&& y) ^^^ (x &&& z) ^^^ (y &&& z)

variable (x : Word) {v : Hash}

def bigSigma0 : Word := x.rotateRight 2 ^^^ x.rotateRight 13 ^^^ x.rotateRight 22

def bigSigma1 : Word := x.rotateRight 6 ^^^ x.rotateRight 11 ^^^ x.rotateRight 25

def smallSigma0 : Word := x.rotateRight 7 ^^^ x.rotateRight 18 ^^^ (x >>> 3)

def smallSigma1 : Word := x.rotateRight 17 ^^^ x.rotateRight 19 ^^^ (x >>> 10)

def IsPrime (n : Nat) : Bool := 2 ≤ n && (range n).all fun d => d < 2 || n % d != 0

def primes : List Nat := (range 312).filter IsPrime

def fractionBits (n p : Nat) : Word := BitVec.ofNat 32 (Nat.nthRoot n (p * 2 ^ (32 * n)))

theorem primes_eq : primes =
    [2, 3, 5, 7, 11, 13, 17, 19, 23, 29, 31, 37, 41, 43, 47, 53, 59, 61, 67, 71, 73, 79, 83, 89, 97, 101, 103, 107,
      109, 113, 127, 131, 137, 139, 149, 151, 157, 163, 167, 173, 179, 181, 191, 193, 197, 199, 211, 223, 227, 229,
      233, 239, 241, 251, 257, 263, 269, 271, 277, 281, 283, 293, 307, 311] := by
  decide +kernel

def roundConstant (t : Nat) : Word := fractionBits 3 (primes.getD t 0)

def initialHash : Hash :=
  let root := fun i => fractionBits 2 (primes.getD i 0)
  ⟨root 0, root 1, root 2, root 3, root 4, root 5, root 6, root 7⟩

def octets {w : Nat} (n : Nat) (x : BitVec w) : List Byte :=
  (range n).map fun i => x.extractLsb' (8 * (n - 1 - i)) 8

@[simp] theorem length_octets {w : Nat} (n : Nat) (x : BitVec w) : (octets n x).length = n := by
  simp [octets]

def blockWord (block : List Byte) (t : Nat) : Word :=
  block.getD (4 * t) 0 ++ block.getD (4 * t + 1) 0 ++ block.getD (4 * t + 2) 0 ++ block.getD (4 * t + 3) 0

def schedule (block : List Byte) (t : Nat) : Word :=
  if t < 16 then blockWord block t
  else
    smallSigma1 (schedule block (t - 2)) + schedule block (t - 7) + smallSigma0 (schedule block (t - 15)) +
      schedule block (t - 16)

def round (constant word : Word) (v : Hash) : Hash :=
  let t1 := v.h + bigSigma1 v.e + ch v.e v.f v.g + constant + word
  let t2 := bigSigma0 v.a + maj v.a v.b v.c
  ⟨t1 + t2, v.a, v.b, v.c, v.d + t1, v.e, v.f, v.g⟩

def compress (v : Hash) (block : List Byte) : Hash :=
  (range 64).foldl (fun v t => round (roundConstant t) (schedule block t) v) v + v

def chain (v : Hash) (message : List Byte) : Hash :=
  if message.length < 64 then v else chain (compress v (message.take 64)) (message.drop 64)
termination_by message.length
decreasing_by simp; omega

def padZeros (n : Nat) : Nat := (119 - n % 64) % 64

def padding (n : Nat) : List Byte :=
  [0x80] ++ replicate (padZeros n) 0 ++ octets 8 (BitVec.ofNat 64 (8 * n))

def digest (v : Hash) : List Byte := v.words.flatMap (octets 4)

def sha256 (message : List Byte) : List Byte :=
  digest (chain initialHash (message ++ padding message.length))

@[simp] theorem length_digest (v : Hash) : (digest v).length = 32 := by
  simp [digest, Hash.words]

theorem length_sha256 (message : List Byte) : (sha256 message).length = 32 := length_digest _

theorem chain_short {message : List Byte} (h : message.length < 64) : chain v message = v := by
  rw [chain, if_pos h]

theorem chain_block {block rest : List Byte} (h : block.length = 64) :
    chain v (block ++ rest) = chain (compress v block) rest := by
  rw [chain, if_neg (by simp; omega), take_left' h, drop_left' h]

theorem chain_single {block : List Byte} (h : block.length = 64) : chain v block = compress v block := by
  have hc : chain v (block ++ []) = chain (compress v block) [] := chain_block h
  have hnil : chain (compress v block) [] = compress v block := chain_short (by simp)
  rw [hnil, append_nil] at hc
  exact hc

theorem chain_append {whole : List Byte} (rest : List Byte) (h : whole.length % 64 = 0) :
    chain v (whole ++ rest) = chain (chain v whole) rest := by
  induction hn : whole.length / 64 generalizing v whole with
  | zero =>
    have hw : whole = [] := List.length_eq_zero_iff.mp (by omega)
    rw [hw, show chain v [] = v from chain_short (by simp), nil_append]
  | succ n ih =>
    have htake : (whole.take 64).length = 64 := by simp; omega
    have hdrop : (whole.drop 64).length = whole.length - 64 := by simp
    have hsplit := take_append_drop 64 whole
    have hrest := @ih (compress v (whole.take 64)) (whole.drop 64) (by omega) (by omega)
    rw [← chain_block htake, ← chain_block htake, ← append_assoc, hsplit] at hrest
    exact hrest

end Sha2
