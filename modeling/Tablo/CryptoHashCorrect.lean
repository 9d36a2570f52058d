import Tablo.CryptoHashStream

/-! HMAC, HKDF and PBKDF2 of `crypto_hash.c` against their RFCs. The counter of
PBKDF2's block loop has as many bits as the largest number of blocks, so the
loop over the largest number of blocks has no end. -/

namespace Tablo.CryptoHash

open List BitVec
open BitVec (ofNat)
open KeyDerivation (blocks_zero hkdfBlock hkdfExtract keyBlock pbkdf2Block pbkdf2Chain pbkdf2Sum take_blocks_succ)

open Sha2 (Byte Word Hash)

/-- HMAC-SHA-256 by RFC 2104. -/
def hmacSpec (key text : List Byte) : List Byte := KeyDerivation.hmac Sha2.sha256 64 key text

def int32 (i : Nat) : List Byte := Sha2.octets 4 (BitVec.ofNat 32 i)

def hkdfSpec (ikm salt info : List Byte) (len : Nat) : List Byte := KeyDerivation.hkdf hmacSpec 32 ikm salt info len

def pbkdf2Spec (password salt : List Byte) (iterations len : Nat) : List Byte :=
  KeyDerivation.pbkdf2 hmacSpec 32 int32 password salt iterations len

theorem length_hmacSpec (key text : List Byte) : (hmacSpec key text).length = 32 := Sha2.length_sha256 _

theorem hmacKeyBlock_eq (key : List Byte) : hmacKeyBlock key = keyBlock Sha2.sha256 64 key := by
  rw [hmacKeyBlock, keyBlock]
  split
  next h =>
    -- a long key is hashed first
    simp only [copyInto, cryptoSha256_eq, drop_replicate]
  next h =>
    split
    next hpos => simp only [copyInto, drop_replicate]
    next hzero =>
      have hnil : key = [] := length_eq_zero_iff.mp (by omega)
      simp [hnil]

theorem cryptoHmacSha256_eq (key text : List Byte) : cryptoHmacSha256 key text = hmacSpec key text := by
  have htwo := fun x y => final_updates [x, y]
  simp only [foldl_cons, foldl_nil, flatten_cons, flatten_nil, append_nil] at htwo
  rw [cryptoHmacSha256]
  simp only [htwo, hmacKeyBlock_eq]
  rfl

theorem take_block {t : List Byte} (h : t.length = 32) (n : Nat) : t.take (if n > 32 then 32 else n) = t.take n := by
  split
  next hn => rw [take_of_length_le (by omega), take_of_length_le (by omega)]
  next => rfl

theorem hkdfLoop_eq (prk info : List Byte) {outLen n passes : Nat} (hn : n ≤ (outLen + 32 - 1) / 32)
    (hp : outLen ≤ passes + 32 * n) :
    hkdfLoop prk info outLen passes (hkdfBlock hmacSpec prk info n) (ofNat 8 (n + 1))
        ((KeyDerivation.blocks (hkdfBlock hmacSpec prk info) n).take outLen) =
      KeyDerivation.output 32 (hkdfBlock hmacSpec prk info) outLen := by
  have hlen := KeyDerivation.length_blocks (KeyDerivation.length_hkdfBlock length_hmacSpec prk info)
  -- nothing is missing once the blocks reach the end of the output
  have hdone : ∀ n ≤ (outLen + 32 - 1) / 32, outLen ≤ 32 * n → n = (outLen + 32 - 1) / 32 := by
    intro n hn h
    omega
  induction passes generalizing n with
  | zero => rw [hkdfLoop, KeyDerivation.output, hdone n hn (by omega)]
  | succ passes ih =>
    rw [hkdfLoop]
    split
    next hlt =>
      rw [length_take, hlen] at hlt
      simp only [cryptoHmacSha256_eq]
      rw [take_block (length_hmacSpec _ _)]
      have hnext := take_blocks_succ (hkdfBlock hmacSpec prk info) n outLen
      have hcounter : ofNat 8 (n + 1) + 1 = ofNat 8 (n + 1 + 1) := (ofNat_add _ _).symm
      rw [hcounter]
      rw [hkdfBlock] at hnext
      rw [← hnext]
      exact @ih (n + 1) (by omega) (by omega)
    next hge =>
      rw [length_take, hlen] at hge
      rw [KeyDerivation.output, hdone n hn (by omega)]

theorem cryptoHkdfHmacSha256_eq (ikm salt : List Byte) {info : List Byte} {outLen : Nat}
    (hlen : outLen ≤ 255 * 32) (hinfo : info.length ≤ sizeMax - 33) :
    cryptoHkdfHmacSha256 ikm salt info outLen = some (hkdfSpec ikm salt info outLen) := by
  rw [cryptoHkdfHmacSha256, hkdfSpec]
  split
  next hzero =>
    rw [hzero]
    rfl
  next hzero =>
    rw [if_neg (by omega), if_neg (by omega)]
    have hprk : (if salt.length = 0 then cryptoHmacSha256 (List.replicate 32 0) ikm else cryptoHmacSha256 salt ikm) =
        hkdfExtract hmacSpec 32 salt ikm := by
      rw [cryptoHmacSha256_eq, cryptoHmacSha256_eq]
      cases salt with
      | nil | cons b salt => rfl
    rw [hprk]
    have hloop := @hkdfLoop_eq (hkdfExtract hmacSpec 32 salt ikm) info outLen 0 outLen
      (by omega) (by omega)
    rw [blocks_zero, take_nil] at hloop
    exact congrArg some hloop

section Pbkdf2

variable (password salt : List Byte) (iterations : BitVec 32) (outLen : Nat)

theorem iterateLoop_eq (seed : List Byte) (n j : Nat) :
    iterateLoop password n (pbkdf2Chain hmacSpec password seed j)
        (pbkdf2Sum hmacSpec password seed j) =
      pbkdf2Sum hmacSpec password seed (j + n) := by
  induction n generalizing j with
  | zero => rfl
  | succ n ih =>
    have hnext := ih (j + 1)
    rw [iterateLoop, cryptoHmacSha256_eq, show j + (n + 1) = j + 1 + n by omega, ← hnext]
    rfl

theorem saltBlock_eq (i : Nat) : saltBlock salt (ofNat 32 i) = salt ++ int32 i := by
  simp [saltBlock, int32, Sha2.octets, range_succ, ← setWidth_ushiftRight_eq_extractLsb]

theorem blockLoop_succ (fuel i : Nat) (out : List Byte) :
    blockLoop password salt iterations outLen (fuel + 1) (ofNat 32 i) out =
      if ofNat 32 i ≤ ofNat 32 (blockCount outLen) then
        blockLoop password salt iterations outLen fuel (ofNat 32 (i + 1))
          (out ++ (pbkdf2Block hmacSpec int32 password salt iterations.toNat i).take (outLen - out.length))
      else some out := by
  have hsum := iterateLoop_eq password (salt ++ int32 i) (iterations.toNat - 1) 0
  rw [Nat.zero_add, pbkdf2Sum, pbkdf2Chain] at hsum
  rw [blockLoop]
  simp only [saltBlock_eq, cryptoHmacSha256_eq, hsum]
  rw [take_block (KeyDerivation.length_pbkdf2Sum length_hmacSpec _ _ _), ofNat_add]
  rfl

theorem blockCount_eq {outLen : Nat} (h : outLen ≤ (2 ^ 32 - 1) * 32) : blockCount outLen = (outLen + 31) / 32 := by
  rw [blockCount, Nat.mod_eq_of_lt (by omega)]

theorem blockLoop_eq {outLen n : Nat} (h : outLen ≤ (2 ^ 32 - 2) * 32) (hn : n ≤ blockCount outLen) :
    blockLoop password salt iterations outLen (blockCount outLen - n + 1) (ofNat 32 (n + 1))
        ((KeyDerivation.blocks (pbkdf2Block hmacSpec int32 password salt iterations.toNat) n).take outLen) =
      some (pbkdf2Spec password salt iterations.toNat outLen) := by
  have hcount : blockCount outLen = (outLen + 31) / 32 := blockCount_eq (by omega)
  induction hk : blockCount outLen - n generalizing n with
  | zero =>
    have he : n = blockCount outLen := by omega
    have hgt : ¬ ofNat 32 (n + 1) ≤ ofNat 32 (blockCount outLen) := by
      rw [le_def, toNat_ofNat, toNat_ofNat, Nat.mod_eq_of_lt (by omega)]
      omega
    rw [blockLoop_succ, if_neg hgt, he, hcount]
    rfl
  | succ k ih =>
    have hle : ofNat 32 (n + 1) ≤ ofNat 32 (blockCount outLen) := by
      rw [le_def, toNat_ofNat, toNat_ofNat, Nat.mod_eq_of_lt (by omega)]
      omega
    rw [blockLoop_succ, if_pos hle, ← take_blocks_succ]
    exact ih (by omega) (by omega)

theorem blockLoop_endless {outLen : Nat} (h : blockCount outLen = uint32Max) (fuel i : Nat) (out : List Byte) :
    blockLoop password salt iterations outLen fuel (ofNat 32 i) out = none := by
  induction fuel generalizing i out with
  | zero => rfl
  | succ fuel ih =>
    have hle : ofNat 32 i ≤ ofNat 32 (blockCount outLen) := by
      rw [h, le_def]
      have hmax : (ofNat 32 uint32Max).toNat = 2 ^ 32 - 1 := rfl
      omega
    rw [blockLoop_succ, if_pos hle]
    exact ih _ _

variable {password salt iterations outLen}

section

variable (hiter : iterations ≠ 0) (hsalt : salt.length ≤ sizeMax - 4)

include hiter hsalt

theorem cryptoPbkdf2HmacSha256_loop (hlen : outLen ≤ (2 ^ 32 - 1) * 32) (hpos : outLen ≠ 0) (fuel : Nat) :
    cryptoPbkdf2HmacSha256 password salt iterations outLen fuel =
      (blockLoop password salt iterations outLen fuel 1 []).map some := by
  have hcount : ¬ blockCount outLen > uint32Max := by
    rw [blockCount_eq hlen, uint32Max]
    omega
  rw [cryptoPbkdf2HmacSha256, if_neg hiter, if_neg hpos, if_neg (by omega), if_neg hcount]

theorem cryptoPbkdf2HmacSha256_eq (hlen : outLen ≤ (2 ^ 32 - 2) * 32) :
    ∃ fuel, cryptoPbkdf2HmacSha256 password salt iterations outLen fuel =
      some (some (pbkdf2Spec password salt iterations.toNat outLen)) := by
  by_cases hzero : outLen = 0
  · refine ⟨0, ?_⟩
    rw [cryptoPbkdf2HmacSha256, if_neg hiter, hzero]
    rfl
  · refine ⟨blockCount outLen + 1, ?_⟩
    have hloop := blockLoop_eq password salt iterations hlen (Nat.zero_le _)
    rw [blocks_zero, take_nil] at hloop
    rw [cryptoPbkdf2HmacSha256_loop hiter hsalt (by omega) hzero]
    exact congrArg (Option.map some) hloop

theorem cryptoPbkdf2HmacSha256_endless
    (hlen : outLen ≤ (2 ^ 32 - 1) * 32) (hlong : (2 ^ 32 - 2) * 32 < outLen) (fuel : Nat) :
    cryptoPbkdf2HmacSha256 password salt iterations outLen fuel = none := by
  have hcount : blockCount outLen = uint32Max := by
    rw [blockCount_eq hlen, uint32Max]
    omega
  rw [cryptoPbkdf2HmacSha256_loop hiter hsalt hlen (by omega)]
  exact congrArg (Option.map some) (blockLoop_endless password salt iterations hcount fuel 1 [])

end

end Pbkdf2

end Tablo.CryptoHash
