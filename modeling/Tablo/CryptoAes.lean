import Tablo.GaloisCounter

/-! The block cipher, counter mode and Galois/Counter Mode of `crypto_aes.c`. -/

namespace Tablo.CryptoAes

open List

open GaloisCounter (Block Nonce)

/-! ### Block cipher -/

structure CryptoAesCtx where
  roundKey : List UInt8
  roundCount : Nat

def cryptoAesSbox : List UInt8 := [
  0x63, 0x7c, 0x77, 0x7b, 0xf2, 0x6b, 0x6f, 0xc5, 0x30, 0x01, 0x67, 0x2b, 0xfe, 0xd7, 0xab, 0x76,
  0xca, 0x82, 0xc9, 0x7d, 0xfa, 0x59, 0x47, 0xf0, 0xad, 0xd4, 0xa2, 0xaf, 0x9c, 0xa4, 0x72, 0xc0,
  0xb7, 0xfd, 0x93, 0x26, 0x36, 0x3f, 0xf7, 0xcc, 0x34, 0xa5, 0xe5, 0xf1, 0x71, 0xd8, 0x31, 0x15,
  0x04, 0xc7, 0x23, 0xc3, 0x18, 0x96, 0x05, 0x9a, 0x07, 0x12, 0x80, 0xe2, 0xeb, 0x27, 0xb2, 0x75,
  0x09, 0x83, 0x2c, 0x1a, 0x1b, 0x6e, 0x5a, 0xa0, 0x52, 0x3b, 0xd6, 0xb3, 0x29, 0xe3, 0x2f, 0x84,
  0x53, 0xd1, 0x00, 0xed, 0x20, 0xfc, 0xb1, 0x5b, 0x6a, 0xcb, 0xbe, 0x39, 0x4a, 0x4c, 0x58, 0xcf,
  0xd0, 0xef, 0xaa, 0xfb, 0x43, 0x4d, 0x33, 0x85, 0x45, 0xf9, 0x02, 0x7f, 0x50, 0x3c, 0x9f, 0xa8,
  0x51, 0xa3, 0x40, 0x8f, 0x92, 0x9d, 0x38, 0xf5, 0xbc, 0xb6, 0xda, 0x21, 0x10, 0xff, 0xf3, 0xd2,
  0xcd, 0x0c, 0x13, 0xec, 0x5f, 0x97, 0x44, 0x17, 0xc4, 0xa7, 0x7e, 0x3d, 0x64, 0x5d, 0x19, 0x73,
  0x60, 0x81, 0x4f, 0xdc, 0x22, 0x2a, 0x90, 0x88, 0x46, 0xee, 0xb8, 0x14, 0xde, 0x5e, 0x0b, 0xdb,
  0xe0, 0x32, 0x3a, 0x0a, 0x49, 0x06, 0x24, 0x5c, 0xc2, 0xd3, 0xac, 0x62, 0x91, 0x95, 0xe4, 0x79,
  0xe7, 0xc8, 0x37, 0x6d, 0x8d, 0xd5, 0x4e, 0xa9, 0x6c, 0x56, 0xf4, 0xea, 0x65, 0x7a, 0xae, 0x08,
  0xba, 0x78, 0x25, 0x2e, 0x1c, 0xa6, 0xb4, 0xc6, 0xe8, 0xdd, 0x74, 0x1f, 0x4b, 0xbd, 0x8b, 0x8a,
  0x70, 0x3e, 0xb5, 0x66, 0x48, 0x03, 0xf6, 0x0e, 0x61, 0x35, 0x57, 0xb9, 0x86, 0xc1, 0x1d, 0x9e,
  0xe1, 0xf8, 0x98, 0x11, 0x69, 0xd9, 0x8e, 0x94, 0x9b, 0x1e, 0x87, 0xe9, 0xce, 0x55, 0x28, 0xdf,
  0x8c, 0xa1, 0x89, 0x0d, 0xbf, 0xe6, 0x42, 0x68, 0x41, 0x99, 0x2d, 0x0f, 0xb0, 0x54, 0xbb, 0x16]

def cryptoAesRcon : List UInt8 := [0x00, 0x01, 0x02, 0x04, 0x08, 0x10, 0x20, 0x40, 0x80, 0x1b, 0x36]

def sbox (x : UInt8) : UInt8 := cryptoAesSbox.getD x.toNat 0

def cryptoAesXtime (x : UInt8) : UInt8 := (x <<< 1) ^^^ (((x >>> 7) &&& 1) * 0x1b)

def cryptoAesSubWord (word : List UInt8) : List UInt8 := word.map sbox

def cryptoAesRotWord (word : List UInt8) : List UInt8 := word.tail ++ word.take 1

def expandWord (nk : Nat) (roundKey : List UInt8) (i : Nat) : List UInt8 :=
  let temp := (roundKey.drop ((i - 1) * 4)).take 4
  let temp :=
    if i % nk = 0 then
      (cryptoAesSubWord (cryptoAesRotWord temp)).modify 0 (· ^^^ cryptoAesRcon.getD (i / nk) 0)
    else if nk > 6 ∧ i % nk = 4 then cryptoAesSubWord temp
    else temp
  roundKey ++ zipWith (· ^^^ ·) ((roundKey.drop ((i - nk) * 4)).take 4) temp

variable (key : List UInt8) (state : Block) (ctx : CryptoAesCtx) (counter : Block)

def expandKey (nk nr : Nat) : CryptoAesCtx :=
  ⟨(range' nk (4 * (nr + 1) - nk)).foldl (expandWord nk) key, nr⟩

def cryptoAesInit : Option CryptoAesCtx :=
  if key.length = 16 then some (expandKey key 4 10)
  else if key.length = 24 then some (expandKey key 6 12)
  else if key.length = 32 then some (expandKey key 8 14)
  else none

def cryptoAesXorBlock (dst src : Block) : Block := dst.xor src

def cryptoAesAddRoundKey (roundKey : List UInt8) : Block :=
  cryptoAesXorBlock state (.ofList roundKey)

def cryptoAesSubBytes : Block :=
  ⟨state.bytes.map sbox, by rw [length_map, state.length_eq]⟩

def shiftRowsSource : List Nat := [0, 5, 10, 15, 4, 9, 14, 3, 8, 13, 2, 7, 12, 1, 6, 11]

def cryptoAesShiftRows : Block := ⟨shiftRowsSource.map fun i => state.bytes.getD i 0, rfl⟩

def mixColumn (a0 a1 a2 a3 : UInt8) : List UInt8 :=
  let sum := a0 ^^^ a1 ^^^ a2 ^^^ a3
  [a0 ^^^ (sum ^^^ cryptoAesXtime (a0 ^^^ a1)), a1 ^^^ (sum ^^^ cryptoAesXtime (a1 ^^^ a2)),
    a2 ^^^ (sum ^^^ cryptoAesXtime (a2 ^^^ a3)), a3 ^^^ (sum ^^^ cryptoAesXtime (a3 ^^^ a0))]

def cryptoAesMixColumns : Block :=
  let a := fun i => state.bytes.getD i 0
  ⟨[0, 4, 8, 12].flatMap fun col => mixColumn (a col) (a (col + 1)) (a (col + 2)) (a (col + 3)), rfl⟩

def encryptRound (state : Block) (round : Nat) : Block :=
  cryptoAesAddRoundKey (cryptoAesMixColumns (cryptoAesShiftRows (cryptoAesSubBytes state)))
    (ctx.roundKey.drop (round * 16))

def cryptoAesEncryptBlock (input : Block) : Block :=
  let state := cryptoAesAddRoundKey input ctx.roundKey
  let state := (range' 1 (ctx.roundCount - 1)).foldl (encryptRound ctx) state
  cryptoAesAddRoundKey (cryptoAesShiftRows (cryptoAesSubBytes state)) (ctx.roundKey.drop (ctx.roundCount * 16))

/-! ### Counter mode -/

/-- The counter loop over its bytes from the last one on: it stops at the first byte that does not
become zero. -/
def incrementBytes : List UInt8 → List UInt8
  | [] => []
  | x :: xs => if x + 1 ≠ 0 then (x + 1) :: xs else (x + 1) :: incrementBytes xs

theorem length_incrementBytes (xs : List UInt8) : (incrementBytes xs).length = xs.length := by
  induction xs with
  | nil => rfl
  | cons x xs ih =>
    rw [incrementBytes]
    split
    · rfl
    · rw [length_cons, ih, length_cons]

def incrementFrom (first : Nat) (counter : Block) : Block :=
  ⟨counter.bytes.take first ++ (incrementBytes (counter.bytes.drop first).reverse).reverse, by
    have hlen := counter.length_eq
    rw [length_append, length_reverse, length_incrementBytes, length_reverse, length_take, length_drop]
    omega⟩

def cryptoAesIncrementCounter : Block := incrementFrom 0 counter

def cryptoAesIncrementCounter32 : Block := incrementFrom 12 counter

/-- The loop of `crypto_aes_ctr`, `crypto_aes_gcm_seal` and `crypto_aes_gcm_open`. -/
def streamLoop (ctx : CryptoAesCtx) (increment : Block → Block) (counter : Block) (input : List UInt8) : List UInt8 :=
  if input = [] then []
  else
    zipWith (· ^^^ ·) (input.take 16) (cryptoAesEncryptBlock ctx counter).bytes ++
      streamLoop ctx increment (increment counter) (input.drop 16)
termination_by input.length
decreasing_by
  rename_i h
  have hpos := length_pos_iff.mpr h
  rw [length_drop]
  omega

/-- `none` is the answer false. -/
def cryptoAesCtr (input : List UInt8) : Option (List UInt8) := do
  let ctx ← cryptoAesInit key
  some (streamLoop ctx cryptoAesIncrementCounter counter input)

/-! ### Galois/Counter Mode -/

def shiftRightBytes (carry : UInt8) : List UInt8 → List UInt8
  | [] => []
  | x :: xs => ((x >>> 1) ||| (if carry ≠ 0 then 0x80 else 0)) :: shiftRightBytes (x &&& 1) xs

theorem length_shiftRightBytes (carry : UInt8) (xs : List UInt8) : (shiftRightBytes carry xs).length = xs.length := by
  induction xs generalizing carry with
  | nil => rfl
  | cons x xs ih => rw [shiftRightBytes, length_cons, ih, length_cons]

def cryptoAesShiftRightOne (block : Block) : Block :=
  ⟨shiftRightBytes 0 block.bytes, by rw [length_shiftRightBytes, block.length_eq]⟩

def reduceBlock (v : Block) : Block := ⟨v.bytes.modify 0 (· ^^^ 0xe1), by rw [length_modify, v.length_eq]⟩

def multiplyStep (x : Block) (zv : Block × Block) (i : Nat) : Block × Block :=
  let (z, v) := zv
  let bit := (x.bytes.getD (i / 8) 0 >>> UInt8.ofNat (7 - i % 8)) &&& 1
  let z := if bit ≠ 0 then cryptoAesXorBlock z v else z
  let lsb := v.bytes.getD 15 0 &&& 1
  let v := cryptoAesShiftRightOne v
  let v := if lsb ≠ 0 then reduceBlock v else v
  (z, v)

def cryptoAesGcmMultiply (x y : Block) : Block := ((range 128).foldl (multiplyStep x) (.zero, y)).1

def cryptoAesGcmGhashUpdate (y h : Block) (data : List UInt8) : Block :=
  if data.length ≥ 16 then
    cryptoAesGcmGhashUpdate (cryptoAesGcmMultiply (cryptoAesXorBlock y (.ofList data)) h) h (data.drop 16)
  else if data.length > 0 then cryptoAesGcmMultiply (cryptoAesXorBlock y (.ofList data)) h
  else y
termination_by data.length

/-- The loop of `crypto_aes_store_u64_be` on the `n` bytes not yet written, the last one first. -/
def storeBytes : Nat → Nat → List UInt8
  | 0, _ => []
  | n + 1, value => storeBytes n (value / 256) ++ [UInt8.ofNat value]

def cryptoAesStoreU64Be (value : Nat) : List UInt8 := storeBytes 8 value

def uint64Max : Nat := 18446744073709551615

variable (nonce : Nonce)

def initialCounter : Block := ⟨nonce.1 ++ [0x00, 0x00, 0x00, 0x01], GaloisCounter.length_nonce_append nonce⟩

def cryptoAesGcmBuildTag (aad ciphertext : List UInt8) : Option Block :=
  if aad.length > uint64Max / 8 ∨ ciphertext.length > uint64Max / 8 then none
  else
    let h := cryptoAesEncryptBlock ctx .zero
    let y := cryptoAesGcmGhashUpdate .zero h aad
    let y := cryptoAesGcmGhashUpdate y h ciphertext
    let lenBlock := Block.ofList (cryptoAesStoreU64Be (aad.length * 8) ++ cryptoAesStoreU64Be (ciphertext.length * 8))
    let y := cryptoAesGcmMultiply (cryptoAesXorBlock y lenBlock) h
    some (cryptoAesXorBlock (cryptoAesEncryptBlock ctx (initialCounter nonce)) y)

def cryptoAesConstantTimeEqual (a b : Block) : Bool :=
  (zipWith (· ^^^ ·) a.bytes b.bytes).foldl (· ||| ·) 0 == 0

def cryptoAesGcmSeal (aad plaintext : List UInt8) : Option (List UInt8 × Block) := do
  let ctx ← cryptoAesInit key
  let counter := cryptoAesIncrementCounter32 (initialCounter nonce)
  let ciphertext := streamLoop ctx cryptoAesIncrementCounter32 counter plaintext
  let tag ← cryptoAesGcmBuildTag ctx nonce aad ciphertext
  some (ciphertext, tag)

def cryptoAesGcmOpen (aad ciphertext : List UInt8) (tag : Block)
    (out : List UInt8) : Bool × List UInt8 :=
  match cryptoAesInit key with
  | none => (false, out)
  | some ctx =>
    match cryptoAesGcmBuildTag ctx nonce aad ciphertext with
    | none => (false, out)
    | some computedTag =>
      if cryptoAesConstantTimeEqual computedTag tag then
        let counter := cryptoAesIncrementCounter32 (initialCounter nonce)
        let plaintext := streamLoop ctx cryptoAesIncrementCounter32 counter ciphertext
        (true, plaintext ++ out.drop plaintext.length)
      else (false, out)

end Tablo.CryptoAes
