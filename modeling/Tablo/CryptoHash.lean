import Tablo.Sha2
import Tablo.KeyDerivation

/-! Model of `crypto_hash.c`: the streaming SHA-256 context with its buffer of
64 bytes, HMAC, HKDF and PBKDF2. The buffer is indeterminate after
`crypto_sha256_init`; here it is zero. -/

namespace Tablo.CryptoHash

open Sha2 (Byte Word Hash)

def sizeMax : Nat := 2 ^ 64 - 1
def uint32Max : Nat := 2 ^ 32 - 1

structure CryptoSha256Ctx where
  data : List Byte
  datalen : Nat
  bitlen : BitVec 64
  /-- The array `state[8]`, entry by entry. -/
  state : Hash

def cryptoSha256Rotr (value : Word) (amount : Nat) : Word := (value >>> amount) ||| (value <<< (32 - amount))

def cryptoSha256Ch (x y z : Word) : Word := (x &&& y) ^^^ (~~~x &&& z)

def cryptoSha256Maj (x y z : Word) : Word := (x &&& y) ^^^ (x &&& z) ^^^ (y &&& z)

variable (x : Word) (data : List Byte) (ctx : CryptoSha256Ctx)

def cryptoSha256Sigma0 : Word :=
  cryptoSha256Rotr x 2 ^^^ cryptoSha256Rotr x 13 ^^^ cryptoSha256Rotr x 22

def cryptoSha256Sigma1 : Word :=
  cryptoSha256Rotr x 6 ^^^ cryptoSha256Rotr x 11 ^^^ cryptoSha256Rotr x 25

def cryptoSha256Gamma0 : Word := cryptoSha256Rotr x 7 ^^^ cryptoSha256Rotr x 18 ^^^ (x >>> 3)

def cryptoSha256Gamma1 : Word := cryptoSha256Rotr x 17 ^^^ cryptoSha256Rotr x 19 ^^^ (x >>> 10)

def k : List Word :=
  [0x428a2f98, 0x71374491, 0xb5c0fbcf, 0xe9b5dba5, 0x3956c25b, 0x59f111f1, 0x923f82a4, 0xab1c5ed5,
   0xd807aa98, 0x12835b01, 0x243185be, 0x550c7dc3, 0x72be5d74, 0x80deb1fe, 0x9bdc06a7, 0xc19bf174,
   0xe49b69c1, 0xefbe4786, 0x0fc19dc6, 0x240ca1cc, 0x2de92c6f, 0x4a7484aa, 0x5cb0a9dc, 0x76f988da,
   0x983e5152, 0xa831c66d, 0xb00327c8, 0xbf597fc7, 0xc6e00bf3, 0xd5a79147, 0x06ca6351, 0x14292967,
   0x27b70a85, 0x2e1b2138, 0x4d2c6dfc, 0x53380d13, 0x650a7354, 0x766a0abb, 0x81c2c92e, 0x92722c85,
   0xa2bfe8a1, 0xa81a664b, 0xc24b8b70, 0xc76c51a3, 0xd192e819, 0xd6990624, 0xf40e3585, 0x106aa070,
   0x19a4c116, 0x1e376c08, 0x2748774c, 0x34b0bcb5, 0x391c0cb3, 0x4ed8aa4a, 0x5b9cca4f, 0x682e6ff3,
   0x748f82ee, 0x78a5636f, 0x84c87814, 0x8cc70208, 0x90befffa, 0xa4506ceb, 0xbef9a3f7, 0xc67178f2]

def loadWord (i : Nat) : Word :=
  ((data.getD (i * 4) 0).setWidth 32 <<< 24) ||| ((data.getD (i * 4 + 1) 0).setWidth 32 <<< 16) |||
    ((data.getD (i * 4 + 2) 0).setWidth 32 <<< 8) ||| (data.getD (i * 4 + 3) 0).setWidth 32

def extendWords (m : List Word) (i : Nat) : List Word :=
  m ++ [cryptoSha256Gamma1 (m.getD (i - 2) 0) + m.getD (i - 7) 0 + cryptoSha256Gamma0 (m.getD (i - 15) 0) +
    m.getD (i - 16) 0]

def messageWords : List Word :=
  (List.range' 16 48).foldl extendWords ((List.range 16).map (loadWord data))

def roundStep (m : List Word) (v : Hash) (i : Nat) : Hash :=
  let t1 := v.h + cryptoSha256Sigma1 v.e + cryptoSha256Ch v.e v.f v.g + k.getD i 0 + m.getD i 0
  let t2 := cryptoSha256Sigma0 v.a + cryptoSha256Maj v.a v.b v.c
  { a := t1 + t2, b := v.a, c := v.b, d := v.c, e := v.d + t1, f := v.e, g := v.f, h := v.g }

def cryptoSha256Transform (data : List Byte) : CryptoSha256Ctx :=
  let m := messageWords data
  let v := (List.range 64).foldl (roundStep m) ctx.state
  let s := ctx.state
  { ctx with state :=
      { a := s.a + v.a, b := s.b + v.b, c := s.c + v.c, d := s.d + v.d
        e := s.e + v.e, f := s.f + v.f, g := s.g + v.g, h := s.h + v.h } }

def cryptoSha256Init : CryptoSha256Ctx where
  data := List.replicate 64 0
  datalen := 0
  bitlen := 0
  state :=
    { a := 0x6a09e667, b := 0xbb67ae85, c := 0x3c6ef372, d := 0xa54ff53a
      e := 0x510e527f, f := 0x9b05688c, g := 0x1f83d9ab, h := 0x5be0cd19 }

def updateByte (byte : Byte) : CryptoSha256Ctx :=
  let ctx := { ctx with data := ctx.data.set ctx.datalen byte, datalen := ctx.datalen + 1 }
  if ctx.datalen = 64 then
    let ctx := cryptoSha256Transform ctx ctx.data
    { ctx with bitlen := ctx.bitlen + 512, datalen := 0 }
  else ctx

def cryptoSha256UpdateCtx (data : List Byte) : CryptoSha256Ctx := data.foldl updateByte ctx

/-- The loop `while (i < stop) data[i++] = 0`. -/
def zeroFill (data : List Byte) (i stop : Nat) : List Byte :=
  if i < stop then zeroFill (data.set i 0) (i + 1) stop else data
termination_by stop - i

def writeBitlen (bitlen : BitVec 64) : List Byte :=
  (List.range 8).foldl (fun data i => data.set (63 - i) ((bitlen >>> (8 * i)).setWidth 8)) data

def outputByte (w : Word) (i : Nat) : Byte := ((w >>> (24 - i * 8)) &&& 0xff).setWidth 8

def cryptoSha256Final : List Byte :=
  let marked := ctx.data.set ctx.datalen 0x80
  let ctx :=
    if ctx.datalen < 56 then { ctx with data := zeroFill marked (ctx.datalen + 1) 56 }
    else
      let ctx := { ctx with data := zeroFill marked (ctx.datalen + 1) 64 }
      let ctx := cryptoSha256Transform ctx ctx.data
      { ctx with data := zeroFill ctx.data 0 56 }
  let ctx := { ctx with bitlen := ctx.bitlen + BitVec.ofNat 64 ctx.datalen * 8 }
  let ctx := { ctx with data := writeBitlen ctx.data ctx.bitlen }
  let ctx := cryptoSha256Transform ctx ctx.data
  ctx.state.words.flatMap fun w => (List.range 4).map (outputByte w)

def cryptoSha256 : List Byte :=
  cryptoSha256Final (cryptoSha256UpdateCtx cryptoSha256Init data)

def copyInto (buffer source : List Byte) : List Byte := source ++ buffer.drop source.length

def hmacKeyBlock (key : List Byte) : List Byte :=
  let keyBlock := List.replicate 64 0
  if key.length > 64 then copyInto keyBlock (cryptoSha256 key)
  else if key.length > 0 then copyInto keyBlock key
  else keyBlock

def cryptoHmacSha256 (key data : List Byte) : List Byte :=
  let keyBlock := hmacKeyBlock key
  let ipad := keyBlock.map (· ^^^ 0x36)
  let opad := keyBlock.map (· ^^^ 0x5c)
  let innerHash :=
    cryptoSha256Final (cryptoSha256UpdateCtx (cryptoSha256UpdateCtx cryptoSha256Init ipad) data)
  cryptoSha256Final (cryptoSha256UpdateCtx (cryptoSha256UpdateCtx cryptoSha256Init opad) innerHash)

section Hkdf

variable (prk info : List Byte) (outLen : Nat)

/-- The loop of the expansion; `out` holds the bytes written so far and `t` the
last block, empty before the first one. The number of passes is bounded by the
bytes that are missing, since each pass writes at least one. -/
def hkdfLoop : Nat → List Byte → BitVec 8 → List Byte → List Byte
  | 0, _, _, out => out
  | passes + 1, t, counter, out =>
    if out.length < outLen then
      let t := cryptoHmacSha256 prk (t ++ info ++ [counter])
      let take := if outLen - out.length > 32 then 32 else outLen - out.length
      hkdfLoop passes t (counter + 1) (out ++ t.take take)
    else out

end Hkdf

/-- `none` is the answer `false`. -/
def cryptoHkdfHmacSha256 (ikm salt info : List Byte) (outLen : Nat) : Option (List Byte) :=
  if outLen = 0 then some []
  else if outLen > 255 * 32 then none
  else if info.length > sizeMax - 33 then none
  else
    let prk :=
      if salt.length = 0 then cryptoHmacSha256 (List.replicate 32 0) ikm else cryptoHmacSha256 salt ikm
    some (hkdfLoop prk info outLen outLen [] 1 [])

variable (password salt : List Byte) (iterations : BitVec 32) (outLen : Nat)

def iterateLoop : Nat → List Byte → List Byte → List Byte
  | 0, _, t => t
  | n + 1, u, t =>
    let u := cryptoHmacSha256 password u
    iterateLoop n u (List.zipWith (· ^^^ ·) t u)

def blockCount : Nat := (outLen + 31) % 2 ^ 64 / 32

def saltBlock (blockIndex : BitVec 32) : List Byte :=
  salt ++ [(blockIndex >>> 24).setWidth 8, (blockIndex >>> 16).setWidth 8, (blockIndex >>> 8).setWidth 8,
    blockIndex.setWidth 8]

/-- The loop over the blocks. Its counter has 32 bits and wraps; `none` is a
loop that has not ended after `fuel` passes. -/
def blockLoop : Nat → BitVec 32 → List Byte → Option (List Byte)
  | 0, _, _ => none
  | fuel + 1, blockIndex, out =>
    if blockIndex ≤ BitVec.ofNat 32 (blockCount outLen) then
      let u := cryptoHmacSha256 password (saltBlock salt blockIndex)
      let t := iterateLoop password (iterations.toNat - 1) u u
      let take := if outLen - out.length > 32 then 32 else outLen - out.length
      blockLoop fuel (blockIndex + 1) (out ++ t.take take)
    else some out

/-- The outer `none` is a call that has not returned after `fuel` passes of the
loop, the inner one is the answer `false`. -/
def cryptoPbkdf2HmacSha256 (fuel : Nat) : Option (Option (List Byte)) :=
  if iterations = 0 then some none
  else if outLen = 0 then some (some [])
  else if salt.length > sizeMax - 4 then some none
  else if blockCount outLen > uint32Max then some none
  else (blockLoop password salt iterations outLen fuel 1 []).map some

end Tablo.CryptoHash
