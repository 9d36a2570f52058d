import Tablo.Encoding
import Mathlib.Data.Nat.Digits.Defs
import Mathlib.Data.List.SplitOn

/-! Signed tokens of `crypto.tblo`: a version, two times, a payload and a tag,
joined by dots. The message authentication code is a parameter; the source
uses HMAC-SHA-256. Errors are `none`: verification hides the text of a decoding
error. -/

namespace Tablo.SignedToken

open Encoding

def int64Max : Int := 2 ^ 63 - 1

def decimal (n : Nat) : Text :=
  (if n = 0 then [0] else (Nat.digits 10 n).reverse).map fun d => BitVec.ofNat 8 (48 + d)

def str : Int → Text
  | .ofNat n => decimal n
  | .negSucc n => char '-' :: decimal (n + 1)

def digitsValue (text : Text) : Nat := text.foldl (fun value c => value * 10 + (c.toNat - 48)) 0

/-- The builtin `toInt` on a text of digits: 0 for a number that does not fit. -/
def toInt (text : Text) : Int :=
  if (digitsValue text : Int) ≤ int64Max then digitsValue text else 0

def cryptoIsAsciiDigits (text : Text) : Bool := !text.isEmpty && text.all fun c => (find (ascii "0123456789") c).isSome

structure CryptoSignedTokenEnvelope where
  version : Text
  issuedAtMillis : Int
  expiresAtMillis : Int
  payload : List Byte
deriving DecidableEq

def cryptoEmptySignedTokenEnvelope : CryptoSignedTokenEnvelope := ⟨[], 0, 0, []⟩

def cryptoSignedTokenVersion : Text := ascii "v1"

def cryptoValidateSignedTokenTimes (issuedAtMs expiresAtMs : Int) : Bool :=
  if issuedAtMs < 0 then false else if expiresAtMs ≤ issuedAtMs then false else true

def cryptoValidateSignedTokenShape (token : CryptoSignedTokenEnvelope) : Bool :=
  if token.version ≠ cryptoSignedTokenVersion then false
  else cryptoValidateSignedTokenTimes token.issuedAtMillis token.expiresAtMillis

def cryptoSignedTokenBuildBody (version : Text) (issuedAtMs expiresAtMs : Int) (payloadB64Url : Text) : Text :=
  version ++ [char '.'] ++ str issuedAtMs ++ [char '.'] ++ str expiresAtMs ++ [char '.'] ++ payloadB64Url

/-- The envelope, the tag and the body the tag is checked against. The body is
built from the times that were read, not taken from the token. -/
def cryptoSignedTokenDecodeInternal (token : Text) : Option (CryptoSignedTokenEnvelope × List Byte × Text) :=
  match token.splitOn (char '.') with
  | [p0, p1, p2, p3, p4] =>
    if p0 ≠ cryptoSignedTokenVersion then none
    else if ¬ cryptoIsAsciiDigits p1 ∨ ¬ cryptoIsAsciiDigits p2 then none
    else if ¬ cryptoValidateSignedTokenTimes (toInt p1) (toInt p2) then none
    else do
      let payload ← encodingBase64UrlDecodeToBytes p3
      let tag ← encodingBase64UrlDecodeToBytes p4
      let envelope := ⟨p0, toInt p1, toInt p2, payload⟩
      if ¬ cryptoValidateSignedTokenShape envelope then none
      else some (envelope, tag, cryptoSignedTokenBuildBody p0 (toInt p1) (toInt p2) p3)
  | _ => none

structure CryptoSignedTokenVerified where
  ok : Bool
  expired : Bool
  envelope : CryptoSignedTokenEnvelope
deriving DecidableEq

variable (mac : List Byte → List Byte → List Byte)

def cryptoSignedTokenSeal (secret payload : List Byte) (issuedAtMs expiresAtMs : Int) : Option Text :=
  if ¬ cryptoValidateSignedTokenTimes issuedAtMs expiresAtMs then none
  else
    let body := cryptoSignedTokenBuildBody cryptoSignedTokenVersion issuedAtMs expiresAtMs
      (encodingBase64UrlEncodeBytes payload false)
    some (body ++ [char '.'] ++ encodingBase64UrlEncodeBytes (mac secret body) false)

def cryptoSignedTokenVerify (secret : List Byte) (token : Text) (nowMs : Int) : CryptoSignedTokenVerified :=
  match cryptoSignedTokenDecodeInternal token with
  | none => ⟨false, false, cryptoEmptySignedTokenEnvelope⟩
  | some (envelope, tag, body) =>
    if mac secret body ≠ tag then ⟨false, false, cryptoEmptySignedTokenEnvelope⟩
    else if nowMs > envelope.expiresAtMillis then ⟨false, true, envelope⟩
    else ⟨true, false, envelope⟩

end Tablo.SignedToken
