import Tablo.Chunks
import Tablo.SignedToken

/-! What a signed token proves. The tag that verification checks belongs to a
body rebuilt from the numbers in the token; the text of the token has the same
body only when its times are written as `str` writes them. -/

namespace Tablo.SignedToken

open Encoding List Option Nat

section Decimal

theorem decimal_digits {n : Nat} {c : Byte} (h : c ∈ decimal n) : ∃ d < 10, c = BitVec.ofNat 8 (48 + d) := by
  obtain ⟨d, hd, rfl⟩ := mem_map.mp h
  refine ⟨d, ?_, rfl⟩
  by_cases hn : n = 0
  · rw [if_pos hn] at hd
    have : d = 0 := by simpa using hd
    omega
  · rw [if_neg hn] at hd
    exact digits_lt_base (by decide) (mem_reverse.mp hd)

theorem digit_spec {d : Nat} (h : d < 10) :
    (BitVec.ofNat 8 (48 + d)).toNat = 48 + d ∧ (find (ascii "0123456789") (BitVec.ofNat 8 (48 + d))).isSome ∧
      BitVec.ofNat 8 (48 + d) ≠ char '.' ∧ BitVec.ofNat 8 (48 + d) ≠ char '-' := by
  have hall : ∀ d < 10, (BitVec.ofNat 8 (48 + d)).toNat = 48 + d ∧
      (find (ascii "0123456789") (BitVec.ofNat 8 (48 + d))).isSome ∧ BitVec.ofNat 8 (48 + d) ≠ char '.' ∧
      BitVec.ofNat 8 (48 + d) ≠ char '-' := by decide +kernel
  exact hall d h

theorem foldl_digits {ds : List Nat} (h : ∀ d ∈ ds, d < 10) (value : Nat) :
    (ds.map fun d => BitVec.ofNat 8 (48 + d)).foldl (fun value (c : Byte) => value * 10 + (c.toNat - 48)) value =
      ds.foldl (fun value d => value * 10 + d) value := by
  induction ds generalizing value with
  | nil => rfl
  | cons d ds ih =>
    have hd := (digit_spec (h d (by simp))).1
    rw [map_cons, foldl_cons, foldl_cons, hd, Nat.add_sub_cancel_left, ih fun e he => h e (by simp [he])]

variable (n : Nat)

theorem digitsValue_decimal : digitsValue (decimal n) = n := by
  by_cases hn : n = 0
  · rw [hn]
    decide
  · have hlt : ∀ d ∈ (digits 10 n).reverse, d < 10 := fun d hd =>
      digits_lt_base (by decide) (mem_reverse.mp hd)
    have hof := ofDigits_digits 10 n
    rw [ofDigits_eq_foldr] at hof
    rw [digitsValue, decimal, if_neg hn, foldl_digits hlt, foldl_reverse]
    calc (digits 10 n).foldr (fun d value => value * 10 + d) 0
        = (digits 10 n).foldr (fun d value => d + 10 * value) 0 := by
          congr 1
          funext d value
          omega
      _ = n := hof

theorem decimal_ne_nil : decimal n ≠ [] := by
  rw [decimal]
  split
  next => simp
  next h => simpa [digits_eq_nil_iff_eq_zero] using h

theorem isAsciiDigits_decimal : cryptoIsAsciiDigits (decimal n) = true := by
  have hall : ∀ c ∈ decimal n, (find (ascii "0123456789") c).isSome := by
    intro c hc
    obtain ⟨d, hd, rfl⟩ := decimal_digits hc
    exact (digit_spec hd).2.1
  have hsome : (decimal n).isEmpty = false := isEmpty_eq_false_iff.mpr (decimal_ne_nil n)
  rw [cryptoIsAsciiDigits, hsome]
  exact all_eq_true.mpr hall

theorem dot_not_mem_decimal : char '.' ∉ decimal n := by
  intro h
  obtain ⟨d, hd, he⟩ := decimal_digits h
  exact (digit_spec hd).2.2.1 he.symm

theorem dot_not_mem_str (i : Int) : char '.' ∉ str i := by
  cases i with
  | ofNat n => exact dot_not_mem_decimal n
  | negSucc n =>
    rw [str, mem_cons]
    rintro (h | h)
    · revert h
      decide
    · exact dot_not_mem_decimal _ h

variable {expires i issued : Int}

theorem toInt_str (h : 0 ≤ i) (hmax : i ≤ int64Max) : toInt (str i) = i := by
  obtain ⟨n, rfl⟩ := Int.eq_ofNat_of_zero_le h
  change toInt (decimal n) = n
  rw [toInt, digitsValue_decimal, if_pos hmax]

theorem minus_not_mem_decimal : char '-' ∉ decimal n := by
  intro h
  obtain ⟨d, hd, he⟩ := decimal_digits h
  exact (digit_spec hd).2.2.2 he.symm

theorem decimal_injective {m n : Nat} (h : decimal m = decimal n) : m = n := by
  rw [← digitsValue_decimal m, h, digitsValue_decimal]

theorem str_ofNat_ne (m n : Nat) : str (.ofNat m) ≠ str (.negSucc n) := by
  intro h
  have hmem : char '-' ∈ decimal m := by
    change decimal m = _ at h
    rw [h]
    simp [str]
  exact minus_not_mem_decimal m hmem

theorem str_injective {j : Int} (h : str i = str j) : i = j := by
  cases i with
  | ofNat m =>
    cases j with
    | ofNat n => exact congrArg Int.ofNat (decimal_injective h)
    | negSucc n => exact absurd h (str_ofNat_ne m n)
  | negSucc m =>
    cases j with
    | ofNat n => exact absurd h.symm (str_ofNat_ne n m)
    | negSucc n =>
      have hd := decimal_injective (List.cons.inj h).2
      rw [succ.inj hd]

end Decimal

section Body

variable {α : Type}

theorem append_sep_inj [DecidableEq α] {x : α} {a a' b b' : List α} (hb : x ∉ b) (hb' : x ∉ b')
    (h : a ++ [x] ++ b = a' ++ [x] ++ b') : a = a' ∧ b = b' := by
  -- read from the end, the separator is the first one
  have hr := congrArg reverse h
  simp only [reverse_append, reverse_singleton, append_assoc] at hr
  obtain ⟨hbb, haa⟩ := Chunks.chunk_unique (by simpa using hb) (by simpa using hb') (by simp) (by simp) hr
  exact ⟨reverse_inj.mp (List.cons.inj haa).2, reverse_inj.mp hbb⟩

theorem notMem_of_mem_splitOn [BEq α] [LawfulBEq α] {x : α} {l part : List α} (h : part ∈ l.splitOn x) :
    x ∉ part := by
  rw [List.splitOn] at h
  induction l generalizing part with
  | nil =>
    have hnil : part = [] := by simpa using h
    simp [hnil]
  | cons y l ih =>
    rw [splitOnP_cons_eq_if_modifyHead] at h
    split at h
    next =>
      rcases mem_cons.mp h with rfl | h
      · simp
      · exact ih h
    next hne =>
      cases hs : List.splitOnP (fun a => a == x) l with
      | nil => simp [hs] at h
      | cons p ps =>
        rw [hs] at h ih
        simp only [modifyHead_cons, mem_cons] at h
        rcases h with rfl | h
        · have hp := ih mem_cons_self
          simp only [mem_cons, not_or]
          exact ⟨fun e => hne (by simp [e]), hp⟩
        · exact ih (mem_cons_of_mem _ h)

theorem buildBody_inj {v v' p p' : Text} {i' e e' : Int} (hp : char '.' ∉ p) (hp' : char '.' ∉ p')
    (h : cryptoSignedTokenBuildBody v i e p = cryptoSignedTokenBuildBody v' i' e' p') :
    v = v' ∧ i = i' ∧ e = e' ∧ p = p' := by
  obtain ⟨h, hpp⟩ := append_sep_inj hp hp' h
  obtain ⟨h, hee⟩ := append_sep_inj (dot_not_mem_str e) (dot_not_mem_str e') h
  obtain ⟨hv, hii⟩ := append_sep_inj (dot_not_mem_str i) (dot_not_mem_str i') h
  exact ⟨hv, str_injective hii, str_injective hee, hpp⟩

end Body

theorem splitOn_five {a b c d e : Text} (ha : char '.' ∉ a) (hb : char '.' ∉ b) (hc : char '.' ∉ c)
    (hd : char '.' ∉ d) (he : char '.' ∉ e) :
    (a ++ [char '.'] ++ b ++ [char '.'] ++ c ++ [char '.'] ++ d ++ [char '.'] ++ e).splitOn (char '.') =
      [a, b, c, d, e] := by
  have hdots : ∀ part ∈ [a, b, c, d, e], char '.' ∉ part := by simp [ha, hb, hc, hd, he]
  have hsplit := splitOn_intercalate (char '.') hdots (by simp)
  rw [← hsplit]
  congr 1
  simp [List.intercalate]

theorem decode_cases {token body : Text} {envelope : CryptoSignedTokenEnvelope} {tag : List Byte}
    (h : cryptoSignedTokenDecodeInternal token = some (envelope, tag, body)) :
    ∃ p1 p2 p3 p4 payload, token.splitOn (char '.') = [cryptoSignedTokenVersion, p1, p2, p3, p4] ∧
      (char '.' ∉ p1 ∧ char '.' ∉ p2 ∧ char '.' ∉ p3) ∧
      encodingBase64UrlDecodeToBytes p3 = some payload ∧ encodingBase64UrlDecodeToBytes p4 = some tag ∧
      envelope = ⟨cryptoSignedTokenVersion, toInt p1, toInt p2, payload⟩ ∧
      body = cryptoSignedTokenBuildBody cryptoSignedTokenVersion (toInt p1) (toInt p2) p3 := by
  have hdots : ∀ part ∈ token.splitOn (char '.'), char '.' ∉ part := fun part => notMem_of_mem_splitOn
  rw [cryptoSignedTokenDecodeInternal] at h
  split at h
  next p0 p1 p2 p3 p4 hs =>
    split_ifs at h with hv
    obtain ⟨payload, hp, h⟩ := bind_eq_some_iff.mp h
    obtain ⟨tag', ht, h⟩ := bind_eq_some_iff.mp h
    dsimp only at h
    split_ifs at h
    obtain rfl : p0 = cryptoSignedTokenVersion := Decidable.not_not.mp hv
    cases h
    rw [hs] at hdots
    exact ⟨p1, p2, p3, p4, payload, hs, ⟨hdots p1 (by simp), hdots p2 (by simp), hdots p3 (by simp)⟩, hp, ht,
      rfl, rfl⟩
  next => cases h

theorem validTimes (hi : 0 ≤ issued) (he : issued < expires) :
    cryptoValidateSignedTokenTimes issued expires = true := by
  rw [cryptoValidateSignedTokenTimes, if_neg (by omega), if_neg (by omega)]

theorem decode_parts (hi : 0 ≤ issued) (he : issued < expires) (hmax : expires ≤ int64Max)
    (payload tag : List Byte) :
    cryptoSignedTokenDecodeInternal (cryptoSignedTokenBuildBody cryptoSignedTokenVersion issued expires
          (encodingBase64UrlEncodeBytes payload false) ++ [char '.'] ++ encodingBase64UrlEncodeBytes tag false) =
      some (⟨cryptoSignedTokenVersion, issued, expires, payload⟩, tag,
        cryptoSignedTokenBuildBody cryptoSignedTokenVersion issued expires
          (encodingBase64UrlEncodeBytes payload false)) := by
  have hdigits : ∀ {i : Int}, 0 ≤ i → cryptoIsAsciiDigits (str i) = true := by
    intro i hi
    obtain ⟨n, rfl⟩ := Int.eq_ofNat_of_zero_le hi
    exact isAsciiDigits_decimal n
  rw [cryptoSignedTokenDecodeInternal, cryptoSignedTokenBuildBody, splitOn_five (by decide) (dot_not_mem_str issued)
    (dot_not_mem_str expires) (dot_not_mem_encode payload) (dot_not_mem_encode tag)]
  simp [hdigits hi, hdigits (show 0 ≤ expires by omega), toInt_str hi (show issued ≤ int64Max by omega),
    toInt_str (show 0 ≤ expires by omega) hmax, validTimes hi he, decode_encode, cryptoValidateSignedTokenShape,
    cryptoSignedTokenBuildBody]

section Verify

variable {mac : List Byte → List Byte → List Byte} (token : Text) {envelope : CryptoSignedTokenEnvelope}
  {tag secret payload : List Byte} {issued expires : Int}

def bodyText : Text := [char '.'].intercalate ((token.splitOn (char '.')).take 4)

def tagBytes : Option (List Byte) :=
  encodingBase64UrlDecodeToBytes ((token.splitOn (char '.')).getD 4 [])

def CanonicalTimes : Prop :=
  ∀ i ∈ [1, 2], str (toInt ((token.splitOn (char '.')).getD i [])) = (token.splitOn (char '.')).getD i []

def TagMatches (mac : List Byte → List Byte → List Byte) (secret : List Byte) (token : Text) : Prop :=
  ∃ envelope tag body, cryptoSignedTokenDecodeInternal token = some (envelope, tag, body) ∧ mac secret body = tag

def Reports (v : CryptoSignedTokenVerified) : Prop := v.ok = true ∨ v.expired = true

variable {token : Text} {now : Int}

theorem reports_cases (h : Reports (cryptoSignedTokenVerify mac secret token now)) :
    ∃ tag body, cryptoSignedTokenDecodeInternal token =
        some ((cryptoSignedTokenVerify mac secret token now).envelope, tag, body) ∧ mac secret body = tag := by
  cases hd : cryptoSignedTokenDecodeInternal token with
  | none => simp [Reports, cryptoSignedTokenVerify, hd] at h
  | some decoded =>
    obtain ⟨envelope, tag, body⟩ := decoded
    by_cases hm : mac secret body = tag
    · refine ⟨tag, body, ?_, hm⟩
      by_cases hn : now > envelope.expiresAtMillis <;> simp [cryptoSignedTokenVerify, hd, hm, hn]
    · simp [Reports, cryptoSignedTokenVerify, hd, hm] at h

theorem reports_iff (secret : List Byte) (token : Text) (now : Int) :
    Reports (cryptoSignedTokenVerify mac secret token now) ↔ TagMatches mac secret token := by
  constructor
  · intro h
    obtain ⟨tag, body, hd, hm⟩ := reports_cases h
    exact ⟨_, tag, body, hd, hm⟩
  · rintro ⟨envelope, tag, body, hd, hm⟩
    by_cases hn : now > envelope.expiresAtMillis <;> simp [Reports, cryptoSignedTokenVerify, hd, hm, hn]

theorem bodyText_eq_iff {body : Text} (h : cryptoSignedTokenDecodeInternal token = some (envelope, tag, body)) :
    bodyText token = body ↔ CanonicalTimes token := by
  obtain ⟨p1, p2, p3, p4, payload, hs, ⟨hp1, hp2, hp3⟩, _, _, _, hb⟩ := decode_cases h
  have htext : bodyText token =
      cryptoSignedTokenVersion ++ [char '.'] ++ p1 ++ [char '.'] ++ p2 ++ [char '.'] ++ p3 := by
    simp [bodyText, hs]
  have hcanon : CanonicalTimes token ↔ str (toInt p1) = p1 ∧ str (toInt p2) = p2 := by
    simp [CanonicalTimes, hs]
  rw [htext, hb, hcanon, cryptoSignedTokenBuildBody]
  constructor
  · intro he
    obtain ⟨he, _⟩ := append_sep_inj hp3 hp3 he
    obtain ⟨he, h2⟩ := append_sep_inj hp2 (dot_not_mem_str _) he
    obtain ⟨_, h1⟩ := append_sep_inj hp1 (dot_not_mem_str _) he
    exact ⟨h1.symm, h2.symm⟩
  · rintro ⟨h1, h2⟩
    rw [h1, h2]

theorem tagBytes_eq {body : Text}
    (h : cryptoSignedTokenDecodeInternal token = some (envelope, tag, body)) : tagBytes token = some tag := by
  obtain ⟨p1, p2, p3, p4, payload, hs, _, _, ht, _⟩ := decode_cases h
  simpa [tagBytes, hs] using ht

theorem verify_seal (hmax : expires ≤ int64Max)
    (h : cryptoSignedTokenSeal mac secret payload issued expires = some token) (now : Int) :
    cryptoSignedTokenVerify mac secret token now =
      ⟨now ≤ expires, expires < now, ⟨cryptoSignedTokenVersion, issued, expires, payload⟩⟩ := by
  rw [cryptoSignedTokenSeal] at h
  split_ifs at h with hvalid
  have htimes : 0 ≤ issued ∧ issued < expires := by
    rw [cryptoValidateSignedTokenTimes] at hvalid
    split_ifs at hvalid with h0 h1
    omega
  cases h
  rw [cryptoSignedTokenVerify, decode_parts htimes.1 htimes.2 hmax]
  by_cases hn : now ≤ expires
  · simp [hn, show ¬ expires < now by omega]
  · simp [show expires < now by omega]

theorem seal_isSome (hi : 0 ≤ issued) (he : issued < expires) :
    ∃ token, cryptoSignedTokenSeal mac secret payload issued expires = some token := by
  rw [cryptoSignedTokenSeal, if_neg (by simp [validTimes hi he])]
  exact ⟨_, rfl⟩

theorem verify_sealed_only {sealed : Text} (hinj : Function.Injective (mac secret)) (hmax : expires ≤ int64Max)
    (hseal : cryptoSignedTokenSeal mac secret payload issued expires = some sealed)
    (htag : tagBytes token = tagBytes sealed) (h : Reports (cryptoSignedTokenVerify mac secret token now)) :
    (cryptoSignedTokenVerify mac secret token now).envelope = ⟨cryptoSignedTokenVersion, issued, expires, payload⟩ := by
  have hsealed := verify_seal hmax hseal now
  obtain ⟨tag, body, hd, hm⟩ := reports_cases h
  have hrep : Reports (cryptoSignedTokenVerify mac secret sealed now) := by
    rw [hsealed]
    by_cases hn : now ≤ expires
    · exact .inl (by simpa using hn)
    · exact .inr (by simp; omega)
  obtain ⟨tag', body', hd', hm'⟩ := reports_cases hrep
  rw [tagBytes_eq hd, tagBytes_eq hd', some.injEq] at htag
  have hbody : body = body' := hinj (by rw [hm, hm', htag])
  obtain ⟨p1, p2, p3, p4, payload₁, hs, ⟨_, _, hp3⟩, hp, _, he, hb⟩ := decode_cases hd
  obtain ⟨q1, q2, q3, q4, payload₂, hs', ⟨_, _, hq3⟩, hp', _, he', hb'⟩ := decode_cases hd'
  rw [hb, hb'] at hbody
  obtain ⟨_, h1, h2, h3⟩ := buildBody_inj hp3 hq3 hbody
  rw [h3, hp', some.injEq] at hp
  rw [hsealed] at he'
  rw [he, h1, h2, ← hp, ← he']

end Verify

end Tablo.SignedToken
