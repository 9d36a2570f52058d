import Mathlib.Data.BitVec

/-! Base64 as `encoding.tblo` writes and reads it. A text is its bytes; `none`
is an error. The reader skips white space, takes both alphabets and adds the
padding that is missing. -/

namespace Tablo.Encoding

open List Option
open BitVec (ofNat)

abbrev Byte := BitVec 8
abbrev Text := List Byte

def char (c : Char) : Byte := BitVec.ofNat 8 c.toNat

def ascii (s : String) : Text := s.toList.map char

def base64StdAlphabet : Text := ascii "ABCDEFGHIJKLMNOPQRSTUVWXYZabcdefghijklmnopqrstuvwxyz0123456789+/"
def base64UrlAlphabet : Text := ascii "ABCDEFGHIJKLMNOPQRSTUVWXYZabcdefghijklmnopqrstuvwxyz0123456789-_"

def find (text : Text) (ch : Byte) : Option Nat := text.idxOf? ch

def charAt (text : Text) (i : Nat) : Text := (text.drop i).take 1

def encodingIsSpace (ch : Byte) : Bool := ch == char ' ' || ch == char '\t' || ch == char '\n' || ch == char '\r'

def encodingBase64CharValue (ch : Byte) : Option Nat :=
  if ch = char '+' then some 62
  else if ch = char '/' then some 63
  else if ch = char '-' then some 62
  else if ch = char '_' then some 63
  else find base64StdAlphabet ch

def normalizeChar (allowUrl : Bool) (ch : Byte) : Option Text :=
  if encodingIsSpace ch then some []
  else if ch = char '=' ∨ (find base64StdAlphabet ch).isSome then some [ch]
  else if allowUrl ∧ (find base64UrlAlphabet ch).isSome then
    if ch = char '-' then some [char '+'] else if ch = char '_' then some [char '/'] else some [ch]
  else none

def encodingNormalizeBase64 (allowUrl : Bool) : Text → Option Text
  | [] => some []
  | ch :: rest => do
    let out ← normalizeChar allowUrl ch
    let tail ← encodingNormalizeBase64 allowUrl rest
    return out ++ tail

section Encode

variable (alphabet : Text) (withPadding : Bool)

def encodingBase64EncodeBytesWithAlphabet : List Byte → Text
  | b1 :: b2 :: b3 :: rest =>
    let n := b1.toNat * 65536 + b2.toNat * 256 + b3.toNat
    let c1 := n / 262144
    let n := n % 262144
    let c2 := n / 4096
    let n := n % 4096
    let c3 := n / 64
    let c4 := n % 64
    charAt alphabet c1 ++ charAt alphabet c2 ++ charAt alphabet c3 ++ charAt alphabet c4 ++
      encodingBase64EncodeBytesWithAlphabet rest
  | [t1, t2] =>
    let n := t1.toNat * 256 + t2.toNat
    let d1 := n / 1024
    let n := n % 1024
    let d2 := n / 16
    let d3 := n % 16 * 4
    charAt alphabet d1 ++ charAt alphabet d2 ++ charAt alphabet d3 ++ if withPadding then [char '='] else []
  | [t1] =>
    let e1 := t1.toNat / 4
    let e2 := t1.toNat % 4 * 16
    charAt alphabet e1 ++ charAt alphabet e2 ++ if withPadding then [char '=', char '='] else []
  | [] => []

end Encode

def decodeLoop (padStart : Nat) : Nat → Text → Option (List Byte)
  | i, c1 :: c2 :: c3 :: c4 :: rest =>
    let c3Padded : Bool := padStart ≤ i + 2
    let c4Padded : Bool := padStart ≤ i + 3
    if padStart ≤ i ∨ padStart ≤ i + 1 then none
    else if c3Padded ∧ ¬ c4Padded then none
    else if (¬ c3Padded ∧ c3 = char '=') ∨ (¬ c4Padded ∧ c4 = char '=') then none
    else if (c3Padded ∧ c3 ≠ char '=') ∨ (c4Padded ∧ c4 ≠ char '=') then none
    else do
      let v1 ← encodingBase64CharValue c1
      let v2 ← encodingBase64CharValue c2
      let v3 ← if c3Padded then some 0 else encodingBase64CharValue c3
      let v4 ← if c4Padded then some 0 else encodingBase64CharValue c4
      let b1 := BitVec.ofNat 8 (v1 * 4 + v2 / 16)
      let b2 := BitVec.ofNat 8 (v2 % 16 * 16 + v3 / 4)
      let b3 := BitVec.ofNat 8 (v3 % 4 * 64 + v4)
      let tail ← decodeLoop padStart (i + 4) rest
      return [b1] ++ (if c3Padded then [] else [b2]) ++ (if c4Padded then [] else [b3]) ++ tail
  | _, _ => some []

variable (input : Text)

def encodingBase64DecodeToBytesInternal (allowUrl : Bool) : Option (List Byte) := do
  let text ← encodingNormalizeBase64 allowUrl input
  let text ←
    if allowUrl then
      if text.length % 4 = 1 then none
      else if text.length % 4 = 2 then some (text ++ [char '=', char '='])
      else if text.length % 4 = 3 then some (text ++ [char '='])
      else some text
    else if text.length % 4 ≠ 0 then none
    else some text
  if text = [] then some []
  else
    let padCount := match find text (char '=') with
      | none => 0
      | some firstPad => text.length - firstPad
    if padCount > 2 then none
    else decodeLoop (text.length - padCount) 0 text

def encodingBase64EncodeBytes (data : List Byte) : Text :=
  encodingBase64EncodeBytesWithAlphabet base64StdAlphabet true data

def encodingBase64DecodeToBytes : Option (List Byte) := encodingBase64DecodeToBytesInternal input false

def encodingBase64UrlEncodeBytes (data : List Byte) (withPadding : Bool) : Text :=
  encodingBase64EncodeBytesWithAlphabet base64UrlAlphabet withPadding data

def encodingBase64UrlDecodeToBytes : Option (List Byte) :=
  encodingBase64DecodeToBytesInternal input true

def sextets : List Byte → List Nat
  | b1 :: b2 :: b3 :: rest =>
    let n := b1.toNat * 65536 + b2.toNat * 256 + b3.toNat
    n / 262144 :: n % 262144 / 4096 :: n % 262144 % 4096 / 64 :: n % 262144 % 4096 % 64 :: sextets rest
  | [t1, t2] =>
    let n := t1.toNat * 256 + t2.toNat
    [n / 1024, n % 1024 / 16, n % 1024 % 16 * 4]
  | [t1] => [t1.toNat / 4, t1.toNat % 4 * 16]
  | [] => []

def stdChar (c : Nat) : Byte := base64StdAlphabet.getD c 0

def missingPad (n : Nat) : Text :=
  if n % 4 = 2 then [char '=', char '='] else if n % 4 = 3 then [char '='] else []

/-- The characters of an alphabet are read back. -/
def Reads (alphabet : Text) (allowUrl : Bool) : Prop := ∀ c < 64,
  charAt alphabet c = [alphabet.getD c 0] ∧ normalizeChar allowUrl (alphabet.getD c 0) = some [stdChar c]

theorem reads_std : Reads base64StdAlphabet false := by
  unfold Reads
  decide +kernel

theorem reads_url : Reads base64UrlAlphabet true := by
  unfold Reads
  decide +kernel

theorem stdChar_spec {c : Nat} (h : c < 64) :
    encodingBase64CharValue (stdChar c) = some c ∧ stdChar c ≠ char '=' := by
  have hall : ∀ c < 64, encodingBase64CharValue (stdChar c) = some c ∧ stdChar c ≠ char '=' := by decide +kernel
  exact hall c h

theorem sextets_lt {data : List Byte} {c : Nat} (h : c ∈ sextets data) : c < 64 := by
  fun_induction sextets data with
  | case1 b1 b2 b3 rest n ih =>
    simp only [mem_cons] at h
    rcases h with rfl | rfl | rfl | rfl | h
    all_goals first | exact ih h | omega
  | case2 t1 t2 n | case3 t1 =>
    simp only [mem_cons, not_mem_nil, or_false] at h
    omega
  | case4 => cases h

theorem missingPad_add_four (n : Nat) : missingPad (n + 1 + 1 + 1 + 1) = missingPad n := by
  rw [missingPad, missingPad, show (n + 1 + 1 + 1 + 1) % 4 = n % 4 by omega]

section Texts

variable {alphabet : Text} {allowUrl : Bool} (h : Reads alphabet allowUrl) (withPadding : Bool)

include h

theorem encode_eq (data : List Byte) : encodingBase64EncodeBytesWithAlphabet alphabet withPadding data =
    (sextets data).map (alphabet.getD · 0) ++ if withPadding then missingPad (sextets data).length else [] := by
  have hmem := fun (c : Nat) (hc : c ∈ sextets data) => (h c (sextets_lt hc)).1
  fun_induction sextets data with
  | case1 b1 b2 b3 rest n ih =>
    simp only [mem_cons, forall_eq_or_imp] at hmem
    obtain ⟨h1, h2, h3, h4, hrest⟩ := hmem
    simp only [encodingBase64EncodeBytesWithAlphabet, h1, h2, h3, h4, ih hrest, n, length_cons, missingPad_add_four]
    rfl
  | case2 t1 t2 n =>
    simp only [mem_cons, forall_eq_or_imp] at hmem
    obtain ⟨h1, h2, h3, _⟩ := hmem
    simp only [encodingBase64EncodeBytesWithAlphabet, n, h1, h2, h3]
    rfl
  | case3 t1 =>
    simp only [mem_cons, forall_eq_or_imp] at hmem
    obtain ⟨h1, h2, _⟩ := hmem
    simp only [encodingBase64EncodeBytesWithAlphabet, h1, h2]
    rfl
  | case4 => cases withPadding <;> rfl

theorem normalize_chars {cs : List Nat} (hcs : ∀ c ∈ cs, c < 64) (n : Nat) :
    encodingNormalizeBase64 allowUrl (cs.map (alphabet.getD · 0) ++ if withPadding then missingPad n else []) =
      some (cs.map stdChar ++ if withPadding then missingPad n else []) := by
  induction cs with
  | nil =>
    rw [missingPad]
    split_ifs <;> cases allowUrl <;> rfl
  | cons c cs ih =>
    have hc := (h c (hcs c (by simp))).2
    have htail := ih fun d hd => hcs d (by simp [hd])
    rw [map_cons, cons_append, encodingNormalizeBase64, hc, htail]
    rfl

end Texts

theorem length_sextets_mod (data : List Byte) : (sextets data).length % 4 ≠ 1 := by
  fun_induction sextets data with
  | case1 b1 b2 b3 rest n ih =>
    simp only [length_cons]
    omega
  | case2 t1 t2 n | case3 t1 | case4 => simp

theorem byte_eq {b : Byte} {n : Nat} (h : n = b.toNat) : ofNat 8 n = b := by
  rw [h, BitVec.ofNat_toNat, BitVec.setWidth_eq]

section Groups

variable {v1 v2 v3 v4 : Nat} (h1 : v1 < 64) (h2 : v2 < 64)

include h1 h2

theorem decodeLoop_four {padStart i : Nat} (h3 : v3 < 64) (h4 : v4 < 64) (h : i + 4 ≤ padStart) (rest : Text) :
    decodeLoop padStart i (stdChar v1 :: stdChar v2 :: stdChar v3 :: stdChar v4 :: rest) =
      (decodeLoop padStart (i + 4) rest).map fun tail =>
        ofNat 8 (v1 * 4 + v2 / 16) :: ofNat 8 (v2 % 16 * 16 + v3 / 4) ::
          ofNat 8 (v3 % 4 * 64 + v4) :: tail := by
  have hlt : ¬ padStart ≤ i + 2 ∧ ¬ padStart ≤ i + 3 ∧ ¬ padStart ≤ i ∧ ¬ padStart ≤ i + 1 := by omega
  have e3 := (stdChar_spec h3).2
  have e4 := (stdChar_spec h4).2
  rw [decodeLoop]
  simp only [hlt, e3, e4, (stdChar_spec h1).1, (stdChar_spec h2).1, (stdChar_spec h3).1, (stdChar_spec h4).1]
  cases decodeLoop padStart (i + 4) rest <;> simp

theorem decodeLoop_three {i : Nat} (h3 : v3 < 64) :
    decodeLoop (i + 3) i [stdChar v1, stdChar v2, stdChar v3, char '='] =
      some [ofNat 8 (v1 * 4 + v2 / 16), ofNat 8 (v2 % 16 * 16 + v3 / 4)] := by
  have e3 := (stdChar_spec h3).2
  simp [decodeLoop, e3, (stdChar_spec h1).1, (stdChar_spec h2).1, (stdChar_spec h3).1]

theorem decodeLoop_two {i : Nat} :
    decodeLoop (i + 2) i [stdChar v1, stdChar v2, char '=', char '='] = some [ofNat 8 (v1 * 4 + v2 / 16)] := by
  simp [decodeLoop, (stdChar_spec h1).1, (stdChar_spec h2).1]

end Groups

theorem decodeLoop_sextets (data : List Byte) (i : Nat) :
    decodeLoop (i + (sextets data).length) i ((sextets data).map stdChar ++ missingPad (sextets data).length) =
      some data := by
  have hmem := fun (c : Nat) (h : c ∈ sextets data) => sextets_lt h
  fun_induction sextets data generalizing i with
  | case1 b1 b2 b3 rest n ih =>
    simp only [mem_cons, forall_eq_or_imp] at hmem
    obtain ⟨h1, h2, h3, h4, hrest⟩ := hmem
    have hlen : i + (sextets rest).length + 1 + 1 + 1 + 1 = i + 4 + (sextets rest).length := by omega
    simp only [length_cons, map_cons, cons_append, missingPad_add_four, ← Nat.add_assoc, hlen]
    rw [decodeLoop_four h1 h2 h3 h4 (by omega), ih (i + 4) hrest, map_some,
      @byte_eq b1 _ (by omega), @byte_eq b2 _ (by omega), @byte_eq b3 _ (by omega)]
  | case2 t1 t2 n =>
    simp only [mem_cons, forall_eq_or_imp] at hmem
    obtain ⟨h1, h2, h3, _⟩ := hmem
    have hloop := @decodeLoop_three _ _ _ h1 h2 i h3
    rw [@byte_eq t1 _ (by omega), @byte_eq t2 _ (by omega)] at hloop
    exact hloop
  | case3 t1 =>
    simp only [mem_cons, forall_eq_or_imp] at hmem
    obtain ⟨h1, h2, _⟩ := hmem
    have hloop := @decodeLoop_two _ _ h1 h2 i
    rw [@byte_eq t1 _ (by omega)] at hloop
    exact hloop
  | case4 => rfl

/-- The padding that the reader adds or asks for. -/
def padMissing (allowUrl : Bool) (text : Text) : Option Text :=
  if allowUrl then
    if text.length % 4 = 1 then none
    else if text.length % 4 = 2 then some (text ++ [char '=', char '='])
    else if text.length % 4 = 3 then some (text ++ [char '='])
    else some text
  else if text.length % 4 ≠ 0 then none
  else some text

def padCount (text : Text) : Nat :=
  match find text (char '=') with
  | none => 0
  | some firstPad => text.length - firstPad

theorem decodeInternal_eq (input : Text) (allowUrl : Bool) : encodingBase64DecodeToBytesInternal input allowUrl =
    encodingNormalizeBase64 allowUrl input >>= fun text => padMissing allowUrl text >>= fun text =>
      if text = [] then some [] else if padCount text > 2 then none
      else decodeLoop (text.length - padCount text) 0 text := by
  rw [encodingBase64DecodeToBytesInternal]
  congr 1
  funext text
  rw [padMissing]
  split_ifs <;> rfl

section Padded

variable {cs : List Nat}

theorem padMissing_chars {allowUrl withPadding : Bool} (hmod : cs.length % 4 ≠ 1)
    (hpad : allowUrl = true ∨ withPadding = true) :
    padMissing allowUrl (cs.map stdChar ++ if withPadding then missingPad cs.length else []) =
      some (cs.map stdChar ++ missingPad cs.length) := by
  have hfull : (cs.map stdChar ++ missingPad cs.length).length % 4 = 0 := by
    rw [missingPad]
    split_ifs <;> simp <;> omega
  cases withPadding with
  | true =>
    rw [if_pos rfl, padMissing]
    split_ifs <;> first | rfl | omega
  | false =>
    rcases hpad with rfl | h
    · rw [if_neg (by decide), append_nil, padMissing, missingPad, length_map, if_pos rfl, if_neg hmod]
      split_ifs <;> simp
    · cases h

theorem padCount_chars (h : ∀ c ∈ cs, c < 64) (n : Nat) :
    padCount (cs.map stdChar ++ missingPad n) = (missingPad n).length := by
  have hnot : char '=' ∉ cs.map stdChar := by
    intro hmem
    obtain ⟨c, hc, he⟩ := mem_map.mp hmem
    exact (stdChar_spec (h c hc)).2 he
  have hfind (pad : Text) : find (cs.map stdChar ++ char '=' :: pad) (char '=') = some cs.length := by
    have hnone := idxOf?_eq_none_iff.mpr hnot
    rw [idxOf?] at hnone
    rw [find, idxOf?, findIdx?_append, hnone]
    simp [findIdx?_cons]
  rw [padCount, missingPad]
  split_ifs
  · simp [hfind]
  · simp [hfind]
  · rw [append_nil, find, idxOf?_eq_none_iff.mpr hnot]
    rfl

theorem decodeInternal_encode {alphabet : Text} {allowUrl : Bool} (h : Reads alphabet allowUrl) {withPadding : Bool}
    (hpad : allowUrl = true ∨ withPadding = true) (data : List Byte) : encodingBase64DecodeToBytesInternal
      (encodingBase64EncodeBytesWithAlphabet alphabet withPadding data) allowUrl = some data := by
  have hlt := fun (c : Nat) (hc : c ∈ sextets data) => sextets_lt hc
  have hloop := decodeLoop_sextets data 0
  rw [decodeInternal_eq, encode_eq h, normalize_chars h _ hlt]
  change (padMissing _ _ >>= _) = _
  rw [padMissing_chars (length_sextets_mod data) hpad]
  change ite _ _ _ = _
  rw [padCount_chars hlt, length_append, length_map, Nat.add_sub_cancel]
  rw [Nat.zero_add] at hloop
  split_ifs with hnil hmany
  · rw [hnil] at hloop
    exact hloop
  · rw [missingPad] at hmany
    split_ifs at hmany <;> simp at hmany
  · exact hloop

theorem decode_encode (data : List Byte) :
    encodingBase64UrlDecodeToBytes (encodingBase64UrlEncodeBytes data false) = some data :=
  decodeInternal_encode reads_url (.inl rfl) data

theorem dot_not_mem_encode (data : List Byte) : char '.' ∉ encodingBase64UrlEncodeBytes data false := by
  have hall : ∀ c < 64, base64UrlAlphabet.getD c 0 ≠ char '.' := by decide +kernel
  rw [encodingBase64UrlEncodeBytes, encode_eq reads_url, if_neg (by decide), append_nil]
  intro hmem
  obtain ⟨c, hc, he⟩ := mem_map.mp hmem
  exact hall c (sextets_lt hc) he

end Padded

/-- What the reader makes of a character of either alphabet. -/
def plain (ch : Byte) : Byte := if ch = char '-' then char '+' else if ch = char '_' then char '/' else ch

variable {padStart i : Nat} {bs : List Byte} {allowUrl : Bool} {input text : Text}

theorem decodeLoop_cons {c1 c2 c3 c4 : Byte} (h : decodeLoop padStart i (c1 :: c2 :: c3 :: c4 :: text) = some bs) :
    i + 1 < padStart ∧ (padStart ≤ i + 2 → c3 = char '=') ∧ (padStart ≤ i + 3 → c4 = char '=') ∧
      ∃ group tail, bs = group ++ tail ∧ group.length = 3 - (i + 4 - padStart) ∧
        decodeLoop padStart (i + 4) text = some tail := by
  rw [decodeLoop] at h
  dsimp only at h
  split_ifs at h with hstart horder hearly hlate h3 h4 h4
  all_goals
    simp only [bind_eq_bind, bind_eq_some_iff] at h
    obtain ⟨v1, -, v2, -, v3, -, v4, -, tail, htail, h⟩ := h
    cases h
    simp only [decide_eq_true_eq, not_or, not_and, ne_eq, not_not, not_le] at hstart horder hlate h3 h4
    exact ⟨hstart.2, hlate.1, hlate.2, _, tail, rfl, by simp; omega, htail⟩

theorem four_cons {n : Nat} (h : text.length = 4 * (n + 1)) :
    ∃ c1 c2 c3 c4 rest, text = c1 :: c2 :: c3 :: c4 :: rest := by
  rcases text with _ | ⟨c1, _ | ⟨c2, _ | ⟨c3, _ | ⟨c4, rest⟩⟩⟩⟩
  all_goals first | exact ⟨c1, c2, c3, c4, rest, rfl⟩ | (simp at h; try omega)

/-- Whole groups leave three bytes each, less one for each pad, and only pads stand from `padStart` on. -/
theorem decodeLoop_spec {n : Nat} (hlen : text.length = 4 * n) (h : decodeLoop padStart i text = some bs)
    (hi : i ≤ padStart) :
    bs.length + (i + 4 * n - padStart) = n * 3 ∧ ∀ c ∈ text.drop (padStart - i), c = char '=' := by
  induction n generalizing i text bs with
  | zero =>
    rw [length_eq_zero_iff.mp hlen] at h ⊢
    cases h
    simp
    omega
  | succ n ih =>
    obtain ⟨c1, c2, c3, c4, rest, rfl⟩ := four_cons hlen
    obtain ⟨hstart, h3, h4, group, tail, rfl, hgroup, htail⟩ := decodeLoop_cons h
    have hrest : rest.length = 4 * n := by
      simp only [length_cons] at hlen
      omega
    rw [length_append, hgroup]
    by_cases hlast : i + 4 ≤ padStart
    · obtain ⟨hcount, hpads⟩ := ih hrest htail hlast
      refine ⟨by omega, ?_⟩
      rw [show padStart - i = padStart - (i + 4) + 1 + 1 + 1 + 1 by omega]
      exact hpads
    · -- the pads end the text
      obtain rfl : rest = [] := by
        cases n with
        | zero => exact length_eq_zero_iff.mp hrest
        | succ n =>
          obtain ⟨d1, d2, d3, d4, rest, rfl⟩ := four_cons hrest
          have := (decodeLoop_cons htail).1
          omega
      cases htail
      have hn : n = 0 := by simpa using hrest
      subst hn
      refine ⟨by simp; omega, ?_⟩
      by_cases hthree : padStart ≤ i + 2
      · rw [show padStart - i = 2 by omega]
        simp [h3 hthree, h4 (by omega)]
      · rw [show padStart - i = 3 by omega]
        simp [h4 (by omega)]

theorem find_isSome (text : Text) (ch : Byte) : (find text ch).isSome ↔ ch ∈ text := by
  rw [find, isSome_iff_ne_none, ne_eq, idxOf?_eq_none_iff, not_not]

theorem normalizeChar_eq (allowUrl : Bool) (ch : Byte) : normalizeChar allowUrl ch =
    if encodingIsSpace ch then some []
    else if ch = char '=' ∨ ch ∈ base64StdAlphabet ∨ allowUrl ∧ ch ∈ base64UrlAlphabet then some [plain ch]
    else none := by
  have hminus : char '-' ∉ base64StdAlphabet ∧ char '_' ∉ base64StdAlphabet ∧ char '=' ≠ char '-' ∧
    char '=' ≠ char '_' := by decide +kernel
  simp only [normalizeChar, find_isSome, plain]
  split_ifs <;> simp_all

theorem plain_eq_pad (ch : Byte) : plain ch = char '=' ↔ ch = char '=' := by
  revert ch
  decide +kernel

def OverAlphabet (allowUrl : Bool) (ch : Byte) : Prop :=
  ch ∈ base64StdAlphabet ∨ allowUrl ∧ ch ∈ base64UrlAlphabet

theorem normalize_eq (h : encodingNormalizeBase64 allowUrl input = some text) :
    text = (input.filter (!encodingIsSpace ·)).map plain ∧
      ∀ c ∈ input.filter (!encodingIsSpace ·), c = char '=' ∨ OverAlphabet allowUrl c := by
  induction input generalizing text with
  | nil =>
    cases h
    simp
  | cons ch rest ih =>
    simp only [encodingNormalizeBase64, bind_eq_bind, bind_eq_some_iff, normalizeChar_eq] at h
    obtain ⟨out, hout, tail, htail, h⟩ := h
    cases h
    obtain ⟨rfl, hrest⟩ := ih htail
    split_ifs at hout with hspace hchar
    · cases hout
      simpa [filter_cons, hspace] using hrest
    · cases hout
      simpa [filter_cons, hspace, hchar, OverAlphabet] using hrest

theorem not_pad_of_take (text : Text) : ∀ c ∈ text.take (text.length - padCount text), c ≠ char '=' := by
  intro c h
  rw [padCount] at h
  cases hfind : find text (char '=') with
  | none =>
    rw [find, idxOf?_eq_none_iff] at hfind
    exact fun he => hfind (he ▸ mem_of_mem_take h)
  | some p =>
    rw [hfind] at h
    rw [find, idxOf?, findIdx?_eq_some_iff_getElem] at hfind
    obtain ⟨hp, -, hbefore⟩ := hfind
    obtain ⟨j, hj, rfl⟩ := mem_take_iff_getElem.mp h
    dsimp only at hj
    simpa using hbefore j (by omega)

theorem padMissing_eq (h : padMissing allowUrl input = some text) :
    (∃ pad, text = input ++ pad) ∧ text.length % 4 = 0 := by
  rw [padMissing] at h
  split_ifs at h
  all_goals
    cases h
    first | exact ⟨⟨_, rfl⟩, by simp; omega⟩ | exact ⟨⟨[], by simp⟩, by omega⟩

/-- White space aside, a body over the alphabet and at most two pads. -/
def Accepted (allowUrl : Bool) (text : Text) : Prop :=
  ∃ n, text.length ≤ n + 2 ∧ (∀ c ∈ text.take n, OverAlphabet allowUrl c) ∧ ∀ c ∈ text.drop n, c = char '='

theorem accepted_of_decode (h : encodingBase64DecodeToBytesInternal input allowUrl = some bs) :
    Accepted allowUrl (input.filter (!encodingIsSpace ·)) := by
  rw [decodeInternal_eq] at h
  obtain ⟨out, hout, h⟩ := bind_eq_some_iff.mp h
  obtain ⟨text, htext, h⟩ := bind_eq_some_iff.mp h
  obtain ⟨rfl, hchars⟩ := normalize_eq hout
  have hbody := not_pad_of_take text
  obtain ⟨⟨pad, rfl⟩, hfull⟩ := padMissing_eq htext
  split_ifs at h with hnil hmany
  · rw [append_eq_nil_iff, map_eq_nil_iff] at hnil
    rw [hnil.1]
    exact ⟨0, by simp⟩
  · have hpads := (decodeLoop_spec (Nat.mul_div_cancel' (Nat.dvd_of_mod_eq_zero hfull)).symm h (Nat.zero_le _)).2
    rw [Nat.sub_zero, drop_append, ← map_drop] at hpads
    rw [take_append, ← map_take] at hbody
    refine ⟨_, ?_, fun c hc => ?_, fun c hc => (plain_eq_pad c).mp (hpads _ (mem_append_left _ (mem_map_of_mem hc)))⟩
    · rw [length_append, length_map]
      omega
    · exact (hchars c (mem_of_mem_take hc)).resolve_left fun he =>
        hbody _ (mem_append_left _ (mem_map_of_mem hc)) ((plain_eq_pad c).mpr he)

end Tablo.Encoding
