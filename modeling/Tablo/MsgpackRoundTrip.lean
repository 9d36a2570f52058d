import Tablo.Fallible
import Tablo.MsgpackRead

/-! Decoding gives back the value that was encoded. -/

namespace Tablo.Msgpack

open Fallible Reading List Int

/-! Reading at a place whose bytes are known. -/

variable {data : Bytes} {offset : Nat} {context : String} {part rest : Bytes} {b : UInt8} {β : Type}

theorem ensure_at (context : String) (h : At data offset part) (count : Nat) (hc : count ≤ part.length) :
    msgpackEnsureAvailable data offset count context = .ok () :=
  ensure_ok_iff.mpr (by have := h.le; omega)

section

variable (h : At data offset (b :: rest))

include h

theorem byteAt_at : byteAt data offset = .ok b.toNat := by
  rw [byteAt, h.getElem?]

theorem readU8At_bind (f : Nat → Decoded β) :
    (msgpackReadU8At data offset context >>= f) = f b.toNat := by
  have hen := ensure_at context h 1 (by simp)
  rw [msgpackReadU8At, byteAt_at h]
  exact congrArg (fun r => (r >>= _) >>= f) hen

theorem At.tail : At data (offset + 1) rest :=
  At.right (a := [b]) h

end

theorem readU16At_bind {b0 b1 : UInt8} (h : At data offset (b0 :: b1 :: rest)) (f : Nat → Decoded β) :
    (msgpackReadU16At data offset context >>= f) = f (b0.toNat * 256 + b1.toNat) := by
  have hen := ensure_at context h 2 (by simp)
  rw [msgpackReadU16At, byteAt_at h, byteAt_at (At.tail h)]
  exact congrArg (fun r => (r >>= _) >>= f) hen

theorem readU32At_bind {b0 b1 b2 b3 : UInt8} (h : At data offset (b0 :: b1 :: b2 :: b3 :: rest))
    (f : Nat → Decoded β) : (msgpackReadU32At data offset context >>= f) =
      f (b0.toNat * 16777216 + b1.toNat * 65536 + b2.toNat * 256 + b3.toNat) := by
  have hen := ensure_at context h 4 (by simp)
  rw [msgpackReadU32At, byteAt_at h, byteAt_at (At.tail h), byteAt_at (At.tail (At.tail h)),
    byteAt_at (At.tail (At.tail (At.tail h)))]
  exact congrArg (fun r => (r >>= _) >>= f) hen

theorem sliceBytes_at (h : At data offset part) : msgpackSliceBytes data offset part.length context = .ok part := by
  have hen := ensure_at context h part.length (Nat.le_refl _)
  rw [msgpackSliceBytes, h.slice]
  exact congrArg (· >>= _) hen

/-! What the encoder writes. -/

variable {bs : Bytes} {value marker : Int} {payload : Bytes} {v : Value} {depth : Nat} {join : Bytes → Bytes → Bytes}

theorem bytesFromInts_ok {values : List Int} {i : Nat}
    (h : bytesFromInts context i values = .ok bs) : bs.map (fun b => (b.toNat : Int)) = values := by
  induction values generalizing i bs with
  | nil =>
    cases h
    rfl
  | cons v values ih =>
    rw [bytesFromInts] at h
    by_cases hv : v < 0 ∨ 255 < v
    · rw [if_pos hv] at h
      cases h
    · rw [if_neg hv] at h
      obtain ⟨rest, hrest, h⟩ := ok_of_bind h
      cases h
      rw [map_cons, ih hrest]
      refine congrArg (· :: values) ?_
      rw [UInt8.toNat_ofNat']
      omega

theorem one_byte
    (h : msgpackBytesFromInts [value] context = .ok bs) : ∃ b : UInt8, bs = [b] ∧ (b.toNat : Int) = value := by
  obtain ⟨b, rest, rfl, hb, hrest⟩ := map_eq_cons_iff.mp (bytesFromInts_ok h)
  rw [map_eq_nil_iff] at hrest
  exact ⟨b, by rw [hrest], hb⟩

theorem two_bytes {v0 v1 : Int} (h : msgpackBytesFromInts [v0, v1] context = .ok bs) :
    ∃ b0 b1 : UInt8, bs = [b0, b1] ∧ (b0.toNat : Int) = v0 ∧ (b1.toNat : Int) = v1 := by
  obtain ⟨b0, rest, rfl, hb0, hrest⟩ := map_eq_cons_iff.mp (bytesFromInts_ok h)
  obtain ⟨b1, rest, rfl, hb1, hrest⟩ := map_eq_cons_iff.mp hrest
  rw [map_eq_nil_iff] at hrest
  exact ⟨b0, b1, by rw [hrest], hb0, hb1⟩

theorem u16_bytes (h : msgpackU16Bytes value context = .ok bs) :
    ∃ b0 b1 : UInt8, bs = [b0, b1] ∧ ((b0.toNat * 256 + b1.toNat : Nat) : Int) = value := by
  rw [msgpackU16Bytes] at h
  split_ifs at h with hv
  obtain ⟨b0, b1, rfl, h0, h1⟩ := two_bytes h
  exact ⟨b0, b1, rfl, by omega⟩

theorem u32_bytes (h : msgpackU32Bytes value context = .ok bs) : ∃ b0 b1 b2 b3 : UInt8, bs = [b0, b1, b2, b3] ∧
      ((b0.toNat * 16777216 + b1.toNat * 65536 + b2.toNat * 256 + b3.toNat : Nat) : Int) = value := by
  rw [msgpackU32Bytes] at h
  split_ifs at h with hv
  obtain ⟨b0, rest, rfl, hb0, hrest⟩ := map_eq_cons_iff.mp (bytesFromInts_ok h)
  obtain ⟨b1, rest, rfl, hb1, hrest⟩ := map_eq_cons_iff.mp hrest
  obtain ⟨b2, rest, rfl, hb2, hrest⟩ := map_eq_cons_iff.mp hrest
  obtain ⟨b3, rest, rfl, hb3, hrest⟩ := map_eq_cons_iff.mp hrest
  rw [map_eq_nil_iff] at hrest
  subst hrest
  exact ⟨b0, b1, b2, b3, rfl, by omega⟩

theorem header_bytes {encoded : Except MsgpackError Bytes}
    (h : (encoded >>= fun number => msgpackBytesFromInts [marker] context >>= fun header => pure (join header number)) =
      .ok bs) : ∃ number b, encoded = .ok number ∧ bs = join [b] number ∧ (b.toNat : Int) = marker := by
  obtain ⟨number, hnumber, h⟩ := ok_of_bind h
  obtain ⟨header, hheader, h⟩ := ok_of_bind h
  cases h
  obtain ⟨b, rfl, hb⟩ := one_byte hheader
  exact ⟨number, b, hnumber, rfl, hb⟩

theorem headed_one (h : headed [marker] payload context = .ok bs) :
    ∃ b : UInt8, bs = b :: payload ∧ (b.toNat : Int) = marker := by
  obtain ⟨header, hheader, h⟩ := ok_of_bind h
  cases h
  obtain ⟨b, rfl, hb⟩ := one_byte hheader
  exact ⟨b, rfl, hb⟩

theorem headed_two {size : Int} (h : headed [marker, size] payload context = .ok bs) :
    ∃ b b1 : UInt8, bs = b :: b1 :: payload ∧ (b.toNat : Int) = marker ∧ (b1.toNat : Int) = size := by
  obtain ⟨header, hheader, h⟩ := ok_of_bind h
  cases h
  obtain ⟨b, b1, rfl, hb, hb1⟩ := two_bytes hheader
  exact ⟨b, b1, rfl, hb, hb1⟩

/-! Decoding what was written. -/

variable {s : Bytes}

def itemAt (data : Bytes) (depth idx : Nat) : Decoded (Value × Nat) := msgpackDecodeAt data idx (depth + 1 + 1)

theorem decodeAt_marked (hd : depth ≤ maxDepth) (h : At data offset (b :: rest)) :
    msgpackDecodeAt data offset depth = decodeMarked (itemAt data depth) data offset b.toNat := by
  rw [msgpackDecodeAt, if_neg (by omega), readU8At_bind h]
  rfl

theorem decodeAt_u16 {marker : Nat} {context' context'' : String} {read : Nat → Decoded (Value × Nat)}
    (h : (msgpackU16Bytes value context' >>= fun number => msgpackBytesFromInts [(marker : Int)] context'' >>=
      fun header => pure (join header number)) = .ok bs)
    (hjoin : ∀ b b0 b1, join [b] [b0, b1] = b :: b0 :: b1 :: payload) (hd : depth ≤ maxDepth)
    (hat : At data offset bs) (hmarked : decodeMarked (itemAt data depth) data offset marker =
      (msgpackReadU16At data (offset + 1) context >>= read))
    (hread : ∀ n : Nat, (n : Int) = value → At data (offset + 3) payload →
      read n = .ok (v, offset + 3 + payload.length)) :
    msgpackDecodeAt data offset depth = .ok (v, offset + bs.length) := by
  obtain ⟨number, b, hnumber, rfl, hb⟩ := header_bytes h
  obtain ⟨b0, b1, rfl, hv⟩ := u16_bytes hnumber
  rw [hjoin] at hat ⊢
  rw [decodeAt_marked hd hat, ofNat.inj hb, hmarked, readU16At_bind (At.tail hat),
    hread _ hv (At.tail (At.tail (At.tail hat)))]
  simp; omega

theorem signed_eq {half n : Nat} {v : Int} (hv : (n : Int) = 2 * half + v) (hlo : -half ≤ v) :
    signed half n = .int v := by
  exact congrArg Value.int (by omega)

theorem decodeAt_int {n : Int} (h : msgpackEncodeInt n = .ok bs) (hd : depth ≤ maxDepth)
    (hat : At data offset bs) : msgpackDecodeAt data offset depth = .ok (.int n, offset + bs.length) := by
  rw [msgpackEncodeInt] at h
  split_ifs at h with h1 h2 h3 h4 h5 h6 h7 h8 h9
  · obtain ⟨b, rfl, hb⟩ := one_byte h
    rw [decodeAt_marked hd hat, decodeMarked, if_pos (by omega), hb]
    rfl
  · obtain ⟨b, rfl, hb⟩ := one_byte h
    rw [decodeAt_marked hd hat, decodeMarked, if_neg (by omega), if_pos (by omega),
      show (b.toNat : Int) - 256 = n by omega]
    rfl
  · obtain ⟨b, b0, rfl, hb, hv⟩ := two_bytes h
    rw [decodeAt_marked hd hat, ofNat.inj hb]
    refine (readU8At_bind (At.tail hat) _).trans ?_
    exact congrArg (fun n => Except.ok (Value.int n, offset + 2)) hv
  · exact decodeAt_u16 h (fun _ _ _ => rfl) hd hat rfl fun _ hv _ =>
      congrArg (fun n => Except.ok (Value.int n, offset + 3)) hv
  · obtain ⟨number, b, hnumber, rfl, hb⟩ := header_bytes h
    obtain ⟨b0, b1, b2, b3, rfl, hv⟩ := u32_bytes hnumber
    rw [decodeAt_marked hd hat, ofNat.inj hb]
    refine (readU32At_bind (At.tail hat) _).trans ?_
    exact congrArg (fun n => Except.ok (Value.int n, offset + 5)) hv
  · obtain ⟨b, b0, rfl, hb, hv⟩ := two_bytes h
    rw [decodeAt_marked hd hat, ofNat.inj hb]
    refine (readU8At_bind (At.tail hat) _).trans ?_
    exact congrArg (fun v => Except.ok (v, offset + 2)) (signed_eq (by omega) (by omega))
  · exact decodeAt_u16 h (fun _ _ _ => rfl) hd hat rfl fun _ hv _ =>
      congrArg (fun v => Except.ok (v, offset + 3)) (signed_eq (by omega) (by omega))
  · obtain ⟨number, b, hnumber, rfl, hb⟩ := header_bytes h
    obtain ⟨b0, b1, b2, b3, rfl, hv⟩ := u32_bytes hnumber
    rw [decodeAt_marked hd hat, ofNat.inj hb]
    refine (readU32At_bind (At.tail hat) _).trans ?_
    exact congrArg (fun v => Except.ok (v, offset + 5)) (signed_eq (by omega) (by omega))

def decodableByte (b : UInt8) : Bool := b = 9 ∨ b = 10 ∨ b = 13 ∨ (32 ≤ b ∧ b ≤ 126)

theorem asciiPrintable_eq : asciiPrintable = (List.range 95).map fun i => UInt8.ofNat (i + 32) := by
  decide +kernel

theorem slice_asciiPrintable (h : 32 ≤ b ∧ b ≤ 126) : slice asciiPrintable (b.toNat - 32) 1 = [b] := by
  have hlo : 32 ≤ b.toNat := UInt8.le_iff_toNat_le.mp h.1
  have hhi : b.toNat ≤ 126 := UInt8.le_iff_toNat_le.mp h.2
  have hlen : b.toNat - 32 < ((List.range 95).map fun i => UInt8.ofNat (i + 32)).length := by
    simp
    omega
  rw [slice, asciiPrintable_eq, drop_eq_getElem_cons hlen, take_succ_cons, take_zero,
    getElem_map, getElem_range, Nat.sub_add_cancel hlo, UInt8.ofNat_toNat]

theorem decodeAscii_eq {start : Nat} (h : s.all decodableByte = true)
    (k : Nat) : decodeAscii start context k s = .ok s := by
  induction s generalizing k with
  | nil => rfl
  | cons b rest ih =>
    rw [all_cons, Bool.and_eq_true] at h
    rw [decodeAscii, ih h.2]
    have hb : b = 9 ∨ b = 10 ∨ b = 13 ∨ (32 ≤ b ∧ b ≤ 126) := of_decide_eq_true h.1
    split_ifs with h9 h10 h13 hp
    · rfl
    · rfl
    · rfl
    · rw [slice_asciiPrintable hp]
      rfl
    · tauto

theorem decodeString_at (hs : s.all decodableByte = true) (hat : At data offset s) (context : String) :
    decodeString data offset s.length context = .ok (.string s, offset + s.length) := by
  rw [decodeString, msgpackDecodeAsciiString, sliceBytes_at hat]
  dsimp only [bind, Except.bind]
  rw [decodeAscii_eq hs]
  rfl

theorem decodeAt_string (h : msgpackEncodeString s = .ok bs) (hs : s.all decodableByte = true)
    (hd : depth ≤ maxDepth) (hat : At data offset bs) :
    msgpackDecodeAt data offset depth = .ok (.string s, offset + bs.length) := by
  rw [msgpackEncodeString] at h
  split_ifs at h with h1 h2 h3
  · obtain ⟨b, rfl, hb⟩ := headed_one h
    rw [decodeAt_marked hd hat, show b.toNat = 0xa0 + s.length by omega, decodeMarked, if_neg (by omega),
      if_neg (by omega), if_pos (by omega), Nat.add_sub_cancel_left, decodeString_at hs (At.tail hat)]
    simp; omega
  · obtain ⟨b, b1, rfl, hb, hb1⟩ := headed_two h
    rw [decodeAt_marked hd hat, ofNat.inj hb]
    refine (readU8At_bind (At.tail hat) _).trans ?_
    rw [ofNat.inj hb1]
    exact (decodeString_at hs (At.tail (At.tail hat)) _).trans (by simp; omega)
  · exact decodeAt_u16 h (fun _ _ _ => rfl) hd hat rfl fun _ hn hat => ofNat.inj hn ▸ decodeString_at hs hat _

theorem decodeBin_at (hat : At data offset s) (context : String) :
    decodeBin data offset s.length context = .ok (.bytes s, offset + s.length) := by
  rw [decodeBin, sliceBytes_at hat]
  rfl

theorem decodeAt_bytes (h : msgpackEncodeBytes s = .ok bs) (hd : depth ≤ maxDepth) (hat : At data offset bs) :
    msgpackDecodeAt data offset depth = .ok (.bytes s, offset + bs.length) := by
  rw [msgpackEncodeBytes] at h
  split_ifs at h with h1 h2
  · obtain ⟨b, b1, rfl, hb, hb1⟩ := headed_two h
    rw [decodeAt_marked hd hat, ofNat.inj hb]
    refine (readU8At_bind (At.tail hat) _).trans ?_
    rw [ofNat.inj hb1]
    exact (decodeBin_at (At.tail (At.tail hat)) _).trans (by simp; omega)
  · exact decodeAt_u16 h (fun _ _ _ => rfl) hd hat rfl fun _ hn hat => ofNat.inj hn ▸ decodeBin_at hat _

mutual

/-- The strings inside have decodable characters only, and the keys of a map are distinct. -/
def Value.Decodable : Value → Prop
  | .string chars => chars.all decodableByte = true
  | .array items => items.Decodable
  | .map entries => entries.Decodable ∧ entries.keys.Nodup
  | _ => True

def Items.Decodable : Items → Prop
  | .nil => True
  | .cons item rest => item.Decodable ∧ rest.Decodable

def Entries.Decodable : Entries → Prop
  | .nil => True
  | .cons key value rest => key.all decodableByte = true ∧ value.Decodable ∧ rest.Decodable

end

theorem depth_le_of_encode (h : msgpackEncodeValue v depth = .ok bs) : depth ≤ maxDepth := by
  by_contra hd
  rw [msgpackEncodeValue.eq_def, if_pos (by omega)] at h
  cases h

theorem decodeAt_array {items : Items}
    (hd : depth ≤ maxDepth) (hsize : ¬ 65535 < items.length)
    (h : (if items.length ≤ 15 then headed [0x90 + items.length] payload "msgpack.encode.array.fixarray"
      else sizedU16 0xdc items.length payload "msgpack.encode.array.array16") = .ok bs) (hat : At data offset bs)
    (hitems : ∀ start, At data start payload →
      decodeItems (itemAt data depth) items.length start = .ok (items, start + payload.length)) :
    msgpackDecodeAt data offset depth = .ok (.array items, offset + bs.length) := by
  split_ifs at h with hsmall
  · obtain ⟨b, rfl, hb⟩ := headed_one h
    rw [decodeAt_marked hd hat, show b.toNat = 0x90 + items.length by omega, decodeMarked,
      if_neg (by omega), if_neg (by omega), if_neg (by omega), if_pos (by omega),
      Nat.add_sub_cancel_left, decodeArray, hitems _ (At.tail hat)]
    refine congrArg (fun n => Except.ok (Value.array items, n)) ?_
    simp; omega
  · refine decodeAt_u16 h (fun _ _ _ => rfl) hd hat rfl fun n hn hat => ?_
    rw [ofNat.inj hn, decodeArray, hitems _ hat]
    rfl

theorem decodeAt_map {entries : Entries} (hd : depth ≤ maxDepth)
    (h : (if 65535 < entries.keys.length then .error ⟨.limit, "map size exceeds map16 MessagePack subset",
        "msgpack.encode.map.limit", -1, .number entries.keys.length⟩
      else if entries.keys.length ≤ 15 then headed [0x80 + entries.keys.length] payload "msgpack.encode.map.fixmap"
      else sizedU16 0xde entries.keys.length payload "msgpack.encode.map.map16") = .ok bs) (hat : At data offset bs)
    (hentries : ∀ start, At data start payload → decodeEntries (itemAt data depth) entries.keys.length [] start =
        .ok (entries, start + payload.length)) :
    msgpackDecodeAt data offset depth = .ok (.map entries, offset + bs.length) := by
  split_ifs at h with hsize hsmall
  · obtain ⟨b, rfl, hb⟩ := headed_one h
    rw [decodeAt_marked hd hat, show b.toNat = 0x80 + entries.keys.length by omega, decodeMarked,
      if_neg (by omega), if_neg (by omega), if_neg (by omega), if_neg (by omega), if_pos (by omega),
      Nat.add_sub_cancel_left, decodeMap, hentries _ (At.tail hat)]
    refine congrArg (fun n => Except.ok (Value.map entries, n)) ?_
    simp; omega
  · refine decodeAt_u16 h (fun _ _ _ => rfl) hd hat rfl fun n hn hat => ?_
    rw [ofNat.inj hn, decodeMap, hentries _ hat]
    rfl

mutual

theorem decodeAt_encoded : ∀ (v : Value) {depth : Nat} {bs : Bytes}, msgpackEncodeValue v depth = .ok bs →
    v.Decodable → ∀ {data : Bytes} {offset : Nat}, At data offset bs →
      msgpackDecodeAt data offset depth = .ok (v, offset + bs.length)
  | v, depth, bs, h, hdec, data, offset, hat => by
    have hd := depth_le_of_encode h
    rw [msgpackEncodeValue.eq_def, if_neg (by omega)] at h
    cases v with
    | nil =>
      obtain ⟨b, rfl, hb⟩ := one_byte h
      rw [decodeAt_marked hd hat, show b.toNat = 0xc0 by omega]
      rfl
    | bool value =>
      dsimp only [msgpackEncodeBool] at h
      cases value with
      | false | true =>
        obtain ⟨b, rfl, hb⟩ := one_byte h
        rw [decodeAt_marked hd hat, ofNat.inj hb]
        rfl
    | int n => exact decodeAt_int h hd hat
    | string chars => exact decodeAt_string h hdec hd hat
    | bytes payload => exact decodeAt_bytes h hd hat
    | array items =>
      dsimp only at h
      rw [msgpackEncodeArrayInternal] at h
      split_ifs at h with hdeep
      by_cases hsize : 65535 < items.length
      · rw [if_pos hsize] at h
        cases h
      · rw [if_neg hsize] at h
        obtain ⟨payload, hpayload, h⟩ := ok_of_bind h
        exact decodeAt_array hd hsize h hat fun start hstart => decodeItems_encoded items hpayload hdec hstart
    | map entries =>
      dsimp only at h
      rw [msgpackEncodeMapStringAny] at h
      split_ifs at h with hdeep
      obtain ⟨payload, hpayload, h⟩ := ok_of_bind h
      exact decodeAt_map hd h hat fun start hstart =>
        decodeEntries_encoded entries hpayload hdec.1 hdec.2 (by simp) hstart
    | other name => cases h

theorem decodeItems_encoded : ∀ (items : Items) {depth : Nat} {bs : Bytes},
    encodeItems items (depth + 1) = .ok bs → items.Decodable → ∀ {data : Bytes} {start : Nat}, At data start bs →
        decodeItems (itemAt data depth) items.length start = .ok (items, start + bs.length)
  | .nil, depth, bs, h, _, data, start, hat => by
    rw [encodeItems] at h
    cases h
    rfl
  | .cons item rest, depth, bs, h, hdec, data, start, hat => by
    rw [encodeItems] at h
    obtain ⟨encoded, hitem, h⟩ := ok_of_bind h
    obtain ⟨chunks, hrest, h⟩ := ok_of_bind h
    cases h
    rw [Items.length, decodeItems, itemAt, decodeAt_encoded item hitem hdec.1 hat.left]
    dsimp only [bind, Except.bind]
    rw [decodeItems_encoded rest hrest hdec.2 hat.right]
    simp [pure, Except.pure, Nat.add_assoc]

theorem decodeEntries_encoded : ∀ (entries : Entries) {depth : Nat} {bs : Bytes},
    encodeEntries entries (depth + 1) = .ok bs → entries.Decodable → entries.keys.Nodup →
      ∀ {seen : List Bytes}, (∀ key ∈ seen, key ∉ entries.keys) → ∀ {data : Bytes} {start : Nat},
        At data start bs → decodeEntries (itemAt data depth) entries.keys.length seen start =
          .ok (entries, start + bs.length)
  | .nil, depth, bs, h, _, _, seen, _, data, start, hat => by
    rw [encodeEntries] at h
    cases h
    rfl
  | .cons key value rest, depth, bs, h, hdec, hnodup, seen, hseen, data, start, hat => by
    rw [encodeEntries] at h
    obtain ⟨keyEncoded, hkey, h⟩ := ok_of_bind h
    obtain ⟨valueEncoded, hvalue, h⟩ := ok_of_bind h
    obtain ⟨chunks, hrest, h⟩ := ok_of_bind h
    cases h
    rw [Entries.keys, nodup_cons] at hnodup
    have hnew : key ∉ seen := fun hmem => hseen key hmem (by simp [Entries.keys])
    have hfirst := decodeAt_string hkey hdec.1 (depth_le_of_encode hvalue) hat.left.left
    have hsecond := decodeAt_encoded value hvalue hdec.2.1 hat.left.right
    rw [Entries.keys, length_cons, decodeEntries, itemAt, hfirst]
    dsimp only [bind, Except.bind]
    rw [itemAt, hsecond]
    dsimp only
    have hafter : ∀ k ∈ key :: seen, k ∉ rest.keys := by
      intro k hk hmem
      rcases mem_cons.mp hk with rfl | hk
      · exact hnodup.1 hmem
      · exact hseen k hk (by simp [Entries.keys, hmem])
    have hthird := decodeEntries_encoded rest hrest hdec.2.2 hnodup.2 hafter hat.right
    rw [length_append, ← Nat.add_assoc] at hthird
    rw [if_neg hnew, hthird]
    simp [pure, Except.pure, Nat.add_assoc]

end

/-! Whole inputs. -/

theorem decodeAt_of_decode (h : msgpackDecode data = .ok v) : msgpackDecodeAt data 0 0 = .ok (v, data.length) := by
  obtain ⟨⟨w, consumed⟩, hd, h⟩ := ok_of_bind h
  dsimp only at h
  split_ifs at h with hlen
  cases h
  rw [hd, not_not.mp hlen]

theorem rejected_of_ne_ok (h : ∀ v, msgpackDecode data ≠ .ok v) : ∃ e, msgpackDecode data = .error (.error e) := by
  cases hd : msgpackDecode data with
  | ok v => exact absurd hd (h v)
  | error failure =>
    cases failure with
    | error e => exact ⟨e, rfl⟩
    | fault => exact absurd hd (msgpackDecode_safe data)

/-- Decoding an encoded value gives it back, nothing shorter or longer than an encoding that starts
like it decodes, and no input makes the decoder look outside it. -/
theorem msgpack_faithful : (∀ (v : Value) (bs : Bytes), v.Decodable → msgpackEncode v = .ok bs →
      msgpackDecode bs = .ok v ∧
      (∀ front back, bs = front ++ back → back ≠ [] → ∃ e, msgpackDecode front = .error (.error e)) ∧
      (∀ extra, extra ≠ [] → ∃ e, msgpackDecode (bs ++ extra) = .error (.error e))) ∧
    (∀ data, msgpackDecode data ≠ .error .fault) := by
  refine ⟨fun v bs hv h => ?_, msgpackDecode_safe⟩
  have hat (extra : Bytes) : msgpackDecodeAt (bs ++ extra) 0 0 = .ok (v, bs.length) := by
    have hread := decodeAt_encoded v h hv (show At (bs ++ extra) 0 bs from ⟨[], extra, rfl, rfl⟩)
    rwa [Nat.zero_add] at hread
  have hwhole := hat []
  rw [append_nil] at hwhole
  refine ⟨?_, fun front back hbs hback => rejected_of_ne_ok fun w hw => ?_,
    fun extra hextra => rejected_of_ne_ok fun w hw => ?_⟩
  · rw [msgpackDecode, hwhole]
    simp [bind, Except.bind, pure, Except.pure]
  · have hmore := (steady_decodeAt 0 0).grows front back _ (decodeAt_of_decode hw)
    rw [← hbs, hwhole] at hmore
    have hlen := congrArg List.length hbs
    rw [(Prod.mk.inj (Except.ok.inj hmore)).2, length_append] at hlen
    exact hback (length_eq_zero_iff.mp (by omega))
  · have hmore := decodeAt_of_decode hw
    rw [hat extra] at hmore
    have hlen := (Prod.mk.inj (Except.ok.inj hmore)).2
    rw [length_append] at hlen
    exact hextra (length_eq_zero_iff.mp (by omega))

/-- The value `{"k": [nil, -200, true]}`. -/
def sampleMap : Value :=
  .map (.cons [107] (.array (.cons .nil (.cons (.int (-200)) (.cons (.bool true) .nil)))) .nil)

def sampleBytes : Bytes := [0x81, 0xa1, 107, 0x93, 0xc0, 0xd1, 0xff, 0x38, 0xc3]

theorem msgpack_faithful_sample :
    msgpackEncode sampleMap = .ok sampleBytes ∧ msgpackDecode sampleBytes = .ok sampleMap := by
  have hencode : msgpackEncode sampleMap = .ok sampleBytes := by
    rw [msgpackEncode, sampleMap, msgpackEncodeValue, msgpackEncodeMapStringAny, encodeEntries,
      encodeEntries, msgpackEncodeValue, msgpackEncodeArrayInternal, encodeItems, encodeItems, encodeItems,
      encodeItems, msgpackEncodeValue, msgpackEncodeValue, msgpackEncodeValue]
    rfl
  refine ⟨hencode, (msgpack_faithful.1 sampleMap sampleBytes ?_ hencode).1⟩
  simp [sampleMap, Value.Decodable, Entries.Decodable, Items.Decodable, Entries.keys, decodableByte]

end Tablo.Msgpack
