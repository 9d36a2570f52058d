import Tablo.Msgpack

/-! Decoding stays inside the input, and more input does not change what was decoded. -/

namespace Tablo.Msgpack

open Reading

theorem ensure_ok_iff {data : Bytes} {start count : Nat} {context : String} :
    msgpackEnsureAvailable data start count context = .ok () ↔ start + count ≤ data.length := by
  rw [msgpackEnsureAvailable]
  split_ifs <;> simp <;> omega

variable (start count : Nat) (context : String) (offset : Nat)

theorem steady_ensure_bind {β : Type} {g : Bytes → Decoded β}
    (h : ∀ data, start + count ≤ data.length → ∃ b, ∀ more, g (data ++ more) = .ok b) :
    Steady fun data => msgpackEnsureAvailable data start count context >>= fun _ => g data := by
  constructor
  · intro data hfault
    by_cases hle : start + count ≤ data.length
    · obtain ⟨b, hb⟩ := h data hle
      have hdata := hb []
      rw [List.append_nil] at hdata
      rw [ensure_ok_iff.mpr hle, hdata] at hfault
      cases hfault
    · rw [msgpackEnsureAvailable] at hfault
      split_ifs at hfault <;> first | cases hfault | omega
  · intro data more b hok
    have hle : start + count ≤ data.length := by
      by_contra hle
      rw [msgpackEnsureAvailable] at hok
      split_ifs at hok <;> first | cases hok | omega
    have hmore : start + count ≤ (data ++ more).length := by
      rw [List.length_append]
      omega
    obtain ⟨b', hb'⟩ := h data hle
    have hdata := hb' []
    rw [List.append_nil] at hdata
    rw [ensure_ok_iff.mpr hle] at hok
    rw [ensure_ok_iff.mpr hmore]
    rw [hb' more, ← hdata, hok]

theorem byteAt_append {data : Bytes} {i : Nat} (h : i < data.length) (more : Bytes) :
    byteAt (data ++ more) i = .ok data[i].toNat := by
  rw [byteAt, List.getElem?_append_left h, List.getElem?_eq_getElem h]

theorem steady_readU8At (context : String) : Steady fun data => msgpackReadU8At data offset context :=
  steady_ensure_bind offset 1 context fun data h =>
    ⟨data[offset].toNat, fun more => byteAt_append (by omega) more⟩

theorem steady_readU16At (context : String) :
    Steady fun data => msgpackReadU16At data offset context := by
  refine steady_ensure_bind offset 2 context fun data h =>
    ⟨data[offset].toNat * 256 + data[offset + 1].toNat, fun more => ?_⟩
  rw [byteAt_append (by omega), byteAt_append (by omega)]
  rfl

theorem steady_readU32At (context : String) :
    Steady fun data => msgpackReadU32At data offset context := by
  refine steady_ensure_bind offset 4 context fun data h =>
    ⟨data[offset].toNat * 16777216 + data[offset + 1].toNat * 65536 + data[offset + 2].toNat * 256 +
      data[offset + 3].toNat, fun more => ?_⟩
  rw [byteAt_append (by omega), byteAt_append (by omega), byteAt_append (by omega), byteAt_append (by omega)]
  rfl

theorem steady_sliceBytes : Steady fun data => msgpackSliceBytes data start count context :=
  steady_ensure_bind start count context fun data h =>
    ⟨slice data start count, fun more => congrArg Except.ok (slice_append h more)⟩

theorem decodeAscii_safe (start : Nat) (context : String) (offset : Nat) (s : Bytes) :
    decodeAscii start context offset s ≠ .error .fault := by
  induction s generalizing offset with
  | nil => simp [decodeAscii]
  | cons b rest ih =>
    rw [decodeAscii]
    cases hrest : decodeAscii start context (offset + 1) rest with
    | error e =>
      have he : e ≠ .fault := fun h => ih (offset + 1) (by rw [hrest, h])
      split_ifs <;> simp [bind, Except.bind, he]
    | ok out => split_ifs <;> simp [bind, Except.bind, pure, Except.pure]

theorem steady_decodeString : Steady fun data => decodeString data start count context := by
  refine Steady.bind ?_ fun text => steady_ok _
  exact (steady_sliceBytes start count (context ++ ".slice")).bind fun s =>
    steady_const (decodeAscii_safe start context 0 s)

theorem steady_decodeBin : Steady fun data => decodeBin data start count context :=
  (steady_sliceBytes start count (context ++ ".payload")).bind fun _ => steady_ok _

section Nested

variable {item : Bytes → Nat → Decoded (Value × Nat)} (hitem : ∀ idx, Steady fun data => item data idx)

include hitem

theorem steady_decodeItems (count idx : Nat) : Steady fun data => decodeItems (item data) count idx := by
  induction count generalizing idx with
  | zero => exact steady_ok _
  | succ count ih => exact (hitem idx).bind fun r => (ih r.2).bind fun _ => steady_ok _

theorem steady_decodeEntries (count : Nat) (seen : List Bytes) (idx : Nat) :
    Steady fun data => decodeEntries (item data) count seen idx := by
  induction count generalizing seen idx with
  | zero => exact steady_ok _
  | succ count ih =>
    refine (hitem idx).bind fun r => ?_
    obtain ⟨keyValue, next⟩ := r
    cases keyValue with
    | string key =>
      refine (hitem next).bind fun r => .ite (steady_error fun _ => _) ?_
      exact (ih (key :: seen) r.2).bind fun _ => steady_ok _
    | _ => exact steady_error fun _ => _

theorem steady_decodeMarked (offset marker : Nat) :
    Steady fun data => decodeMarked (item data) data offset marker := by
  have harray (start count : Nat) : Steady fun data => decodeArray (item data) start count :=
    (steady_decodeItems hitem count start).bind fun _ => steady_ok _
  have hmap (start count : Nat) : Steady fun data => decodeMap (item data) start count :=
    (steady_decodeEntries hitem count [] start).bind fun _ => steady_ok _
  -- one case for each marker, in the order of the tests
  refine .ite (steady_ok _) <| .ite (steady_ok _) <| .ite (steady_decodeString ..) <|
    .ite (harray ..) <| .ite (hmap ..) <| .ite (steady_ok _) <| .ite (steady_ok _) <|
    .ite (steady_ok _) <| .ite ?_ <| .ite ?_ <| .ite ?_ <| .ite ?_ <| .ite ?_ <| .ite ?_ <|
    .ite ?_ <| .ite ?_ <| .ite ?_ <| .ite ?_ <| .ite ?_ <| .ite ?_ <| steady_error fun _ => _
  · exact (steady_readU8At ..).bind fun _ => steady_ok _
  · exact (steady_readU16At ..).bind fun _ => steady_ok _
  · exact (steady_readU32At ..).bind fun _ => steady_ok _
  · exact (steady_readU8At ..).bind fun _ => steady_ok _
  · exact (steady_readU16At ..).bind fun _ => steady_ok _
  · exact (steady_readU32At ..).bind fun _ => steady_ok _
  · exact (steady_readU8At ..).bind fun _ => steady_decodeString ..
  · exact (steady_readU16At ..).bind fun _ => steady_decodeString ..
  · exact (steady_readU8At ..).bind fun _ => steady_decodeBin ..
  · exact (steady_readU16At ..).bind fun _ => steady_decodeBin ..
  · exact (steady_readU16At ..).bind fun _ => harray ..
  · exact (steady_readU16At ..).bind fun _ => hmap ..

end Nested

theorem steady_decodeAt (offset depth : Nat) : Steady fun data => msgpackDecodeAt data offset depth := by
  induction hd : maxDepth + 1 - depth using Nat.strongRecOn generalizing offset depth with
  | _ n ih =>
    have hstep : (fun data => msgpackDecodeAt data offset depth) = fun data =>
        if maxDepth < depth then .error (.error (depthError "msgpack.decode.depth" offset depth))
        else msgpackReadU8At data offset "msgpack.decode.marker" >>= fun marker =>
          decodeMarked (fun idx => msgpackDecodeAt data idx (depth + 1 + 1)) data offset marker := by
      funext data
      rw [msgpackDecodeAt]
    rw [hstep]
    by_cases hdepth : maxDepth < depth
    · simp only [if_pos hdepth]
      exact steady_error fun _ => _
    · simp only [if_neg hdepth]
      refine (steady_readU8At ..).bind fun marker => steady_decodeMarked (fun idx => ?_) offset marker
      exact ih (maxDepth + 1 - (depth + 1 + 1)) (by omega) idx (depth + 1 + 1) rfl

theorem msgpackDecode_safe (data : Bytes) : msgpackDecode data ≠ .error .fault := by
  intro h
  rw [msgpackDecode] at h
  cases hd : msgpackDecodeAt data 0 0 with
  | error e =>
    rw [hd] at h
    cases h
    exact (steady_decodeAt 0 0).safe data hd
  | ok r =>
    rw [hd] at h
    dsimp only [bind, Except.bind] at h
    split_ifs at h <;> cases h

end Tablo.Msgpack
