import Tablo.ArtifactRoundTrip

/-! The loader takes exactly what the writer wrote: nothing shorter, nothing
longer. -/

namespace Tablo.Artifact

open Reading LittleEndian Cursor

section Steadiness

theorem steadily_readerRead (n : Nat) (e : String) : Steadily (artifactReaderRead n e) := by
  intro i
  constructor
  · intro data h
    rw [artifactReaderRead] at h
    split at h
    next => cases h
    next hle =>
      rw [copy, if_pos (by omega)] at h
      cases h
  · intro data more b h
    rw [artifactReaderRead] at h ⊢
    split at h
    next => cases h
    next hle =>
      rw [copy, if_pos (by omega)] at h
      rw [if_neg (by rw [List.length_append]; omega), copy, if_pos (by rw [List.length_append]; omega),
        slice_append (by omega)]
      exact h

variable (e : String) (version : Nat)

theorem steadily_u8 : Steadily (readU8 e) :=
  (steadily_readerRead 1 e).bind fun _ => steadily_pure _

theorem steadily_u32 : Steadily (readU32 e) :=
  (steadily_readerRead 4 e).bind fun _ => steadily_pure _

theorem steadily_i32 : Steadily (readI32 e) :=
  (steadily_u32 e).bind fun _ => steadily_pure _

theorem steadily_u64 : Steadily (readU64 e) :=
  (steadily_readerRead 8 e).bind fun _ => steadily_pure _

theorem steadily_i64 : Steadily (readI64 e) :=
  (steadily_u64 e).bind fun _ => steadily_pure _

theorem steadily_buffer (n : Nat) (e : String) : Steadily (readBuffer n e) :=
  (steadily_readerRead n e).ite (steadily_pure [])

theorem steadily_string : Steadily (readString e) :=
  (steadily_u32 e).bind fun len => (steadily_check _ e).bind fun _ =>
    (steadily_buffer len e).bind fun _ => steadily_pure _

theorem steadily_since {β : Type} (version first : Nat) {m : Reader β} (hm : Steadily m) (default : β) :
    Steadily (since version first m default) := hm.ite (steadily_pure default)

theorem steadily_captures (paramCount localCount : Nat) : Steadily (readCaptures paramCount localCount) := by
  have hslot : Steadily (readCaptureSlot paramCount localCount) :=
    (steadily_u32 _).bind fun _ => (steadily_check _ _).bind fun _ => steadily_pure _
  exact (steadily_u32 _).bind fun count => (steadily_check _ _).bind fun _ => hslot.many count

theorem steadily_chunk : Steadily readChunk :=
  (steadily_u32 _).bind fun codeCount => (steadily_check _ _).bind fun _ => (steadily_buffer _ _).bind fun _ =>
    (steadily_u32 _).bind fun _ => (steadily_check _ _).bind fun _ =>
    ((steadily_i32 _).many codeCount).bind fun _ => steadily_pure _

theorem steadily_constant : Steadily readConstant := by
  refine (steadily_i32 _).bind fun typeIndex => ?_
  exact .ite ((steadily_i64 _).bind fun _ => steadily_pure _) <|
    .ite ((steadily_i64 _).bind fun _ => steadily_pure _) <|
    .ite ((steadily_u64 _).bind fun _ => steadily_pure _) <|
    .ite ((steadily_string _).bind fun _ => steadily_pure _) <|
    .ite ((steadily_string _).bind fun _ => steadily_pure _) (steadily_fail _)

theorem steadily_jitHintPlan : Steadily (readJitHintPlan version) :=
  (steadily_i32 _).bind fun _ => (steadily_since _ _ (steadily_i32 _) _).bind fun _ =>
    (steadily_since _ _ (steadily_u8 _) _).bind fun _ => (steadily_u8 _).bind fun _ =>
    (steadily_u8 _).bind fun _ => (steadily_i64 _).bind fun _ => (steadily_i64 _).bind fun _ => steadily_pure _

theorem steadily_jitSummary : Steadily readJitSummary :=
  (steadily_i32 _).bind fun _ => (steadily_i32 _).bind fun _ => (steadily_u8 _).bind fun _ =>
    (steadily_u8 _).bind fun _ => (steadily_i64 _).bind fun _ => (steadily_i64 _).bind fun _ => steadily_pure _

theorem steadily_jitProfile (isAsync : Bool) (params locals captures : Nat)
    (hint : JitCompiledPlan) : Steadily (readJitProfile version isAsync params locals captures hint) :=
  (steadily_since _ _ (steadily_u8 _) _).bind fun _ => (steadily_since _ _ (steadily_u8 _) _).bind fun _ =>
    (steadily_since _ _ (steadily_u8 _) _).bind fun _ => (steadily_since _ _ (steadily_i32 _) _).bind fun _ =>
    (steadily_since _ _ (steadily_i32 _) _).bind fun _ => (steadily_since _ _ (steadily_i32 _) _).bind fun _ =>
    steadily_jitSummary.bind fun _ => steadily_pure _

theorem steadily_function : Steadily (artifactReadFunction version) := by
  have hname : Steadily readDebugName := (steadily_string _).bind fun _ => steadily_pure _
  have hconstants : Steadily readConstants :=
    (steadily_u32 _).bind fun count => (steadily_check _ _).bind fun _ => steadily_constant.many count
  exact (steadily_string _).bind fun _ => (steadily_since _ _ (steadily_string _) _).bind fun _ =>
    (steadily_since _ _ (steadily_u8 _) _).bind fun _ => (steadily_since _ _ (steadily_i32 _) _).bind fun _ =>
    (steadily_since _ _ (steadily_i32 _) _).bind fun _ => (steadily_u32 _).bind fun _ =>
    (steadily_u32 _).bind fun localCount => (steadily_check _ _).bind fun _ =>
    (steadily_since _ _ (steadily_captures _ _) _).bind fun _ =>
    (steadily_since _ _ (hname.many localCount) _).bind fun _ => steadily_chunk.bind fun _ =>
    hconstants.bind fun _ => (steadily_since _ _ (steadily_jitHintPlan version) _).bind fun _ =>
    (steadily_since _ _ (steadily_jitProfile _ _ _ _ _ _) _).bind fun _ => steadily_pure _

theorem steadily_counted {β : Type} {m : Reader β} (hm : Steadily m) : Steadily (readCounted m) :=
  (steadily_u32 _).bind fun count => (steadily_check _ _).bind fun _ => hm.many count

theorem steadily_artifact : Steadily readArtifact := by
  have hdep : Steadily readDependency :=
    (steadily_string _).bind fun _ => (steadily_i64 _).bind fun _ => steadily_pure _
  have hentry : Steadily readInterfaceDispatchEntry :=
    (steadily_string _).bind fun _ => (steadily_string _).bind fun _ => (steadily_string _).bind fun _ =>
      (steadily_string _).bind fun _ => steadily_pure _
  have hinit : ∀ version hasInit, Steadily (readInitFunction version hasInit) := fun version _ =>
    ((steadily_function version).bind fun _ => steadily_pure _).ite (steadily_pure none)
  exact (steadily_readerRead _ _).bind fun _ => (steadily_check _ _).bind fun _ => (steadily_u32 _).bind fun version =>
    (steadily_check _ _).bind fun _ => (steadily_u32 _).bind fun _ => (steadily_counted hdep).bind fun _ =>
    (steadily_since _ _ (steadily_counted hentry) _).bind fun _ => (steadily_u32 _).bind fun functionCount =>
    (steadily_check _ _).bind fun _ => (steadily_i32 _).bind fun _ => (steadily_u8 _).bind fun hasInit =>
    (steadily_check _ _).bind fun _ => ((steadily_function version).many functionCount).bind fun _ =>
    (hinit version hasInit).bind fun _ => steadily_pure _

end Steadiness

variable {data : Bytes} {a : BytecodeArtifact}

theorem loadBytes_ok_iff :
    artifactLoadBytes data = .ok a ↔ data ≠ [] ∧ readArtifact data 0 = .ok (a, data.length) := by
  rw [artifactLoadBytes]
  split
  next hnil => simp [hnil]
  next hne =>
    cases hread : readArtifact data 0 with
    | error e => rcases e with e | _ <;> split <;> simp_all
    | ok r =>
      obtain ⟨b, offset⟩ := r
      by_cases hend : offset = data.length
      · simp [hend, hne]
      · simp [hend]

theorem loadBytes_safe (data : Bytes) : artifactLoadBytes data ≠ .error .fault := by
  have hsafe := (steadily_artifact 0).safe data
  rw [artifactLoadBytes]
  split
  next => simp
  next =>
    cases hread : readArtifact data 0 with
    | error e =>
      rcases e with e | _
      · split <;> simp_all
      · exact absurd hread hsafe
    | ok r =>
      obtain ⟨b, offset⟩ := r
      by_cases hend : offset = data.length <;> simp [hend]

def Accepted (data : Bytes) : Prop := ∃ a, artifactLoadBytes data = .ok a

def Rejected (data : Bytes) : Prop := ∃ message, artifactLoadBytes data = .error (.error message)

theorem rejected_of_not_accepted (h : ¬ Accepted data) : Rejected data := by
  cases hload : artifactLoadBytes data with
  | ok a => exact absurd ⟨a, hload⟩ h
  | error e =>
    cases e with
    | error message => exact ⟨message, hload⟩
    | fault => exact absurd hload (loadBytes_safe data)

theorem not_both_accepted {more : Bytes} (hmore : more ≠ []) (hd : Accepted data) : ¬ Accepted (data ++ more) := by
  rintro ⟨b, hb⟩
  obtain ⟨a, ha⟩ := hd
  exact steadily_artifact.end_unique hmore (loadBytes_ok_iff.mp ha).2 (loadBytes_ok_iff.mp hb).2

theorem load_write {path : String} {bytes : Bytes} (hw : artifactWriteFile path a = .ok bytes)
    (hl : a.WithinLimits) : artifactLoadBytes bytes = .ok a.normalise := by
  rw [artifactWriteFile] at hw
  split_ifs at hw with hpath hne hmain
  split at hw
  next => cases hw
  next p hp =>
    obtain rfl := Except.ok.inj hw
    have hread := reads_artifact hp hl hmain p 0 ⟨[], [], by simp, rfl⟩
    rw [Nat.zero_add] at hread
    refine loadBytes_ok_iff.mpr ⟨?_, hread⟩
    rintro rfl
    cases hread

theorem artifact_faithful (path : String) : (∀ a bytes, artifactWriteFile path a = .ok bytes → a.WithinLimits →
      artifactLoadBytes bytes = .ok a.normalise) ∧
    ∀ data, Accepted data → (∀ front more, data = front ++ more → more ≠ [] → Rejected front) ∧
      ∀ more, more ≠ [] → Rejected (data ++ more) := by
  refine ⟨fun a bytes hw hl => load_write hw hl, fun data hd => ⟨?_, ?_⟩⟩
  · rintro front more rfl hmore
    exact rejected_of_not_accepted fun hfront => not_both_accepted hmore hfront hd
  · intro more hmore
    exact rejected_of_not_accepted (not_both_accepted hmore hd)

def sampleFunction : ObjFunction where
  name := some .empty
  sourceFile := some ⟨[97], by decide⟩
  isAsync := true
  deferHandlerIp := -1
  deferReturnSlot := 2
  paramCount := 1
  debugLocalNames := [some ⟨[120], by decide⟩, none]
  captureLocalSlots := [1]
  chunk := [(3, 7), (0, -1)]
  constants := [.int (-5), .double 4607182418800017408, .string none, .bigint (some ⟨[57], by decide⟩), .bool 1]
  jitHintPlan := noJitHintPlan
  jitProfile := noJitProfile

def sampleArtifact : BytecodeArtifact where
  initFunction := none
  functions := [sampleFunction]
  mainIndex := 0
  typecheckFlags := 1
  dependencies := [⟨none, 12⟩]
  interfaceDispatchEntries := []

theorem sampleFunction_withinLimits : sampleFunction.WithinLimits where
  name := by simp [sampleFunction, Fits, CString.empty]
  sourceFile := by simp [sampleFunction, Fits, artifactMaxStringBytes]
  paramCount := by decide
  localCount := by decide
  names := by simp [sampleFunction, Fits, CString.empty, artifactMaxStringBytes]
  code := by decide
  constantCount := by decide
  constants := by simp [sampleFunction, Constant.Fits, Fits, CString.empty, artifactMaxStringBytes]

theorem artifact_faithful_sample : ∃ bytes, artifactWriteFile "out" sampleArtifact = .ok bytes ∧
      artifactLoadBytes bytes = .ok sampleArtifact.normalise ∧
      Rejected (bytes ++ [0]) ∧ Rejected bytes.dropLast := by
  obtain ⟨bytes, hbytes⟩ : ∃ bytes, artifactWriteFile "out" sampleArtifact = .ok bytes := ⟨_, rfl⟩
  have hload := (artifact_faithful "out").1 sampleArtifact bytes hbytes
    ⟨by decide, by simp [sampleArtifact, sampleFunction_withinLimits], by simp [sampleArtifact], by decide,
      by simp [sampleArtifact, Fits, CString.empty], by decide, by simp [sampleArtifact]⟩
  obtain ⟨hshort, hlong⟩ := (artifact_faithful "out").2 bytes ⟨_, hload⟩
  have hne : bytes ≠ [] := (loadBytes_ok_iff.mp hload).1
  exact ⟨bytes, hbytes, hload, hlong [0] (by simp),
    hshort bytes.dropLast [bytes.getLast hne] (List.dropLast_append_getLast hne).symm (by simp)⟩

end Tablo.Artifact
