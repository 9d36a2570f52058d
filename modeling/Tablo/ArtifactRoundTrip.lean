import Tablo.Artifact

/-! What the writer wrote is read back, up to absent strings. -/

namespace Tablo.Artifact

open Reading LittleEndian Cursor List Reads

open Option (bind_eq_some_iff)

def identify (s : Option CString) : Option CString := named (s.getD .empty)

def present (s : Option CString) : Option CString := some (s.getD .empty)

def Constant.normalise : Constant → Constant
  | .string s => .string (present s)
  | .bigint s => .bigint (present s)
  | c => c

def ObjFunction.normalise (f : ObjFunction) : ObjFunction :=
  { f with
    name := identify f.name
    sourceFile := identify f.sourceFile
    debugLocalNames := f.debugLocalNames.map identify
    constants := f.constants.map Constant.normalise }

def ArtifactDependency.normalise (d : ArtifactDependency) : ArtifactDependency :=
  { d with path := present d.path }

def InterfaceDispatchEntry.normalise (e : InterfaceDispatchEntry) : InterfaceDispatchEntry :=
  ⟨present e.interfaceName, present e.recordName, present e.methodName, present e.functionName⟩

def BytecodeArtifact.normalise (a : BytecodeArtifact) : BytecodeArtifact :=
  { a with
    initFunction := a.initFunction.map ObjFunction.normalise
    functions := a.functions.map ObjFunction.normalise
    dependencies := a.dependencies.map ArtifactDependency.normalise
    interfaceDispatchEntries := a.interfaceDispatchEntries.map InterfaceDispatchEntry.normalise }

def Fits (s : Option CString) : Prop := (s.getD .empty).bytes.length ≤ artifactMaxStringBytes

def Constant.Fits : Constant → Prop
  | .string s => Artifact.Fits s
  | .bigint s => Artifact.Fits s
  | _ => True

structure ObjFunction.WithinLimits (f : ObjFunction) : Prop where
  name : Fits f.name
  sourceFile : Fits f.sourceFile
  paramCount : f.paramCount ≤ intMax
  localCount : f.localCount ≤ intMax
  names : ∀ s ∈ f.debugLocalNames, Fits s
  code : f.chunk.length ≤ artifactMaxCount
  constantCount : f.constants.length ≤ artifactMaxCount
  constants : ∀ c ∈ f.constants, c.Fits

structure InterfaceDispatchEntry.WithinLimits (e : InterfaceDispatchEntry) : Prop where
  interfaceName : Fits e.interfaceName
  recordName : Fits e.recordName
  methodName : Fits e.methodName
  functionName : Fits e.functionName

structure BytecodeArtifact.WithinLimits (a : BytecodeArtifact) : Prop where
  functionCount : a.functions.length ≤ artifactMaxCount
  functions : ∀ f ∈ a.functions, f.WithinLimits
  initFunction : ∀ f, a.initFunction = some f → f.WithinLimits
  dependencyCount : a.dependencies.length ≤ artifactMaxCount
  dependencies : ∀ d ∈ a.dependencies, Fits d.path
  entryCount : a.interfaceDispatchEntries.length ≤ artifactMaxCount
  entries : ∀ e ∈ a.interfaceDispatchEntries, e.WithinLimits

variable {e : String} {p : Bytes} {n : Nat}

theorem reads_readerRead (hn : p.length = n) : Reads (artifactReaderRead n e) p p := by
  intro data i hat
  have hle := hat.le
  rw [artifactReaderRead, if_neg (by omega)]
  exact reads_copy hn data i hat

theorem reads_u8 (v : UInt8) : Reads (readU8 e) (writeU8 v) v :=
  (reads_readerRead rfl).bind_pure fun b => b.headD 0

theorem reads_u32 (hn : n < 4294967296) : Reads (readU32 e) (writeU32 n) n := by
  have h := (reads_readerRead (e := e) (leBytes_length 4 n)).bind_pure leValue
  rwa [leValue_leBytes (by omega)] at h

theorem reads_i32 (v : Int32) : Reads (readI32 e) (writeI32 v) v := by
  have h := (reads_u32 (e := e) v.toUInt32.toNat_lt).bind_pure fun n => (UInt32.ofNat n).toInt32
  rwa [UInt32.ofNat_toNat] at h

theorem reads_u64 (v : UInt64) : Reads (readU64 e) (writeU64 v) v := by
  have h := (reads_readerRead (e := e) (leBytes_length 8 v.toNat)).bind_pure fun b => UInt64.ofNat (leValue b)
  rwa [leValue_leBytes v.toNat_lt, UInt64.ofNat_toNat] at h

theorem reads_i64 (v : Int64) : Reads (readI64 e) (writeI64 v) v :=
  (reads_u64 v.toUInt64).bind_pure UInt64.toInt64

theorem reads_buffer (p : Bytes) : Reads (readBuffer p.length e) p p := by
  rw [readBuffer]
  split
  next => exact reads_readerRead rfl
  next h =>
    obtain rfl : p = [] := eq_nil_of_length_eq_zero (by omega)
    exact reads_pure []

theorem ofBuffer_bytes (s : CString) : CString.ofBuffer s.bytes = s := by
  have h : s.bytes.takeWhile (· ≠ 0) = s.bytes := by
    rw [takeWhile_eq_self_iff]
    intro x hx
    simpa using fun h0 : x = 0 => s.noNul (h0 ▸ hx)
  cases s
  exact CString.mk.injEq _ _ _ _ |>.mpr h

theorem reads_string {s : Option CString} (hw : writeString s = some p) (hfit : Fits s) :
    Reads (readString e) p (s.getD .empty) := by
  rw [writeString] at hw
  split at hw
  next => cases hw
  next hlen =>
    cases hw
    have hle : (s.getD .empty).bytes.length ≤ artifactMaxStringBytes := hfit
    refine Reads.bind (reads_u32 ?_) (check_bind hle ?_)
    · simp only [uint32Max] at hlen
      omega
    · have h := (reads_buffer (e := e) (s.getD .empty).bytes).bind_pure CString.ofBuffer
      rwa [ofBuffer_bytes] at h

theorem reads_since {β : Type} {version first : Nat} {m : Reader β} {b default : β}
    (h : first ≤ version) (hm : Reads m p b) : Reads (Artifact.since version first m default) p b := by
  rwa [Artifact.since, if_pos h]

variable {parts : List Bytes} {f : ObjFunction}

theorem reads_constant {c : Constant} (hw : writeConstant c = some p) (hfit : c.Fits) :
    Reads readConstant p c.normalise := by
  cases c with
  | int v =>
    cases hw
    exact (reads_i32 0).bind ((reads_i64 v).bind_pure Constant.int)
  | double bits =>
    cases hw
    exact (reads_i32 1).bind ((reads_u64 bits).bind_pure Constant.double)
  | string s =>
    obtain ⟨text, htext, hw⟩ := bind_eq_some_iff.mp hw
    cases hw
    exact (reads_i32 2).bind ((reads_string htext hfit).bind_pure fun s => Constant.string (some s))
  | bigint s =>
    obtain ⟨text, htext, hw⟩ := bind_eq_some_iff.mp hw
    cases hw
    exact (reads_i32 3).bind ((reads_string htext hfit).bind_pure fun s => Constant.bigint (some s))
  | bool v =>
    cases hw
    exact (reads_i32 4).bind ((reads_i64 v).bind_pure Constant.bool)
  | unsupported => cases hw

theorem reads_constants {cs : List Constant} (hw : cs.mapM writeConstant = some parts)
    (hcount : cs.length ≤ artifactMaxCount) (hfit : ∀ c ∈ cs, c.Fits) :
    Reads readConstants (writeU32 cs.length ++ parts.flatten) (cs.map Constant.normalise) := by
  simp only [artifactMaxCount] at hcount
  refine Reads.bind (reads_u32 (by omega)) (check_bind ?_ ?_)
  · simp only [artifactMaxCount, intMax]
    omega
  · exact reads_many hw fun c hc p hp => reads_constant hp (hfit c hc)

theorem reads_captureSlot {slot : Nat} (hw : writeCaptureSlot f slot = some p)
    (hlocal : f.localCount ≤ intMax) : Reads (readCaptureSlot f.paramCount f.localCount) p slot := by
  rw [writeCaptureSlot] at hw
  split at hw
  next => cases hw
  next hslot =>
    cases hw
    simp only [intMax] at hlocal
    have hcheck : ¬(intMax < slot ∨ slot < f.paramCount ∨ f.localCount ≤ slot) := by
      simp only [intMax]
      omega
    have h := Reads.bind (k := fun slot => check (¬(intMax < slot ∨ slot < f.paramCount ∨ f.localCount ≤ slot))
      "Closure capture slot out of range" >>= fun _ => pure slot)
      (reads_u32 (e := "Failed to read closure capture slot") (show slot < 4294967296 by omega))
      (check_bind hcheck (reads_pure slot))
    rwa [append_nil] at h

theorem reads_captures (hw : f.captureLocalSlots.mapM (writeCaptureSlot f) = some parts)
    (hcount : f.captureLocalSlots.length ≤ f.localCount) (hlocal : f.localCount ≤ intMax) :
    Reads (readCaptures f.paramCount f.localCount) (writeU32 f.captureLocalSlots.length ++ parts.flatten)
      f.captureLocalSlots := by
  have hmany := reads_many (f := id) hw fun slot _ p hp => reads_captureSlot hp hlocal
  rw [map_id] at hmany
  simp only [intMax] at hlocal
  refine Reads.bind (reads_u32 (by omega)) (check_bind ?_ hmany)
  simp only [intMax]
  omega

theorem reads_debugNames {names : List (Option CString)}
    (hw : names.mapM writeString = some parts) (hfit : ∀ s ∈ names, Fits s) :
    Reads (many readDebugName names.length) parts.flatten (names.map identify) :=
  reads_many hw fun s hs _ hp => (reads_string hp (hfit s hs)).bind_pure named

theorem reads_chunk {chunk : List (UInt8 × Int32)} (hcount : chunk.length ≤ artifactMaxCount) :
    Reads readChunk (writeChunk chunk) chunk := by
  simp only [artifactMaxCount] at hcount
  have hcode := reads_buffer (e := "Failed to read function bytecode") (chunk.map Prod.fst)
  rw [length_map] at hcode
  have hmap : chunk.mapM (fun b => some (writeI32 b.2)) = some (chunk.map fun b => writeI32 b.2) := mapM_pure
  have hlines : Reads (many (readI32 "Failed to read debug line table") chunk.length)
      (chunk.map fun b => writeI32 b.2).flatten (chunk.map Prod.snd) := by
    refine reads_many hmap fun b _ p hp => ?_
    cases hp
    exact reads_i32 b.2
  have hzip : (chunk.map Prod.fst).zip (chunk.map Prod.snd) = chunk := by
    rw [zip_map', map_id']
  simp only [writeChunk, flatten_cons, flatten_nil, append_nil]
  refine Reads.bind (reads_u32 (by omega)) (check_bind ?_ (Reads.bind hcode ?_))
  · simp only [artifactMaxCount, intMax]
    omega
  · refine Reads.bind (reads_u32 (by omega)) (check_bind rfl ?_)
    have h := hlines.bind_pure fun lines => (chunk.map Prod.fst).zip lines
    rwa [hzip] at h

theorem reads_jitHintPlan (p : JitCompiledPlan) : Reads (readJitHintPlan 16) (writeJitHintPlan p) p := by
  exact (reads_i32 _).bind <| (reads_since (by decide) (reads_i32 _)).bind <| (reads_since (by decide) (reads_u8 _)).bind <|
    (reads_u8 _).bind <| (reads_u8 _).bind <| (reads_i64 _).bind <| (reads_i64 _).bind_pure _

theorem reads_jitSummary (s : JitFunctionSummary) : Reads readJitSummary (writeJitSummary s) s := by
  exact (reads_i32 _).bind <| (reads_i32 _).bind <| (reads_u8 _).bind <| (reads_u8 _).bind <|
    (reads_i64 _).bind <| (reads_i64 _).bind_pure _

theorem reads_jitProfile (p : JitFunctionProfile) (isAsync : Bool) (params locals captures : Nat)
    (hint : JitCompiledPlan) :
    Reads (readJitProfile 16 isAsync params locals captures hint) (writeJitProfile p) p := by
  exact (reads_since (by decide) (reads_u8 _)).bind <| (reads_since (by decide) (reads_u8 _)).bind <|
    (reads_since (by decide) (reads_u8 _)).bind <| (reads_since (by decide) (reads_i32 _)).bind <|
    (reads_since (by decide) (reads_i32 _)).bind <| (reads_since (by decide) (reads_i32 _)).bind <|
    (reads_jitSummary _).bind_pure _

theorem reads_function (hw : artifactWriteFunction f = some p) (hl : f.WithinLimits) :
    Reads (artifactReadFunction 16) p f.normalise := by
  obtain ⟨name, hname, hw⟩ := bind_eq_some_iff.mp hw
  obtain ⟨source, hsource, hw⟩ := bind_eq_some_iff.mp hw
  obtain ⟨⟨⟩, hguard, hw⟩ := bind_eq_some_iff.mp hw
  obtain ⟨captures, hcaptures, hw⟩ := bind_eq_some_iff.mp hw
  obtain ⟨names, hnames, hw⟩ := bind_eq_some_iff.mp hw
  obtain ⟨constants, hconstants, hw⟩ := bind_eq_some_iff.mp hw
  cases hw
  have hcount : f.captureLocalSlots.length ≤ f.localCount := by
    by_contra hlt
    simp [hlt] at hguard
  have hparams := hl.paramCount
  have hlocals := hl.localCount
  simp only [intMax] at hparams hlocals
  have hasync : (decide ((if f.isAsync then 1 else 0 : UInt8) ≠ 0)) = f.isAsync := by
    cases f.isAsync <;> rfl
  have hprofile := reads_jitProfile f.jitProfile f.isAsync f.paramCount f.localCount
    f.captureLocalSlots.length f.jitHintPlan
  refine (reads_string hname hl.name).bind <| (reads_since (by decide) (reads_string hsource hl.sourceFile)).bind <|
    (reads_since (by decide) (reads_u8 _)).bind <| (reads_since (by decide) (reads_i32 _)).bind <|
    (reads_since (by decide) (reads_i32 _)).bind <| (reads_u32 (by omega)).bind <| (reads_u32 (by omega)).bind <|
    check_bind ?_ ?_
  · simp only [intMax]
    omega
  · have hnorm : f.normalise = { f.normalise with
        isAsync := decide ((if f.isAsync then 1 else 0 : UInt8) ≠ 0) } := by rw [hasync]; rfl
    rw [hnorm]
    exact (reads_since (by decide) (reads_captures hcaptures hcount hl.localCount)).bind <|
      (reads_since (by decide) (reads_debugNames hnames hl.names)).bind <|
      (reads_chunk hl.code).bind <| (reads_constants hconstants hl.constantCount hl.constants).bind <|
      (reads_since (by decide) (reads_jitHintPlan f.jitHintPlan)).bind <|
      (reads_since (by decide) hprofile).bind_pure _

theorem reads_counted {β δ : Type} {m : Reader β} {g : δ → Option Bytes} {f : δ → β} {xs : List δ}
    (hcount : xs.length ≤ artifactMaxCount) (hg : xs.mapM g = some parts)
    (hm : ∀ x ∈ xs, ∀ p, g x = some p → Reads m p (f x)) :
    Reads (readCounted m) (writeU32 xs.length ++ parts.flatten) (xs.map f) := by
  simp only [artifactMaxCount] at hcount
  refine (reads_u32 (by omega)).bind (check_bind ?_ (reads_many hg hm))
  simp only [artifactMaxCount, intMax]
  omega

theorem reads_dependency {d : ArtifactDependency} (hw : writeDependency d = some p)
    (hfit : Fits d.path) : Reads readDependency p d.normalise := by
  obtain ⟨path, hpath, hw⟩ := bind_eq_some_iff.mp hw
  cases hw
  exact (reads_string hpath hfit).bind ((reads_i64 d.mtime).bind_pure _)

theorem reads_entry {t : InterfaceDispatchEntry} (hw : writeInterfaceDispatchEntry t = some p)
    (hfit : t.WithinLimits) : Reads readInterfaceDispatchEntry p t.normalise := by
  obtain ⟨a, ha, hw⟩ := bind_eq_some_iff.mp hw
  obtain ⟨b, hb, hw⟩ := bind_eq_some_iff.mp hw
  obtain ⟨c, hc, hw⟩ := bind_eq_some_iff.mp hw
  obtain ⟨d, hd, hw⟩ := bind_eq_some_iff.mp hw
  cases hw
  simp only [flatten_cons, flatten_nil, append_nil]
  exact (reads_string ha hfit.interfaceName).bind <| (reads_string hb hfit.recordName).bind <|
    (reads_string hc hfit.methodName).bind <| (reads_string hd hfit.functionName).bind_pure _

theorem reads_initFunction {init : Option ObjFunction} (hw : writeInitFunction init = some p)
    (hl : ∀ f, init = some f → f.WithinLimits) :
    Reads (readInitFunction 16 (if init.isSome then 1 else 0)) p (init.map ObjFunction.normalise) := by
  cases init with
  | none =>
    cases hw
    exact reads_pure none
  | some f => exact (reads_function hw (hl f rfl)).bind_pure some

theorem reads_artifact {a : BytecodeArtifact} (hw : writeArtifact a = some p) (hl : a.WithinLimits)
    (hmain : ¬(a.mainIndex.toInt < 0 ∨ a.functions.length ≤ a.mainIndex.toInt)) :
    Reads readArtifact p a.normalise := by
  obtain ⟨deps, hdeps, hw⟩ := bind_eq_some_iff.mp hw
  obtain ⟨entries, hentries, hw⟩ := bind_eq_some_iff.mp hw
  obtain ⟨functions, hfunctions, hw⟩ := bind_eq_some_iff.mp hw
  obtain ⟨init, hinit, hw⟩ := bind_eq_some_iff.mp hw
  cases hw
  have hcount := hl.functionCount
  simp only [artifactMaxCount] at hcount
  simp only [flatten_cons, flatten_nil, append_nil]
  refine (reads_readerRead rfl).bind <| check_bind rfl <| (reads_u32 (by decide)).bind <|
    check_bind (by decide) <| (reads_u32 a.typecheckFlags.toNat_lt).bind <|
    (reads_counted hl.dependencyCount hdeps fun d hd p hp => reads_dependency hp (hl.dependencies d hd)).bind <|
    (reads_since (by decide) (reads_counted hl.entryCount hentries
      fun t ht p hp => reads_entry hp (hl.entries t ht))).bind <|
    (reads_u32 (by omega)).bind <| check_bind ?_ <| (reads_i32 a.mainIndex).bind <| (reads_u8 _).bind <|
    check_bind hmain <|
    (reads_many hfunctions fun f hf p hp => reads_function hp (hl.functions f hf)).bind ?_
  · simp only [artifactMaxCount, intMax]
    omega
  · have hnorm : a.normalise = { a.normalise with
        typecheckFlags := UInt32.ofNat a.typecheckFlags.toNat } := by rw [UInt32.ofNat_toNat]; rfl
    rw [hnorm]
    exact (reads_initFunction hinit hl.initFunction).bind_pure _

end Tablo.Artifact
