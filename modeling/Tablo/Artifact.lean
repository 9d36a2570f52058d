import Tablo.Reading
import Tablo.LittleEndian
import Mathlib.Data.List.TakeWhile

/-! Bytecode artifacts of `artifact.c`: the writer appends to a byte string,
the reader moves an offset through one. Counted arrays are lists. -/

namespace Tablo.Artifact

open Reading LittleEndian

abbrev Bytes := List UInt8

def artifactMagic : Bytes := [84, 66, 76, 67]

def artifactVersion : Nat := 16

def artifactMinSupportedVersion : Nat := 2

def artifactMaxCount : Nat := 100000000

def artifactMaxStringBytes : Nat := 268435456

def intMax : Nat := 2147483647

def uint32Max : Nat := 4294967295

structure CString where
  bytes : Bytes
  noNul : 0 ∉ bytes
  deriving DecidableEq

def CString.ofBuffer (raw : Bytes) : CString :=
  ⟨raw.takeWhile (· ≠ 0), fun h => by simpa using List.mem_takeWhile_imp h⟩

def CString.empty : CString := ⟨[], by simp⟩

/-- A constant, by its `type_index`: 0, 1, 2, 3 and 4. -/
inductive Constant where
  | int (v : Int64)
  | double (bits : UInt64)
  | string (s : Option CString)
  | bigint (s : Option CString)
  | bool (v : Int64)
  | unsupported (typeIndex : Int32)
  deriving DecidableEq

structure JitCompiledPlan where
  kind : Int32
  op : Int32
  flags : UInt8
  localSlot : UInt8
  localSlotB : UInt8
  intConst0 : Int64
  intConst1 : Int64
  deriving DecidableEq

structure JitFunctionSummary where
  kind : Int32
  op : Int32
  slot0 : UInt8
  slot1 : UInt8
  intConst0 : Int64
  intConst1 : Int64
  deriving DecidableEq

structure JitFunctionProfile where
  flags : UInt8
  supportMask : UInt8
  nativeFamilyMask : UInt8
  paramCount : Int32
  localCount : Int32
  captureCount : Int32
  summary : JitFunctionSummary
  deriving DecidableEq

/-- A function with each code byte beside its source line, and one debug name
for each local; an array of names that is absent has no name in it. -/
structure ObjFunction where
  name : Option CString
  sourceFile : Option CString
  isAsync : Bool
  deferHandlerIp : Int32
  deferReturnSlot : Int32
  paramCount : Nat
  debugLocalNames : List (Option CString)
  captureLocalSlots : List Nat
  chunk : List (UInt8 × Int32)
  constants : List Constant
  jitHintPlan : JitCompiledPlan
  jitProfile : JitFunctionProfile
  deriving DecidableEq

def ObjFunction.localCount (f : ObjFunction) : Nat := f.debugLocalNames.length

structure ArtifactDependency where
  path : Option CString
  mtime : Int64
  deriving DecidableEq

structure InterfaceDispatchEntry where
  interfaceName : Option CString
  recordName : Option CString
  methodName : Option CString
  functionName : Option CString
  deriving DecidableEq

structure BytecodeArtifact where
  initFunction : Option ObjFunction
  functions : List ObjFunction
  mainIndex : Int32
  typecheckFlags : UInt32
  dependencies : List ArtifactDependency
  interfaceDispatchEntries : List InterfaceDispatchEntry
  deriving DecidableEq

def writeU8 (v : UInt8) : Bytes := [v]

def writeU32 (n : Nat) : Bytes := leBytes 4 n

def writeI32 (v : Int32) : Bytes := writeU32 v.toUInt32.toNat

def writeU64 (v : UInt64) : Bytes := leBytes 8 v.toNat

def writeI64 (v : Int64) : Bytes := writeU64 v.toUInt64

def writeString (s : Option CString) : Option Bytes :=
  let bytes := (s.getD .empty).bytes
  if uint32Max < bytes.length then none else some (writeU32 bytes.length ++ bytes)

def writeConstant : Constant → Option Bytes
  | .int v => some (writeI32 0 ++ writeI64 v)
  | .double bits => some (writeI32 1 ++ writeU64 bits)
  | .string s => do
    let text ← writeString s
    some (writeI32 2 ++ text)
  | .bigint s => do
    let text ← writeString s
    some (writeI32 3 ++ text)
  | .bool v => some (writeI32 4 ++ writeI64 v)
  | .unsupported _ => none

def writeCaptureSlot (f : ObjFunction) (slot : Nat) : Option Bytes :=
  if slot < f.paramCount ∨ f.localCount ≤ slot then none else some (writeU32 slot)

def writeJitHintPlan (p : JitCompiledPlan) : Bytes :=
  List.flatten
    [writeI32 p.kind, writeI32 p.op, writeU8 p.flags, writeU8 p.localSlot, writeU8 p.localSlotB,
      writeI64 p.intConst0, writeI64 p.intConst1]

def writeJitSummary (s : JitFunctionSummary) : Bytes :=
  List.flatten
    [writeI32 s.kind, writeI32 s.op, writeU8 s.slot0, writeU8 s.slot1, writeI64 s.intConst0,
      writeI64 s.intConst1]

def writeJitProfile (p : JitFunctionProfile) : Bytes :=
  List.flatten
    [writeU8 p.flags, writeU8 p.supportMask, writeU8 p.nativeFamilyMask, writeI32 p.paramCount,
      writeI32 p.localCount, writeI32 p.captureCount, writeJitSummary p.summary]

def writeChunk (chunk : List (UInt8 × Int32)) : Bytes :=
  List.flatten
    [writeU32 chunk.length, chunk.map Prod.fst, writeU32 chunk.length,
      (chunk.map fun b => writeI32 b.2).flatten]

def artifactWriteFunction (f : ObjFunction) : Option Bytes := do
  let name ← writeString f.name
  let sourceFile ← writeString f.sourceFile
  guard (f.captureLocalSlots.length ≤ f.localCount)
  let captures ← f.captureLocalSlots.mapM (writeCaptureSlot f)
  let names ← f.debugLocalNames.mapM writeString
  let constants ← f.constants.mapM writeConstant
  some (List.flatten
    [name, sourceFile, writeU8 (if f.isAsync then 1 else 0), writeI32 f.deferHandlerIp,
      writeI32 f.deferReturnSlot, writeU32 f.paramCount, writeU32 f.localCount,
      writeU32 f.captureLocalSlots.length ++ captures.flatten, names.flatten, writeChunk f.chunk,
      writeU32 f.constants.length ++ constants.flatten, writeJitHintPlan f.jitHintPlan,
      writeJitProfile f.jitProfile])

def writeDependency (d : ArtifactDependency) : Option Bytes := do
  let path ← writeString d.path
  some (path ++ writeI64 d.mtime)

def writeInterfaceDispatchEntry (e : InterfaceDispatchEntry) : Option Bytes := do
  let interfaceName ← writeString e.interfaceName
  let recordName ← writeString e.recordName
  let methodName ← writeString e.methodName
  let functionName ← writeString e.functionName
  some (List.flatten [interfaceName, recordName, methodName, functionName])

def writeInitFunction : Option ObjFunction → Option Bytes
  | none => some []
  | some f => artifactWriteFunction f

def writeArtifact (a : BytecodeArtifact) : Option Bytes := do
  let dependencies ← a.dependencies.mapM writeDependency
  let entries ← a.interfaceDispatchEntries.mapM writeInterfaceDispatchEntry
  let functions ← a.functions.mapM artifactWriteFunction
  let init ← writeInitFunction a.initFunction
  some (List.flatten
    [artifactMagic, writeU32 artifactVersion, writeU32 a.typecheckFlags.toNat,
      writeU32 a.dependencies.length ++ dependencies.flatten,
      writeU32 a.interfaceDispatchEntries.length ++ entries.flatten, writeU32 a.functions.length,
      writeI32 a.mainIndex, writeU8 (if a.initFunction.isSome then 1 else 0), functions.flatten, init])

/-- The bytes of the file; a file that could not be finished is removed. -/
def artifactWriteFile (path : String) (a : BytecodeArtifact) : Except String Bytes :=
  if path = "" then .error "Output artifact path is empty"
  else if a.functions = [] then .error "Artifact requires at least one function"
  else if a.mainIndex.toInt < 0 ∨ a.functions.length ≤ a.mainIndex.toInt then
    .error "Main function index is out of range"
  else
    match writeArtifact a with
    | none => .error ("Failed while writing artifact '" ++ path ++ "'")
    | some bytes => .ok bytes

abbrev Reader := Cursor UInt8 String

open Cursor

def artifactReaderRead (n : Nat) (e : String) : Reader Bytes := fun data i =>
  if data.length < n ∨ data.length - n < i then .error (.error e) else copy n data i

variable (e : String) (version : Nat)

def readU8 : Reader UInt8 := do
  let b ← artifactReaderRead 1 e
  pure (b.headD 0)

def readU32 : Reader Nat := do
  let b ← artifactReaderRead 4 e
  pure (leValue b)

def readI32 : Reader Int32 := do
  let v ← readU32 e
  pure (UInt32.ofNat v).toInt32

def readU64 : Reader UInt64 := do
  let b ← artifactReaderRead 8 e
  pure (UInt64.ofNat (leValue b))

def readI64 : Reader Int64 := do
  let v ← readU64 e
  pure v.toInt64

def readBuffer (n : Nat) (e : String) : Reader Bytes :=
  if 0 < n then artifactReaderRead n e else pure []

def readString : Reader CString := do
  let len ← readU32 e
  check (len ≤ artifactMaxStringBytes) e
  let s ← readBuffer len e
  pure (.ofBuffer s)

def named (s : CString) : Option CString := if s.bytes = [] then none else some s

def since {β : Type} (version first : Nat) (m : Reader β) (default : β) : Reader β :=
  if first ≤ version then m else pure default

def readCaptureSlot (paramCount localCount : Nat) : Reader Nat := do
  let slot ← readU32 "Failed to read closure capture slot"
  check (¬(intMax < slot ∨ slot < paramCount ∨ localCount ≤ slot)) "Closure capture slot out of range"
  pure slot

def readCaptures (paramCount localCount : Nat) : Reader (List Nat) := do
  let count ← readU32 "Failed to read closure capture count"
  check (¬(intMax < count ∨ localCount < count)) "Closure capture count out of range"
  many (readCaptureSlot paramCount localCount) count

def readDebugName : Reader (Option CString) := do
  let s ← readString "Failed to read debug local name"
  pure (named s)

def readChunk : Reader (List (UInt8 × Int32)) := do
  let codeCount ← readU32 "Failed to read function bytecode length"
  check (¬(artifactMaxCount < codeCount ∨ intMax < codeCount)) "Function bytecode length is too large"
  let code ← readBuffer codeCount "Failed to read function bytecode"
  let debugCount ← readU32 "Failed to read function debug length"
  check (debugCount = codeCount) "Function debug metadata does not match bytecode length"
  let lines ← many (readI32 "Failed to read debug line table") codeCount
  pure (code.zip lines)

def readConstant : Reader Constant := do
  let typeIndex ← readI32 "Failed to read constant type"
  if typeIndex = 0 then do
    let v ← readI64 "Failed to read integer constant"
    pure (.int v)
  else if typeIndex = 4 then do
    let v ← readI64 "Failed to read integer constant"
    pure (.bool v)
  else if typeIndex = 1 then do
    let bits ← readU64 "Failed to read double constant"
    pure (.double bits)
  else if typeIndex = 2 then do
    let s ← readString "Failed to read string constant"
    pure (.string (some s))
  else if typeIndex = 3 then do
    let s ← readString "Failed to read string constant"
    pure (.bigint (some s))
  else fail ("Unsupported constant type " ++ toString typeIndex.toInt ++ " in artifact")

def readConstants : Reader (List Constant) := do
  let count ← readU32 "Failed to read constant pool length"
  check (¬(artifactMaxCount < count ∨ intMax < count)) "Constant pool length is too large"
  many readConstant count

def jitHintError : String := "Failed to read function JIT hint metadata"

def readJitHintPlan : Reader JitCompiledPlan := do
  let kind ← readI32 jitHintError
  let op ← since version 13 (readI32 jitHintError) 0
  let flags ← since version 13 (readU8 jitHintError) 0
  let localSlot ← readU8 jitHintError
  let localSlotB ← readU8 jitHintError
  let intConst0 ← readI64 jitHintError
  let intConst1 ← readI64 jitHintError
  pure ⟨kind, op, flags, localSlot, localSlotB, intConst0, intConst1⟩

def noJitHintPlan : JitCompiledPlan := ⟨0, 0, 0, 0, 0, 0, 0⟩

def jitSummaryError : String := "Failed to read function JIT summary metadata"

def readJitSummary : Reader JitFunctionSummary := do
  let kind ← readI32 jitSummaryError
  let op ← readI32 jitSummaryError
  let slot0 ← readU8 jitSummaryError
  let slot1 ← readU8 jitSummaryError
  let intConst0 ← readI64 jitSummaryError
  let intConst1 ← readI64 jitSummaryError
  pure ⟨kind, op, slot0, slot1, intConst0, intConst1⟩

/-- The family that older artifacts leave to the kind of the summary:
arithmetic, compare or selector. -/
def nativeFamilyOfKind (kind : Int32) : UInt8 :=
  if kind = 1 ∨ kind = 2 ∨ kind = 3 ∨ kind = 4 then 1
  else if kind = 5 ∨ kind = 9 ∨ kind = 6 then 2
  else if kind = 7 ∨ kind = 8 ∨ kind = 10 ∨ kind = 11 then 4
  else 0

def jitProfileError : String := "Failed to read function JIT profile metadata"

def readJitProfile (isAsync : Bool) (paramCount localCount captureCount : Nat)
    (hint : JitCompiledPlan) : Reader JitFunctionProfile := do
  let flags ← since version 14 (readU8 jitProfileError)
    ((if isAsync then 1 else 0) ||| (if captureCount ≠ 0 then 2 else 0))
  let mask ← since version 15 (readU8 jitProfileError) 0
  let family ← since version 16 (readU8 jitProfileError) 0
  let params ← since version 14 (readI32 jitProfileError) (Int32.ofNat paramCount)
  let locals ← since version 14 (readI32 jitProfileError) (Int32.ofNat localCount)
  let captures ← since version 14 (readI32 jitProfileError) (Int32.ofNat captureCount)
  let summary ← readJitSummary
  let oldMask : UInt8 := (if isAsync then 0 else 1) |||
    (if summary.kind ≠ 0 ∧ hint.kind ≠ 0 ∧ captureCount = 0 ∧ ¬ isAsync then 2 else 0)
  pure
    { flags
      supportMask := if 15 ≤ version then mask else oldMask
      nativeFamilyMask := if 16 ≤ version then family else nativeFamilyOfKind summary.kind
      paramCount := params, localCount := locals, captureCount := captures, summary }

def noJitProfile : JitFunctionProfile := ⟨0, 0, 0, 0, 0, 0, ⟨0, 0, 0, 0, 0, 0⟩⟩

def artifactReadFunction : Reader ObjFunction := do
  let name ← readString "Failed to read function name"
  let sourceFile ← since version 3 (readString "Failed to read function source file") .empty
  let isAsync ← since version 6 (readU8 "Failed to read async function flag") 0
  let deferHandlerIp ← since version 7 (readI32 "Failed to read defer metadata") (-1)
  let deferReturnSlot ← since version 7 (readI32 "Failed to read defer metadata") (-1)
  let paramCount ← readU32 "Failed to read function signature counts"
  let localCount ← readU32 "Failed to read function signature counts"
  check (¬(intMax < paramCount ∨ intMax < localCount)) "Function parameter/local count out of range"
  let captures ← since version 4 (readCaptures paramCount localCount) []
  let names ← since version 8 (many readDebugName localCount) (List.replicate localCount none)
  let chunk ← readChunk
  let constants ← readConstants
  let hint ← since version 9 (readJitHintPlan version) noJitHintPlan
  let profile ← since version 10
    (readJitProfile version (isAsync ≠ 0) paramCount localCount captures.length hint) noJitProfile
  pure
    { name := named name, sourceFile := named sourceFile, isAsync := isAsync ≠ 0
      deferHandlerIp, deferReturnSlot, paramCount, debugLocalNames := names
      captureLocalSlots := captures, chunk, constants, jitHintPlan := hint, jitProfile := profile }

def readDependency : Reader ArtifactDependency := do
  let path ← readString ""
  let mtime ← readI64 ""
  pure ⟨some path, mtime⟩

def readInterfaceDispatchEntry : Reader InterfaceDispatchEntry := do
  let interfaceName ← readString ""
  let recordName ← readString ""
  let methodName ← readString ""
  let functionName ← readString ""
  pure ⟨some interfaceName, some recordName, some methodName, some functionName⟩

def readCounted {β : Type} (m : Reader β) : Reader (List β) := do
  let count ← readU32 ""
  check (¬(artifactMaxCount < count ∨ intMax < count)) ""
  many m count

def readInitFunction (hasInit : UInt8) : Reader (Option ObjFunction) :=
  if hasInit ≠ 0 then do
    let f ← artifactReadFunction version
    pure (some f)
  else pure none

def readArtifact : Reader BytecodeArtifact := do
  let magic ← artifactReaderRead 4 ""
  check (magic = artifactMagic) "File is not a TabloLang bytecode artifact"
  let version ← readU32 ""
  check (¬(version < artifactMinSupportedVersion ∨ artifactVersion < version))
    ("Unsupported artifact version " ++ toString version)
  let typecheckFlags ← readU32 ""
  let dependencies ← readCounted readDependency
  let entries ← since version 5 (readCounted readInterfaceDispatchEntry) []
  let functionCount ← readU32 ""
  check (¬(functionCount = 0 ∨ artifactMaxCount < functionCount ∨ intMax < functionCount)) ""
  let mainIndex ← readI32 ""
  let hasInit ← readU8 ""
  check (¬(mainIndex.toInt < 0 ∨ functionCount ≤ mainIndex.toInt)) "Artifact main function index is invalid"
  let functions ← many (artifactReadFunction version) functionCount
  let init ← readInitFunction version hasInit
  pure
    { initFunction := init, functions, mainIndex, typecheckFlags := UInt32.ofNat typecheckFlags
      dependencies, interfaceDispatchEntries := entries }

def artifactLoadBytes (data : Bytes) : Except (Failure String) BytecodeArtifact :=
  if data = [] then .error (.error "Artifact data is empty")
  else
    match readArtifact data 0 with
    | .ok (a, offset) =>
      if offset ≠ data.length then .error (.error "Artifact contains trailing data") else .ok a
    | .error (.error "") =>
      .error (.error "Failed to read artifact bytes (possibly truncated or corrupted)")
    | .error e => .error e

end Tablo.Artifact
