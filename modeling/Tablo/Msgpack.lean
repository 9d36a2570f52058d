import Tablo.Reading

/-! `lib/msgpack.tblo`: encoding values and decoding bytes. Strings are the bytes they are made of,
and a map is the list of its entries in the order its keys are visited in. -/

namespace Tablo.Msgpack

open Reading

abbrev Bytes := List UInt8

mutual

inductive Value where
  | nil
  | bool (b : Bool)
  | int (n : Int)
  | string (chars : Bytes)
  | bytes (data : Bytes)
  | array (items : Items)
  | map (entries : Entries)
  | other (typeName : String)

inductive Items where
  | nil
  | cons (item : Value) (rest : Items)

inductive Entries where
  | nil
  | cons (key : Bytes) (value : Value) (rest : Entries)

end

def Items.length : Items → Nat
  | .nil => 0
  | .cons _ rest => rest.length + 1

def Entries.keys : Entries → List Bytes
  | .nil => []
  | .cons key _ rest => key :: rest.keys

inductive ErrorCode where
  | invalidArgument | limit | parse
  deriving DecidableEq, Repr

inductive Detail where
  | number (n : Int)
  | text (s : String)
  | key (chars : Bytes)
  | range (start count length : Int)
  | badByte (byte relativeOffset absoluteOffset : Nat)
  | trailing (consumed length : Nat)
  deriving DecidableEq, Repr

structure MsgpackError where
  code : ErrorCode
  message : String
  context : String
  offset : Int
  detail : Detail
  deriving DecidableEq, Repr

def maxDepth : Nat := 96

/-! Encoding. -/

def bytesFromInts (context : String) : Nat → List Int → Except MsgpackError Bytes
  | _, [] => .ok []
  | i, v :: values =>
    if v < 0 ∨ 255 < v then
      .error ⟨.invalidArgument, "byte value out of range", context ++ ".byteRange", i, .number v⟩
    else do
      let rest ← bytesFromInts context (i + 1) values
      return UInt8.ofNat v.toNat :: rest

def msgpackBytesFromInts (values : List Int) (context : String) : Except MsgpackError Bytes :=
  bytesFromInts context 0 values

def msgpackU16Bytes (value : Int) (context : String) : Except MsgpackError Bytes :=
  if value < 0 ∨ 65535 < value then
    .error ⟨.invalidArgument, "u16 value out of range", context ++ ".u16", -1, .number value⟩
  else msgpackBytesFromInts [value / 256, value % 256] (context ++ ".u16Bytes")

def msgpackU32Bytes (value : Int) (context : String) : Except MsgpackError Bytes :=
  if value < 0 ∨ 4294967295 < value then
    .error ⟨.invalidArgument, "u32 value out of range", context ++ ".u32", -1, .number value⟩
  else
    let rem1 := value % 16777216
    let rem2 := rem1 % 65536
    msgpackBytesFromInts [value / 16777216, rem1 / 65536, rem2 / 256, rem2 % 256] (context ++ ".u32Bytes")

def msgpackEncodeNil : Except MsgpackError Bytes := msgpackBytesFromInts [0xc0] "msgpack.encode.nil"

def msgpackEncodeBool (value : Bool) : Except MsgpackError Bytes :=
  if value then msgpackBytesFromInts [0xc3] "msgpack.encode.bool.true"
  else msgpackBytesFromInts [0xc2] "msgpack.encode.bool.false"

def markedU16 (marker value : Int) (context : String) : Except MsgpackError Bytes := do
  let number ← msgpackU16Bytes value context
  let header ← msgpackBytesFromInts [marker] (context ++ ".header")
  return header ++ number

def markedU32 (marker value : Int) (context : String) : Except MsgpackError Bytes := do
  let number ← msgpackU32Bytes value context
  let header ← msgpackBytesFromInts [marker] (context ++ ".header")
  return header ++ number

def msgpackEncodeInt (value : Int) : Except MsgpackError Bytes :=
  if 0 ≤ value ∧ value ≤ 127 then msgpackBytesFromInts [value] "msgpack.encode.int.fixpos"
  else if -32 ≤ value ∧ value < 0 then msgpackBytesFromInts [256 + value] "msgpack.encode.int.fixneg"
  else if 0 ≤ value then
    if value ≤ 255 then msgpackBytesFromInts [0xcc, value] "msgpack.encode.int.u8"
    else if value ≤ 65535 then markedU16 0xcd value "msgpack.encode.int.u16"
    else if value ≤ 4294967295 then markedU32 0xce value "msgpack.encode.int.u32"
    else .error ⟨.limit, "int value exceeds uint32 MessagePack subset", "msgpack.encode.int.max", -1, .number value⟩
  else if -128 ≤ value then msgpackBytesFromInts [0xd0, 256 + value] "msgpack.encode.int.i8"
  else if -32768 ≤ value then markedU16 0xd1 (65536 + value) "msgpack.encode.int.i16"
  else if -2147483648 ≤ value then markedU32 0xd2 (4294967296 + value) "msgpack.encode.int.i32"
  else .error ⟨.limit, "negative int value exceeds int32 MessagePack subset", "msgpack.encode.int.min",
    -1, .number value⟩

def sizedU16 (marker : Int) (size : Nat) (payload : Bytes) (context : String) :
    Except MsgpackError Bytes := do
  let number ← msgpackU16Bytes size (context ++ ".size")
  let header ← msgpackBytesFromInts [marker] (context ++ ".header")
  return header ++ number ++ payload

def headed (header : List Int) (payload : Bytes) (context : String) : Except MsgpackError Bytes := do
  let header ← msgpackBytesFromInts header (context ++ ".header")
  return header ++ payload

def msgpackEncodeString (payload : Bytes) : Except MsgpackError Bytes :=
  let size := payload.length
  if size ≤ 31 then headed [0xa0 + size] payload "msgpack.encode.string.fixstr"
  else if size ≤ 255 then headed [0xd9, size] payload "msgpack.encode.string.str8"
  else if size ≤ 65535 then sizedU16 0xda size payload "msgpack.encode.string.str16"
  else .error ⟨.limit, "string length exceeds str16 MessagePack subset", "msgpack.encode.string.limit",
    -1, .number size⟩

def msgpackEncodeBytes (value : Bytes) : Except MsgpackError Bytes :=
  let size := value.length
  if size ≤ 255 then headed [0xc4, size] value "msgpack.encode.bytes.bin8"
  else if size ≤ 65535 then sizedU16 0xc5 size value "msgpack.encode.bytes.bin16"
  else .error ⟨.limit, "bytes length exceeds bin16 MessagePack subset", "msgpack.encode.bytes.limit",
    -1, .number size⟩

def depthError (context : String) (offset : Int) (depth : Nat) : MsgpackError :=
  ⟨.limit, "maximum nesting depth exceeded", context, offset, .number depth⟩

mutual

def msgpackEncodeArrayInternal (items : Items) (depth : Nat) : Except MsgpackError Bytes :=
  if maxDepth < depth then .error (depthError "msgpack.encode.array.depth" (-1) depth)
  else
    let size := items.length
    if 65535 < size then
      .error ⟨.limit, "array length exceeds array16 MessagePack subset", "msgpack.encode.array.limit",
        -1, .number size⟩
    else do
      let payload ← encodeItems items depth
      if size ≤ 15 then headed [0x90 + size] payload "msgpack.encode.array.fixarray"
      else sizedU16 0xdc size payload "msgpack.encode.array.array16"

def encodeItems (items : Items) (depth : Nat) : Except MsgpackError Bytes :=
  match items with
  | .nil => .ok []
  | .cons item rest => do
    let encoded ← msgpackEncodeValue item (depth + 1)
    let chunks ← encodeItems rest depth
    return encoded ++ chunks

def msgpackEncodeMapStringAny (entries : Entries) (depth : Nat) : Except MsgpackError Bytes :=
  if maxDepth < depth then .error (depthError "msgpack.encode.map.depth" (-1) depth)
  else do
    let payload ← encodeEntries entries depth
    let count := entries.keys.length
    if 65535 < count then
      .error ⟨.limit, "map size exceeds map16 MessagePack subset", "msgpack.encode.map.limit", -1, .number count⟩
    else if count ≤ 15 then headed [0x80 + count] payload "msgpack.encode.map.fixmap"
    else sizedU16 0xde count payload "msgpack.encode.map.map16"

def encodeEntries (entries : Entries) (depth : Nat) : Except MsgpackError Bytes :=
  match entries with
  | .nil => .ok []
  | .cons key value rest => do
    let keyEncoded ← msgpackEncodeString key
    let valueEncoded ← msgpackEncodeValue value (depth + 1)
    let chunks ← encodeEntries rest depth
    return keyEncoded ++ valueEncoded ++ chunks

def msgpackEncodeValue (value : Value) (depth : Nat) : Except MsgpackError Bytes :=
  if maxDepth < depth then .error (depthError "msgpack.encode.value.depth" (-1) depth)
  else
    match value with
    | .nil => msgpackEncodeNil
    | .bool b => msgpackEncodeBool b
    | .int n => msgpackEncodeInt n
    | .string chars => msgpackEncodeString chars
    | .bytes data => msgpackEncodeBytes data
    | .array items => msgpackEncodeArrayInternal items (depth + 1)
    | .map entries => msgpackEncodeMapStringAny entries (depth + 1)
    | .other typeName => .error ⟨.invalidArgument, "unsupported value type for msgpack encode",
        "msgpack.encode.value.type", -1, .text typeName⟩

end

def msgpackEncode (value : Value) : Except MsgpackError Bytes := msgpackEncodeValue value 0

/-! Decoding. An index outside the bytes is a fault of the program, not an `Error`. -/

abbrev Decoded (α : Type) := Except (Failure MsgpackError) α

variable (data : Bytes) (offset : Nat) (context : String) (start count : Nat)
  (decodeItem : Nat → Decoded (Value × Nat))

def byteAt (i : Nat) : Decoded Nat :=
  match data[i]? with
  | some b => .ok b.toNat
  | none => .error .fault

def msgpackEnsureAvailable (start count : Int) (context : String) : Decoded Unit :=
  if start < 0 ∨ count < 0 then
    .error (.error ⟨.invalidArgument, "negative offset/count", context ++ ".range.negative", start, .number count⟩)
  else if data.length < start then
    .error (.error ⟨.parse, "offset beyond input length", context ++ ".range.start", start, .number data.length⟩)
  else if data.length < start + count then
    .error (.error ⟨.parse, "truncated MessagePack payload", context ++ ".range.end", start,
      .range start count data.length⟩)
  else .ok ()

def msgpackReadU8At : Decoded Nat := do
  msgpackEnsureAvailable data offset 1 context
  byteAt data offset

def msgpackReadU16At : Decoded Nat := do
  msgpackEnsureAvailable data offset 2 context
  let b0 ← byteAt data offset
  let b1 ← byteAt data (offset + 1)
  return b0 * 256 + b1

def msgpackReadU32At : Decoded Nat := do
  msgpackEnsureAvailable data offset 4 context
  let b0 ← byteAt data offset
  let b1 ← byteAt data (offset + 1)
  let b2 ← byteAt data (offset + 2)
  let b3 ← byteAt data (offset + 3)
  return b0 * 16777216 + b1 * 65536 + b2 * 256 + b3

variable (context : String)

def msgpackSliceBytes : Decoded Bytes := do
  msgpackEnsureAvailable data start count context
  return slice data start count

def asciiPrintable : Bytes :=
  (" !\"#$%&'()*+,-./0123456789:;<=>?@ABCDEFGHIJKLMNOPQRSTUVWXYZ[\\]^_`abcdefghijklmnopqrstuvwxyz" ++
    "\x7b|\x7d~").toUTF8.data.toList

def decodeAscii (start : Nat) (context : String) : Nat → Bytes → Decoded Bytes
  | _, [] => .ok []
  | offset, b :: rest => do
    let char ←
      if b = 9 then .ok [b]
      else if b = 10 then .ok [b]
      else if b = 13 then .ok [b]
      else if 32 ≤ b ∧ b ≤ 126 then .ok (slice asciiPrintable (b.toNat - 32) 1)
      else .error (.error ⟨.parse,
        "msgpack string contains non-ASCII byte; UTF-8 decode not yet supported", context ++ ".ascii",
        (start + offset : Nat), .badByte b.toNat offset (start + offset)⟩)
    let out ← decodeAscii start context (offset + 1) rest
    return char ++ out

def msgpackDecodeAsciiString : Decoded Bytes := do
  let s ← msgpackSliceBytes data start count (context ++ ".slice")
  decodeAscii start context 0 s

/-- `msgpackDecodeArray`, with the decoder of its items. -/
def decodeItems (decodeItem : Nat → Decoded (Value × Nat)) : Nat → Nat → Decoded (Items × Nat)
  | 0, idx => .ok (.nil, idx)
  | count + 1, idx => do
    let (item, idx) ← decodeItem idx
    let (items, idx) ← decodeItems decodeItem count idx
    return (.cons item items, idx)

def typeName : Value → String
  | .nil => "nil"
  | .bool _ => "bool"
  | .int _ => "int"
  | .string _ => "string"
  | .bytes _ => "bytes"
  | .array _ => "array"
  | .map _ => "map"
  | .other name => name

/-- `msgpackDecodeMap`, with the decoder of its keys and values; `seen` are the keys set so far. -/
def decodeEntries (decodeItem : Nat → Decoded (Value × Nat)) :
    Nat → List Bytes → Nat → Decoded (Entries × Nat)
  | 0, _, idx => .ok (.nil, idx)
  | count + 1, seen, idx => do
    let (keyValue, next) ← decodeItem idx
    match keyValue with
    | .string key =>
      let (value, after) ← decodeItem next
      if key ∈ seen then
        .error (.error ⟨.parse, "duplicate key in decoded map", "msgpack.decode.map.duplicate", next, .key key⟩)
      else do
        let (entries, idx) ← decodeEntries decodeItem count (key :: seen) after
        return (.cons key value entries, idx)
    | keyValue => .error (.error ⟨.parse, "map key must decode to string", "msgpack.decode.map.keyType",
        idx, .text (typeName keyValue)⟩)

def decodeString : Decoded (Value × Nat) := do
  let text ← msgpackDecodeAsciiString data start count context
  return (.string text, start + count)

def decodeBin : Decoded (Value × Nat) := do
  let payload ← msgpackSliceBytes data start count (context ++ ".payload")
  return (.bytes payload, start + count)

def decodeArray (start count : Nat) : Decoded (Value × Nat) := do
  let (items, idx) ← decodeItems decodeItem count start
  return (.array items, idx)

def decodeMap (start count : Nat) : Decoded (Value × Nat) := do
  let (entries, idx) ← decodeEntries decodeItem count [] start
  return (.map entries, idx)

def signed (half : Nat) (n : Nat) : Value := .int (if half ≤ n then (n : Int) - 2 * half else n)

/-- `msgpackDecodeAt` after the marker has been read. -/
def decodeMarked (data : Bytes) (offset marker : Nat) :
    Decoded (Value × Nat) :=
  if marker ≤ 0x7f then .ok (.int marker, offset + 1)
  else if 0xe0 ≤ marker then .ok (.int (marker - 256), offset + 1)
  else if 0xa0 ≤ marker ∧ marker ≤ 0xbf then
    decodeString data (offset + 1) (marker - 0xa0) "msgpack.decode.fixstr"
  else if 0x90 ≤ marker ∧ marker ≤ 0x9f then decodeArray decodeItem (offset + 1) (marker - 0x90)
  else if 0x80 ≤ marker ∧ marker ≤ 0x8f then decodeMap decodeItem (offset + 1) (marker - 0x80)
  else if marker = 0xc0 then .ok (.nil, offset + 1)
  else if marker = 0xc2 then .ok (.bool false, offset + 1)
  else if marker = 0xc3 then .ok (.bool true, offset + 1)
  else if marker = 0xcc then do
    let u8 ← msgpackReadU8At data (offset + 1) "msgpack.decode.u8"
    return (.int u8, offset + 2)
  else if marker = 0xcd then do
    let u16 ← msgpackReadU16At data (offset + 1) "msgpack.decode.u16"
    return (.int u16, offset + 3)
  else if marker = 0xce then do
    let u32 ← msgpackReadU32At data (offset + 1) "msgpack.decode.u32"
    return (.int u32, offset + 5)
  else if marker = 0xd0 then do
    let i8 ← msgpackReadU8At data (offset + 1) "msgpack.decode.i8"
    return (signed 128 i8, offset + 2)
  else if marker = 0xd1 then do
    let i16 ← msgpackReadU16At data (offset + 1) "msgpack.decode.i16"
    return (signed 32768 i16, offset + 3)
  else if marker = 0xd2 then do
    let i32 ← msgpackReadU32At data (offset + 1) "msgpack.decode.i32"
    return (signed 2147483648 i32, offset + 5)
  else if marker = 0xd9 then do
    let length ← msgpackReadU8At data (offset + 1) "msgpack.decode.str8.length"
    decodeString data (offset + 2) length "msgpack.decode.str8"
  else if marker = 0xda then do
    let length ← msgpackReadU16At data (offset + 1) "msgpack.decode.str16.length"
    decodeString data (offset + 3) length "msgpack.decode.str16"
  else if marker = 0xc4 then do
    let length ← msgpackReadU8At data (offset + 1) "msgpack.decode.bin8.length"
    decodeBin data (offset + 2) length "msgpack.decode.bin8"
  else if marker = 0xc5 then do
    let length ← msgpackReadU16At data (offset + 1) "msgpack.decode.bin16.length"
    decodeBin data (offset + 3) length "msgpack.decode.bin16"
  else if marker = 0xdc then do
    let length ← msgpackReadU16At data (offset + 1) "msgpack.decode.array16.length"
    decodeArray decodeItem (offset + 3) length
  else if marker = 0xde then do
    let length ← msgpackReadU16At data (offset + 1) "msgpack.decode.map16.length"
    decodeMap decodeItem (offset + 3) length
  else .error (.error ⟨.parse, "unsupported MessagePack marker in current subset",
    "msgpack.decode.marker.unsupported", offset, .number marker⟩)

/-- Arrays and maps, and then their items, are one level deeper each. -/
def msgpackDecodeAt (data : Bytes) (offset depth : Nat) : Decoded (Value × Nat) :=
  if maxDepth < depth then .error (.error (depthError "msgpack.decode.depth" offset depth))
  else do
    let marker ← msgpackReadU8At data offset "msgpack.decode.marker"
    decodeMarked (fun idx => msgpackDecodeAt data idx (depth + 1 + 1)) data offset marker
  termination_by maxDepth + 1 - depth

def msgpackDecode : Decoded Value := do
  let (value, consumed) ← msgpackDecodeAt data 0 0
  if consumed ≠ data.length then
    .error (.error ⟨.parse, "trailing bytes after MessagePack value", "msgpack.decode.trailing", consumed,
      .trailing consumed data.length⟩)
  else return value

end Tablo.Msgpack
