import Dellingr.Lib.Codec
import Dellingr.Vm.SaveState.Payload

/-!
# The save format

How a payload is written, and read back. The encoder appends to its output and fails
only on a collection longer than its length prefix can hold or a field over its
limit. The decoder moves through a byte string; every error says where it was.

A save is an envelope around the payload: a magic number, the versions of the
format and of the cost model, which must match, and the version of the engine,
which is for diagnostics only.
-/

namespace Dellingr

open Codec

/-- Actions of the encoder. -/
abbrev EncodeM := Codec.Writer SaveError

/-- Actions of the decoder. -/
abbrev DecodeM := Codec.Reader SnapshotError

/-- The bytes of a string. -/
def asBytes (s : String) : List UInt8 := s.toByteArray.data.toList

/-- The string of some bytes, if they are UTF-8. -/
def fromUtf8 (bytes : List UInt8) : Option String := String.fromUTF8? ⟨bytes.toArray⟩

/-! ## The encoder -/

namespace Encoder

def writeU8 (n : UInt8) : EncodeM Unit := put [n]

def writeBool (b : Bool) : EncodeM Unit := writeU8 (if b then 1 else 0)

def writeU16 (n : UInt16) : EncodeM Unit := put (leBytes 2 n.toNat)

def writeU32 (n : UInt32) : EncodeM Unit := put (leBytes 4 n.toNat)

def writeU64 (n : UInt64) : EncodeM Unit := put (leBytes 8 n.toNat)

def writeI64 (n : Int64) : EncodeM Unit := put (leBytes 8 n.toUInt64.toNat)

def writeLen (len : Nat) (collection : SaveCollection) : EncodeM Unit :=
  if len < 2 ^ 32 then writeU32 (.ofNat len)
  else refuse (.tooLarge collection len (2 ^ 32 - 1))

def writeBytes (bytes : List UInt8) (field : SnapshotField) : EncodeM Unit :=
  if bytes.length < 2 ^ 32 ∧ bytes.length ≤ field.limit then do
    writeU32 (.ofNat bytes.length)
    put bytes
  else refuse (.fieldSizeExceeded field bytes.length field.limit)

def writeString (s : String) (field : SnapshotField) : EncodeM Unit := writeBytes (asBytes s) field

def writeOptionBytes (s : Option (List UInt8)) (field : SnapshotField) : EncodeM Unit :=
  match s with
  | some s => do
    writeBool true
    writeBytes s field
  | none => writeBool false

def writeOptionString (s : Option String) (field : SnapshotField) : EncodeM Unit :=
  writeOptionBytes (s.map asBytes) field

def writeVec {α : Type} (collection : SaveCollection) (writeItem : α → EncodeM Unit)
    (items : List α) : EncodeM Unit := do
  writeLen items.length collection
  putItems writeItem items

end Encoder

/-! ## The decoder -/

namespace Decoder

def readExact (len : Nat) : DecodeM (List UInt8) := do
  let start ← position
  let bytes ← read
  if 2 ^ 64 ≤ start + len then rejectWith (.decodeError start .lengthOverflow)
  else if start + len ≤ bytes.length then do
    set (start + len)
    pure ((bytes.drop start).take len)
  else rejectWith (.decodeError start .truncatedPayload)

/-- All bytes must have been read. -/
def finish : DecodeM Unit := do
  let pos ← position
  let bytes ← read
  if pos = bytes.length then pure () else rejectWith (.decodeError pos .trailingBytes)

def readU8 : DecodeM UInt8 := do
  let bytes ← readExact 1
  pure (bytes.headD 0)

def readBool : DecodeM Bool := do
  let byte ← readU8
  if byte = 0 then pure false
  else if byte = 1 then pure true
  else do
    let pos ← position
    rejectWith (.decodeError (pos - 1) (.invalidBool byte))

def readU16 : DecodeM UInt16 := do
  let bytes ← readExact 2
  pure (.ofNat (ofLeBytes bytes))

def readU32 : DecodeM UInt32 := do
  let bytes ← readExact 4
  pure (.ofNat (ofLeBytes bytes))

def readU64 : DecodeM UInt64 := do
  let bytes ← readExact 8
  pure (.ofNat (ofLeBytes bytes))

def readI64 : DecodeM Int64 := do
  let bytes ← readExact 8
  pure (UInt64.ofNat (ofLeBytes bytes)).toInt64

def readLen : DecodeM Nat := do
  let len ← readU32
  pure len.toNat

/-- Read a byte field within its limit. -/
def readBounded (field : SnapshotField) : DecodeM (List UInt8) := do
  let len ← readLen
  if field.limit < len then
    rejectWith (if field = .luaString then .stringSizeExceeded len field.limit
      else .fieldSizeExceeded field len field.limit)
  else readExact len

def readBytes (field : SnapshotField) : DecodeM (List UInt8) := readBounded field

def readLuaStringBytes : DecodeM (List UInt8) := readBounded .luaString

def readString (field : SnapshotField) : DecodeM String := do
  let start ← position
  let bytes ← readBounded field
  orReject (fromUtf8 bytes) (.decodeError start .stringNotUtf8)

def readOptionString (field : SnapshotField) : DecodeM (Option String) := do
  let present ← readBool
  if present then do
    let s ← readString field
    pure (some s)
  else pure none

def readOptionBytes (field : SnapshotField) : DecodeM (Option (List UInt8)) := do
  let present ← readBool
  if present then do
    let s ← readBytes field
    pure (some s)
  else pure none

def readVec {α : Type} (readItem : DecodeM α) : DecodeM (List α) := do
  let len ← readLen
  getItems readItem len

end Decoder

open Encoder Decoder

/-! ## Values and objects -/

namespace SavedVal

def encode : SavedVal → EncodeM Unit
  | nil => writeU8 0
  | bool false => writeU8 1
  | bool true => writeU8 2
  | num bits => do
    writeU8 3
    writeU64 bits
  | str id => do
    writeU8 4
    writeU32 id
  | obj id => do
    writeU8 5
    writeU32 id
  | fn id => do
    writeU8 6
    writeString id .functionId
  | envObj token => do
    writeU8 7
    writeString token .environmentToken

/-- Read what follows the tag of a value. -/
def decodeTagged (tagOffset : Nat) (tag : UInt8) : DecodeM SavedVal :=
  match tag.toNat with
  | 0 => pure nil
  | 1 => pure (bool false)
  | 2 => pure (bool true)
  | 3 => do
    let bits ← readU64
    pure (num bits)
  | 4 => do
    let id ← readU32
    pure (str id)
  | 5 => do
    let id ← readU32
    pure (obj id)
  | 6 => do
    let id ← readString .functionId
    pure (fn id)
  | 7 => do
    let token ← readString .environmentToken
    pure (envObj token)
  | _ => rejectWith (.decodeError tagOffset (.invalidValueTag tag))

def decode : DecodeM SavedVal := do
  let tagOffset ← position
  let tag ← readU8
  decodeTagged tagOffset tag

end SavedVal

/-- Write an optional value. -/
def encodeMetatable : Option SavedVal → EncodeM Unit
  | some mt => do
    writeBool true
    mt.encode
  | none => writeBool false

/-- Read an optional value. -/
def decodeMetatable : DecodeM (Option SavedVal) := do
  let present ← readBool
  if present then do
    let mt ← SavedVal.decode
    pure (some mt)
  else pure none

/-- Write an entry of a table. -/
def encodeEntry (e : SavedVal × SavedVal) : EncodeM Unit := do
  e.1.encode
  e.2.encode

/-- Read an entry of a table. -/
def decodeEntry : DecodeM (SavedVal × SavedVal) := do
  let key ← SavedVal.decode
  let value ← SavedVal.decode
  pure (key, value)

namespace SavedObject

def encode : SavedObject → EncodeM Unit
  | table arrayLen arraySlots entries metatable => do
    writeU8 0
    writeU64 arrayLen
    writeU32 arraySlots
    writeVec .tableEntries encodeEntry entries
    encodeMetatable metatable
  | closure chunk upvalues => do
    writeU8 1
    writeU32 chunk
    writeVec .closureUpvalues writeU32 upvalues

/-- Read what follows the tag of an object. -/
def decodeTagged (tagOffset : Nat) (tag : UInt8) : DecodeM SavedObject :=
  match tag.toNat with
  | 0 => do
    let arrayLen ← readU64
    let arraySlots ← readU32
    let entries ← readVec decodeEntry
    let metatable ← decodeMetatable
    pure (table arrayLen arraySlots entries metatable)
  | 1 => do
    let chunk ← readU32
    let upvalues ← readVec readU32
    pure (closure chunk upvalues)
  | _ => rejectWith (.decodeError tagOffset (.invalidObjectTag tag))

def decode : DecodeM SavedObject := do
  let tagOffset ← position
  let tag ← readU8
  decodeTagged tagOffset tag

end SavedObject

/-! ## Bytecode -/

namespace SavedUpvalueDesc

def encode : SavedUpvalueDesc → EncodeM Unit
  | «local» idx => do
    writeU8 0
    writeU8 idx
  | upvalue idx => do
    writeU8 1
    writeU8 idx

/-- Read what follows the tag of a descriptor. -/
def decodeTagged (tagOffset : Nat) (tag : UInt8) : DecodeM SavedUpvalueDesc :=
  match tag.toNat with
  | 0 => do
    let idx ← readU8
    pure («local» idx)
  | 1 => do
    let idx ← readU8
    pure (upvalue idx)
  | _ => rejectWith (.decodeError tagOffset (.invalidUpvalueTag tag))

def decode : DecodeM SavedUpvalueDesc := do
  let tagOffset ← position
  let tag ← readU8
  decodeTagged tagOffset tag

end SavedUpvalueDesc

namespace SavedBytecode

def encode (b : SavedBytecode) : EncodeM Unit := do
  writeVec .instructions writeU64 b.code
  writeVec .numberLiterals writeU64 b.numberLiterals
  writeVec .stringLiterals (writeBytes · .luaString) b.stringLiterals
  writeVec .tableTemplates (writeVec .tableTemplateKeys writeU16) b.tableTemplates
  writeU8 b.globalCacheSlots
  writeU8 b.fieldCacheSlots
  writeU8 b.setFieldCacheSlots
  writeU8 b.tforCursorSlots
  writeU8 b.numParams
  writeU8 b.numLocals
  writeU16 b.maxStack
  writeVec .nestedChunks writeU32 b.nested
  writeVec .upvalueDescriptors SavedUpvalueDesc.encode b.upvalues
  writeBool b.isVararg
  writeOptionString b.name .chunkName
  writeU32 b.definedLine
  writeOptionBytes b.source .chunkSource
  writeVec .lineInfo writeU32 b.lineInfo

def decode : DecodeM SavedBytecode := do
  let code ← readVec readU64
  let numberLiterals ← readVec readU64
  let stringLiterals ← readVec readLuaStringBytes
  let tableTemplates ← readVec (readVec readU16)
  let globalCacheSlots ← readU8
  let fieldCacheSlots ← readU8
  let setFieldCacheSlots ← readU8
  let tforCursorSlots ← readU8
  let numParams ← readU8
  let numLocals ← readU8
  let maxStack ← readU16
  let nested ← readVec readU32
  let upvalues ← readVec SavedUpvalueDesc.decode
  let isVararg ← readBool
  let name ← readOptionString .chunkName
  let definedLine ← readU32
  let source ← readOptionBytes .chunkSource
  let lineInfo ← readVec readU32
  pure ⟨code, numberLiterals, stringLiterals, tableTemplates, globalCacheSlots, fieldCacheSlots,
    setFieldCacheSlots, tforCursorSlots, numParams, numLocals, maxStack, nested, upvalues, isVararg,
    name, definedLine, source, lineInfo⟩

end SavedBytecode

namespace SavedEnvRecord

def encode (r : SavedEnvRecord) : EncodeM Unit := do
  writeString r.token .environmentToken
  r.table.encode
  writeVec .environmentPins SavedVal.encode r.pins

def decode : DecodeM SavedEnvRecord := do
  let token ← readString .environmentToken
  let table ← SavedObject.decode
  let pins ← readVec SavedVal.decode
  pure ⟨token, table, pins⟩

end SavedEnvRecord

/-! ## Cost -/

/-- Write how a state accounts for cost: for a metered one, a weight for every charge,
    in the order of the charges. -/
def writeCosting : Costing → EncodeM Unit
  | .metered model => do
    writeU8 0
    putItems writeU32 model.weights.toList
  | .off => writeU8 1

/-- Read so many weights. -/
def readWeights : (n : Nat) → DecodeM (Vector UInt32 n)
  | 0 => pure #v[]
  | n + 1 => do
    let weights ← readWeights n
    let weight ← readU32
    pure (weights.push weight)

/-- Read what follows the tag of a costing. -/
def readCostingTagged (offset : Nat) (tag : UInt8) : DecodeM Costing :=
  match tag.toNat with
  | 0 => do
    let weights ← readWeights Charge.COUNT
    pure (.metered ⟨weights⟩)
  | 1 => pure .off
  | _ => rejectWith (.decodeError offset (.invalidCostingTag tag))

def readCosting : DecodeM Costing := do
  let offset ← position
  let tag ← readU8
  readCostingTagged offset tag

def writeCost (cost : SavedCost) : EncodeM Unit := do
  writeCosting cost.1.costing
  writeI64 cost.1.remaining
  writeI64 cost.1.limit
  writeBool cost.1.budget.isSome
  writeU64 cost.1.used

/-- The accounting of the fields of a snapshot, if the runtime can have it. -/
def SavedCost.fromSnapshot (costing : Costing) (remaining limit : Int64) (configured : Bool)
    (used : UInt64) : Option SavedCost :=
  match h : CostState.fromSnapshot costing remaining limit configured used with
  | some s => some ⟨s, by
      have hs := (CostState.consistent_of_fromSnapshot h).1
      exact hs.same.symm ▸ hs.reachable⟩
  | none => none

def readCost : DecodeM SavedCost := do
  let costing ← readCosting
  let offset ← position
  let remaining ← readI64
  let limit ← readI64
  let configured ← readBool
  let used ← readU64
  orReject (SavedCost.fromSnapshot costing remaining limit configured used)
    (.decodeError offset .inconsistentCostMeter)

/-! ## The payload -/

/-- Write the identity a value was rendered with. -/
def encodePointerId (e : SavedVal × UInt64) : EncodeM Unit := do
  e.1.encode
  writeU64 e.2

/-- Read the identity a value was rendered with. -/
def decodePointerId : DecodeM (SavedVal × UInt64) := do
  let value ← SavedVal.decode
  let id ← readU64
  pure (value, id)

namespace SavePayload

def encode (p : SavePayload) : EncodeM Unit := do
  writeU8 (if p.hasStandardEnvironment then 1 else 0)
  writeU64 p.rngState
  writeCost p.cost
  writeVec .strings (writeBytes · .luaString) p.strings
  writeVec .chunks SavedBytecode.encode p.bytecode
  writeVec .upvalues SavedVal.encode p.upvalues
  writeVec .objects SavedObject.encode p.objects
  p.globals.encode
  writeVec .globals SavedVal.encode p.globalPins
  writeBool p.globalsSealed
  writeVec .environmentTables SavedEnvRecord.encode p.envTables
  writeU64 p.nextFormatPointerId
  writeVec .formatPointerIds encodePointerId p.formatPointerIds

def decode : DecodeM SavePayload := do
  let hasStandardEnvironment ← readBool
  let rngState ← readU64
  let cost ← readCost
  let strings ← readVec readLuaStringBytes
  let bytecode ← readVec SavedBytecode.decode
  let upvalues ← readVec SavedVal.decode
  let objects ← readVec SavedObject.decode
  let globals ← SavedObject.decode
  let globalPins ← readVec SavedVal.decode
  let globalsSealed ← readBool
  let envTables ← readVec SavedEnvRecord.decode
  let nextFormatPointerId ← readU64
  let formatPointerIds ← readVec decodePointerId
  pure ⟨hasStandardEnvironment, rngState, cost, strings, bytecode, upvalues, objects, globals,
    globalPins, globalsSealed, envTables, nextFormatPointerId, formatPointerIds⟩

end SavePayload

/-! ## The envelope -/

/-- The magic number, `DLGS`. -/
def MAGIC : List UInt8 := [0x44, 0x4C, 0x47, 0x53]

def FORMAT_VERSION : UInt16 := 14

def COST_MODEL_VERSION : UInt16 := 8

def writeMagicAndVersions : EncodeM Unit := do
  put MAGIC
  writeU16 FORMAT_VERSION
  writeU16 COST_MODEL_VERSION

def readMagicAndVersions : DecodeM Unit := do
  let magic ← readExact 4
  if magic ≠ MAGIC then rejectWith .badMagic
  else do
    let found ← readU16
    if found ≠ FORMAT_VERSION then rejectWith (.unsupportedVersion found FORMAT_VERSION)
    else do
      let found ← readU16
      if found ≠ COST_MODEL_VERSION then
        rejectWith (.unsupportedCostModelVersion found COST_MODEL_VERSION)
      else pure ()

/-- Write a save, by an engine of the given version. -/
def encodeSave (engineVersion : String) (payload : SavePayload) : EncodeM Unit := do
  writeMagicAndVersions
  writeString engineVersion .engineVersion
  payload.encode

/-- Read a save: the version of the engine is discarded, and no byte may be left. -/
def decodeSave : DecodeM SavePayload := do
  readMagicAndVersions
  let _ ← readBytes .engineVersion
  let payload ← SavePayload.decode
  finish
  pure payload

/-- Read a payload, and no byte may be left. -/
def decodePayload : DecodeM SavePayload := do
  let payload ← SavePayload.decode
  finish
  pure payload

/-- The bytes an encoder appends. -/
def encodedBytes (w : EncodeM Unit) : Except SaveError (List UInt8) := w.run.map Prod.snd

/-- What a decoder gives for a byte string, from its start on. -/
def decodedBytes {α : Type} (r : DecodeM α) (bytes : List UInt8) : Except SnapshotError α :=
  ((r.run bytes).run 0).map Prod.fst

end Dellingr
