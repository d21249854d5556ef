import Dellingr.Compiler.Verify
import Dellingr.CostMeter
import Dellingr.Vm.Table

/-!
# The payload of a save

What a save of a state consists of, as data: an arena for each kind of thing that
can be shared (strings, bytecode, closed upvalues and objects), values that name
arena entries by their ids, the global table and the environment tables whole,
and the counters. The ids are not trusted: a payload is verified before it is
materialized.

The accounting of cost is saved as the fields of `CostState.snapshotFields`. Only
accountings that some sequence of operations leads to exist at run time; a payload
carries one of these (`SavedCost`).
-/

namespace Dellingr

/-! ## Errors -/

/-- A length-prefixed collection of the save format. -/
inductive SaveCollection
  | strings | chunks | upvalues | objects | globals | environmentTables | formatPointerIds
  | environmentPins | tableArraySlots | tableEntries | closureUpvalues | instructions
  | numberLiterals | stringLiterals | tableTemplates | tableTemplateKeys | nestedChunks
  | upvalueDescriptors | lineInfo
  deriving DecidableEq, Repr

/-- A length-limited byte field of the save format. -/
inductive SnapshotField
  | engineVersion | luaString | functionId | environmentToken | chunkName | chunkSource
  deriving DecidableEq, Repr

/-- The maximum length of a field in bytes. -/
def SnapshotField.limit : SnapshotField → Nat
  | engineVersion => 128
  | luaString => 16 * 1024 * 1024
  | functionId => 4 * 1024
  | environmentToken => 256
  | chunkName => 4 * 1024
  | chunkSource => 256 * 1024

/-- Why a payload cannot be encoded. -/
inductive SaveError
  | tooLarge (collection : SaveCollection) (count limit : Nat)
  | fieldSizeExceeded (field : SnapshotField) (size limit : Nat)
  deriving DecidableEq, Repr

/-- What could not be decoded. -/
inductive DecodeReason
  | trailingBytes
  | lengthOverflow
  | truncatedPayload
  | invalidBool (byte : UInt8)
  | stringNotUtf8
  | inconsistentCostMeter
  | invalidCostingTag (tag : UInt8)
  | invalidValueTag (tag : UInt8)
  | invalidObjectTag (tag : UInt8)
  | invalidUpvalueTag (tag : UInt8)
  deriving DecidableEq, Repr

/-- Whether a key is judged as it is saved or as it is materialized. -/
inductive KeyForm
  | saved | materialized
  deriving DecidableEq, Repr

/-- A reference by id. -/
inductive SavedReference
  | closureChunk | closureUpvalue | upvalue | object | string | tableKeyString | bytecodeChunk
  | nestedChunk
  deriving DecidableEq, Repr

/-- What may occur only once. -/
inductive DuplicateEntry
  | tableKey | environmentToken | pin | formatPointerValue | formatPointerId
  deriving DecidableEq, Repr

/-- What was to be materialized. -/
inductive MaterializedPart
  | chunk | nestedChunk | sourceName
  deriving DecidableEq, Repr

/-- How a saved table is corrupt. -/
inductive TableCorruption
  | arraySlotsExceedEntries | arrayLengthExceedsLimit | arraySlotWrongKey
  | arraySpanEndpointsNotLive | hashEntryBelongsInArray | entryStoresNil | metatableNotTable
  | materializedWrongType
  deriving DecidableEq, Repr

/-- How the state of a saved iterator is corrupt. -/
inductive GmatchCorruption
  | closureUpvalueOutOfRange | multipleIterators | multipleStateObjects | stateTableMissing
  | stateNotTable | subjectInvalid | subjectStringOutOfRange | patternInvalid | positionInvalid
  | positionExceedsSubject | emptyLengthInvalid | emptyPositionInvalid
  | emptyPositionExceedsLength | lastMatchInvalid | compileFlagKeyMissing
  | compileFlagKeyOutOfRange | compileFlagKeyInvalid | compileFlagInvalid
  deriving DecidableEq, Repr

/-- How a payload is corrupt. -/
inductive CorruptionReason
  | idOutOfRange (reference : SavedReference)
  | duplicate (entry : DuplicateEntry) (form : KeyForm)
  | nilKey
  | nanKey
  | invalidFormatPointerValue
  | formatPointerIdNotBelowNext
  | nestedChunkCycle
  | notMaterialized (part : MaterializedPart)
  | table (reason : TableCorruption)
  | gmatch (reason : GmatchCorruption)
  | invalidPin
  deriving DecidableEq, Repr

/-- Where a payload is corrupt. -/
inductive SaveLocation
  | strings | objects | bytecode | upvalues | globals | pointerIds
  | tableEntries (object : Nat)
  | environmentTables
  | environmentTable (index : Nat)
  | object (index : Nat)
  | environment (token : String)
  deriving DecidableEq, Repr

/-- Why saved bytecode is rejected. -/
inductive InvalidBytecodeReason
  | validation (reason : ValidationReason)
  | nestedGraphTooLarge
  | nestedGraphCycle
  | closureUpvalueCountMismatch
  deriving DecidableEq, Repr

/-- Why a save cannot be loaded. -/
inductive SnapshotError
  | badMagic
  | unsupportedVersion (found expected : UInt16)
  | unsupportedCostModelVersion (found expected : UInt16)
  | unknownFunction (id : String)
  | unknownEnvObject (token : String)
  | decodeError (offset : Nat) (reason : DecodeReason)
  | fieldSizeExceeded (field : SnapshotField) (size limit : Nat)
  | stringSizeExceeded (size limit : Nat)
  | corruptArena (reason : CorruptionReason) (index : Nat) (location : SaveLocation)
  | invalidTable (location : SaveLocation) (failure : TableError)
  | invalidBytecode (chunk : Nat) (instruction : Option Nat) (reason : InvalidBytecodeReason)
  deriving DecidableEq, Repr

/-! ## The records -/

/-- A saved value: a number by its bits, a string or an object by its id, a function
    of the host and an environment object by their names. -/
inductive SavedVal
  | nil
  | bool (b : Bool)
  | num (bits : UInt64)
  | str (id : UInt32)
  | obj (id : UInt32)
  | fn (id : String)
  | envObj (token : String)
  deriving DecidableEq

/-- A saved object. -/
inductive SavedObject
  /-- A table: its logical array length, how many of its entries are array slots, its
      entries in the form of a snapshot, and its metatable. -/
  | table (arrayLen : UInt64) (arraySlots : UInt32) (entries : List (SavedVal × SavedVal))
    (metatable : Option SavedVal)
  | closure (chunk : UInt32) (upvalues : List UInt32)
  deriving DecidableEq

/-- Where a captured variable comes from. -/
inductive SavedUpvalueDesc
  | local (slot : UInt8)
  | upvalue (slot : UInt8)
  deriving DecidableEq, Repr

/-- A node of the bytecode arena: its instructions are words not yet checked, and its
    children are ids. -/
structure SavedBytecode where
  code : List UInt64
  numberLiterals : List UInt64
  stringLiterals : List (List UInt8)
  tableTemplates : List (List UInt16)
  globalCacheSlots : UInt8
  fieldCacheSlots : UInt8
  setFieldCacheSlots : UInt8
  tforCursorSlots : UInt8
  numParams : UInt8
  numLocals : UInt8
  maxStack : UInt16
  nested : List UInt32
  upvalues : List SavedUpvalueDesc
  isVararg : Bool
  name : Option String
  definedLine : UInt32
  source : Option (List UInt8)
  lineInfo : List UInt32
  deriving DecidableEq

/-- An environment table, saved whole. -/
structure SavedEnvRecord where
  token : String
  table : SavedObject
  pins : List SavedVal
  deriving DecidableEq

/-- An accounting the runtime can have. -/
abbrev SavedCost := { s : CostState // CostState.Reachable s.costing s }

/-- What a save consists of. -/
structure SavePayload where
  hasStandardEnvironment : Bool
  rngState : UInt64
  cost : SavedCost
  strings : List (List UInt8)
  bytecode : List SavedBytecode
  upvalues : List SavedVal
  objects : List SavedObject
  globals : SavedObject
  globalPins : List SavedVal
  globalsSealed : Bool
  envTables : List SavedEnvRecord
  nextFormatPointerId : UInt64
  formatPointerIds : List (SavedVal × UInt64)

end Dellingr
