import Dellingr.Compiler.Verify
import Dellingr.Vm.SaveState.Payload
import Dellingr.Vm.StringPool

/-!
# The verification of a payload

A decoded payload is checked before anything is built from it: its bytecode, the
graph of nested functions, closures, the references and shapes of its tables, the
states of saved iterators, and the recorded pointer ids (`verifyPayload`). Nothing
is changed: a payload is accepted as it is, or rejected with the first fault found.

The verifier of bytecode reads saved bytecode through a view (`SavedBytecode.view`).
Of the nested functions it reads only how many there are.
-/

namespace Dellingr

/-! ## The state of an iterator

The ids of the iterators of `string.gmatch` and the keys of their state tables. -/

namespace GmatchSchema

def ITERATOR_ID : String := "string.gmatch.iter"

def EMPTY_ITERATOR_ID : String := "string.gmatch.empty_iter"

/-- The bytes of the name of a field. -/
def fieldBytes (name : String) : List UInt8 := name.toList.map Char.toUInt8

def SUBJECT_FIELD : List UInt8 := fieldBytes "s"

def PATTERN_FIELD : List UInt8 := fieldBytes "p"

/-- The position, which both iterators keep under the same key. -/
def POSITION_FIELD : List UInt8 := fieldBytes "pos"

def LENGTH_FIELD : List UInt8 := fieldBytes "len"

def LAST_MATCH_FIELD : List UInt8 := fieldBytes "lastmatch"

def COMPILE_CHARGED_FIELD : List UInt8 := fieldBytes "compile_charged"

def COMPILE_CHARGED_SLOT : F64 := F64.ofNat 0

end GmatchSchema


/-! ## Saved bytecode and values -/

/-- The number of saved bits. -/
def savedNum (bits : UInt64) : F64 := ⟨bits.toBitVec⟩

def SavedUpvalueDesc.desc : SavedUpvalueDesc → UpvalueDesc
  | .local slot => .local slot.toNat
  | .upvalue slot => .upvalue slot.toNat

/-- What the verifier of bytecode reads of a saved function, over the functions nested
    in it. -/
def SavedBytecode.build (b : SavedBytecode) (nested : List Bytecode) : Bytecode where
  code := b.code.map fun raw => ⟨raw.toBitVec⟩
  numberLiterals := b.numberLiterals.map savedNum
  stringLiterals := b.stringLiterals
  tableTemplates := b.tableTemplates.map (·.map UInt16.toNat)
  globalCacheSlots := b.globalCacheSlots.toNat
  fieldCacheSlots := b.fieldCacheSlots.toNat
  setFieldCacheSlots := b.setFieldCacheSlots.toNat
  tforCursorSlots := b.tforCursorSlots.toNat
  numParams := b.numParams.toNat
  numLocals := b.numLocals.toNat
  maxStack := b.maxStack.toNat
  nested := nested
  upvalues := b.upvalues.map SavedUpvalueDesc.desc
  isVararg := b.isVararg
  lineInfo := b.lineInfo.map UInt32.toNat

/-- A saved function as the verifier sees it. -/
def SavedBytecode.view (b : SavedBytecode) : Bytecode :=
  b.build (List.replicate b.nested.length { code := [] })

/-- An object as a table key: one of the arena or one of the environment. -/
inductive SavedObjectKey
  | object (id : UInt32)
  | environmentObject (token : String)
  deriving DecidableEq, Repr

/-- A saved table key, with strings by content. -/
abbrev ResolvedKey := NormalizedTableKey (List UInt8) SavedObjectKey String

/-- Reject a payload. -/
def corrupt {α : Type} (reason : CorruptionReason) (index : Nat) (location : SaveLocation) :
    Except SnapshotError α := .error (.corruptArena reason index location)

/-- Validate and normalize a saved table key. -/
def SavedVal.tableKey (strings : List (List UInt8)) (index : Nat) (location : SaveLocation)
    (v : SavedVal) : Except SnapshotError ResolvedKey := do
  let input : TableKeyInput (List UInt8) SavedObjectKey String ← match v with
    | .nil => .ok .nil
    | .bool b => .ok (.bool b)
    | .num bits => .ok (.number (savedNum bits))
    | .str id =>
      match strings[id.toNat]? with
      | some bytes => .ok (.string bytes)
      | none => corrupt (.idOutOfRange .tableKeyString) id.toNat .strings
    | .obj id => .ok (.object (.object id))
    | .fn id => .ok (.rustFn id)
    | .envObj token => .ok (.object (.environmentObject token))
  match normalizeTableKey input with
  | .ok key => .ok key
  | .error .nil => corrupt .nilKey index location
  | .error .nan => corrupt .nanKey index location

/-- Add to a set what may occur only once. -/
def insertUnique {κ : Type} [DecidableEq κ] (set : List κ) (key : κ) (reason : CorruptionReason)
    (index : Nat) (location : SaveLocation) : Except SnapshotError (List κ) :=
  if key ∈ set then corrupt reason index location else .ok (key :: set)

/-! ## Bytecode -/

/-- Reject a function. -/
def invalidChunk {α : Type} (chunk : Nat) (instruction : Option Nat)
    (reason : InvalidBytecodeReason) : Except SnapshotError α :=
  .error (.invalidBytecode chunk instruction reason)

/-- The result of the verifier of bytecode, about a function of the payload. -/
def rejected (chunk : Nat) (result : Validation Unit) : Except SnapshotError Unit :=
  match result with
  | .ok () => .ok ()
  | .error e => invalidChunk chunk e.instruction (.validation e.reason)

/-- The functions nested in one: each is there, and captures variables it can. -/
def countChildren (bytecode : List SavedBytecode) (parent : Nat) (chunk : SavedBytecode) :
    List UInt32 → List Nat → Except SnapshotError (List Nat)
  | [], indegree => .ok indegree
  | child :: children, indegree =>
    match bytecode[child.toNat]? with
    | none => corrupt (.idOutOfRange .nestedChunk) child.toNat .bytecode
    | some childChunk => do
      -- A count of at most 2^32 children does not overflow.
      let indegree := indegree.modify child.toNat (· + 1)
      rejected parent (validateChild chunk.view childChunk.view)
      countChildren bytecode parent chunk children indegree

/-- How often each function is nested in the functions from `parent` on. -/
def countAll (bytecode : List SavedBytecode) :
    List SavedBytecode → Nat → List Nat → Except SnapshotError (List Nat)
  | [], _, indegree => .ok indegree
  | chunk :: chunks, parent, indegree => do
    let indegree ← countChildren bytecode parent chunk chunk.nested indegree
    countAll bytecode chunks (parent + 1) indegree

/-- The state of the walk over nested functions: how often each is still nested in one
    not visited, its depth, and those that may be visited. -/
structure NestedWalk where
  indegree : List Nat
  depths : List Nat
  ready : List Nat
  visited : Nat

/-- Visit the functions nested in one of the given depth. -/
def visitChildren (depth : Nat) : List UInt32 → NestedWalk → Except SnapshotError NestedWalk
  | [], w => .ok w
  | child :: children, w => do
    let child := child.toNat
    let depths := w.depths.modify child (max · (depth + 1))
    rejected child (validateDepth (depths.getD child 0))
    let indegree := w.indegree.modify child (· - 1)
    let ready := if indegree.getD child 0 = 0 then w.ready ++ [child] else w.ready
    visitChildren depth children { w with indegree, depths, ready }

/-- Visit the functions that are ready. No function becomes ready twice, so as many
    visits suffice as there are functions. -/
def walkReady (bytecode : List SavedBytecode) :
    Nat → NestedWalk → Except SnapshotError NestedWalk
  | 0, w => .ok w
  | fuel + 1, w =>
    match w.ready with
    | [] => .ok w
    | parent :: ready => do
      let chunk := bytecode[parent]?.map SavedBytecode.nested
      let w ← visitChildren (w.depths.getD parent 0) (chunk.getD [])
        { w with ready, visited := w.visited + 1 }
      walkReady bytecode fuel w

/-- The walk before any function is visited. -/
def NestedWalk.start (indegree : List Nat) : NestedWalk where
  indegree := indegree
  depths := indegree.map fun degree => if degree = 0 then 1 else 0
  ready := (List.range indegree.length).filter fun id => indegree.getD id 0 = 0
  visited := 0

/-- Nested functions are there, do not contain themselves, and are not nested too
    deeply. -/
def validateNestedGraph (bytecode : List SavedBytecode) : Except SnapshotError Unit := do
  let indegree ← countAll bytecode bytecode 0 (List.replicate bytecode.length 0)
  let w ← walkReady bytecode bytecode.length (.start indegree)
  if w.visited ≠ bytecode.length then invalidChunk 0 none .nestedGraphCycle else .ok ()

/-! ## Closures and values -/

/-- A closure of a function that is there, with the upvalues it captures. -/
def validateClosure (p : SavePayload) : SavedObject → Except SnapshotError Unit
  | .table .. => .ok ()
  | .closure chunk upvalues =>
    match p.bytecode[chunk.toNat]? with
    | none => corrupt (.idOutOfRange .closureChunk) chunk.toNat .bytecode
    | some bytecode =>
      if upvalues.length ≠ bytecode.upvalues.length then
        invalidChunk chunk.toNat none .closureUpvalueCountMismatch
      else upvalues.forM fun id =>
        if p.upvalues.length ≤ id.toNat then
          corrupt (.idOutOfRange .closureUpvalue) id.toNat .upvalues
        else .ok ()

def validateClosures (p : SavePayload) : Except SnapshotError Unit :=
  p.objects.forM (validateClosure p)

/-- The id a value names is there. -/
def validateValue (p : SavePayload) : SavedVal → Except SnapshotError Unit
  | .str id =>
    if p.strings.length ≤ id.toNat then corrupt (.idOutOfRange .string) id.toNat .strings
    else .ok ()
  | .obj id =>
    if p.objects.length ≤ id.toNat then corrupt (.idOutOfRange .object) id.toNat .objects
    else .ok ()
  | _ => .ok ()

/-- A metatable is a table, or an object of the environment. -/
def validateMetatable (p : SavePayload) (reason : CorruptionReason) (ownerIndex : Nat)
    (location : SaveLocation) : SavedVal → Except SnapshotError Unit
  | .obj id =>
    match p.objects[id.toNat]? with
    | some (.table ..) => .ok ()
    | _ => corrupt reason id.toNat .objects
  | .envObj _ => .ok ()
  | _ => corrupt reason ownerIndex location

/-! ## Tables -/

/-- The number a key is, if it is one. -/
def SavedVal.number? : SavedVal → Option F64
  | .num bits => some (savedNum bits)
  | _ => none

/-- The shape the entries of a table are checked against: its logical length, the
    entries that are array slots and the slot of the first, and whether its hash part
    is marked as a map. -/
structure SavedShape where
  arrayLen : Nat
  arraySlots : Nat
  firstSlot : Nat
  marked : Bool
  location : SaveLocation

/-- One entry of a table. -/
def validateEntry (p : SavePayload) (shape : SavedShape) (index : Nat) (key value : SavedVal)
    (keys : List ResolvedKey) : Except SnapshotError (List ResolvedKey) := do
  validateValue p key
  validateValue p value
  if index < shape.arraySlots then
    -- Array slots carry their implied key, and may be empty.
    if (key.number?.bind fun n => arrayIndex n shape.arrayLen) = some (shape.firstSlot + index) then
      .ok keys
    else corrupt (.table .arraySlotWrongKey) index shape.location
  else if value ≠ .nil ∧ (key.number?.bind fun n => arrayIndex n shape.arrayLen).isSome then
    corrupt (.table .hashEntryBelongsInArray) index shape.location
  else if value ≠ .nil ∧ key.number?.any (isAppendKey · shape.arrayLen) then
    corrupt (.table .hashEntryBelongsInArray) index shape.location
  else if index = shape.arraySlots ∧ key = .nil ∧ value = .bool true then .ok keys
  else if key = .nil ∧ value = .nil then
    if shape.marked then .ok keys else corrupt (.table .entryStoresNil) index shape.location
  else do
    let key ← key.tableKey p.strings index shape.location
    insertUnique keys key (.duplicate .tableKey .saved) index shape.location

/-- The entries of a table from an index on. -/
def validateEntries (p : SavePayload) (shape : SavedShape) :
    Nat → List (SavedVal × SavedVal) → List ResolvedKey → Except SnapshotError Unit
  | _, [], _ => .ok ()
  | index, (key, value) :: entries, keys => do
    let keys ← validateEntry p shape index key value keys
    validateEntries p shape (index + 1) entries keys

/-- The slot of the first array entry, whose span lies inside the logical array. -/
def firstSlot (arrayLen arraySlots : Nat) (entries : List (SavedVal × SavedVal)) : Option Nat :=
  match entries with
  | (.num bits, _) :: _ =>
    if 0 < arraySlots then
      (arrayIndex (savedNum bits) arrayLen).filter fun slot => slot + arraySlots ≤ arrayLen
    else some 0
  | _ => some 0

/-- The shape of a table: its array span is canonical, and its entries are in place. -/
def validateTableShape (p : SavePayload) (object : SavedObject) (objectIndex : Nat)
    (location : SaveLocation) : Except SnapshotError Unit :=
  match object with
  | .closure .. => .ok ()
  | .table arrayLen arraySlots entries metatable => do
    let arraySlots := arraySlots.toNat
    if entries.length < arraySlots then
      corrupt (.table .arraySlotsExceedEntries) arraySlots location
    let arrayLen := arrayLen.toNat
    if maxArrayLen < arrayLen then
      corrupt (.table .arrayLengthExceedsLimit) objectIndex location
    match firstSlot arrayLen arraySlots entries with
    | none => corrupt (.table .arraySlotWrongKey) 0 location
    | some firstSlot =>
      -- The span starts and ends at a live slot.
      if 0 < arraySlots ∧ ((entries[0]?.map Prod.snd) = some .nil ∨
          (entries[arraySlots - 1]?.map Prod.snd) = some .nil) then
        corrupt (.table .arraySpanEndpointsNotLive) 0 location
      let marked := entries[arraySlots]? == some (.nil, .bool true)
      validateEntries p ⟨arrayLen, arraySlots, firstSlot, marked, location⟩ 0 entries []
      match metatable with
      | none => .ok ()
      | some value => do
        validateValue p value
        validateMetatable p (.table .metatableNotTable) objectIndex .objects value

/-- The tables of the arena from an index on. -/
def validateObjects (p : SavePayload) : Nat → List SavedObject → Except SnapshotError Unit
  | _, [] => .ok ()
  | index, object :: objects => do
    validateTableShape p object index (.tableEntries index)
    validateObjects p (index + 1) objects

/-- The pins of a table: distinct strings, which only a sealed save has. -/
def validatePins (p : SavePayload) (location : SaveLocation) :
    Nat → List SavedVal → List (List UInt8) → Except SnapshotError Unit
  | _, [], _ => .ok ()
  | index, .str id :: pins, seen => do
    if !p.globalsSealed then corrupt .invalidPin index location
    validateValue p (.str id)
    match p.strings[id.toNat]? with
    | none => corrupt .invalidPin index location
    | some content =>
      let seen ← insertUnique seen content (.duplicate .pin .saved) index location
      validatePins p location (index + 1) pins seen
  | index, _ :: _, _ => corrupt .invalidPin index location

/-- The global table or an environment table, and its pins. -/
def validateEnvTable (p : SavePayload) (table : SavedObject) (pins : List SavedVal) (index : Nat)
    (location : SaveLocation) : Except SnapshotError Unit :=
  match table with
  | .closure .. => corrupt (.table .materializedWrongType) index location
  | .table .. => do
    validateTableShape p table index location
    validatePins p location 0 pins []

/-- The environment tables from an index on, under distinct tokens. -/
def validateEnvTables (p : SavePayload) :
    Nat → List SavedEnvRecord → List String → Except SnapshotError Unit
  | _, [], _ => .ok ()
  | index, record :: records, tokens => do
    let tokens ← insertUnique tokens record.token (.duplicate .environmentToken .saved) index
      .environmentTables
    validateEnvTable p record.table record.pins index (.environmentTable index)
    validateEnvTables p (index + 1) records tokens

def validateReferences (p : SavePayload) : Except SnapshotError Unit := do
  p.upvalues.forM (validateValue p)
  validateObjects p 0 p.objects
  validateEnvTable p p.globals p.globalPins 0 .globals
  validateEnvTables p 0 p.envTables []

/-! ## Iterators -/

/-- The entries of a table of the arena. -/
def tableEntries (p : SavePayload) (tableId : UInt32) : Option (List (SavedVal × SavedVal)) :=
  match p.objects[tableId.toNat]? with
  | some (.table _ _ entries _) => some entries
  | _ => none

/-- The first entry of a table under a string key of the given content. -/
def tableField (p : SavePayload) (tableId : UInt32) (field : List UInt8) : Option SavedVal :=
  (tableEntries p tableId).bind fun entries => entries.findSome? fun (key, value) =>
    match key with
    | .str id => if p.strings[id.toNat]? = some field then some value else none
    | _ => none

/-- The first entry of a table under a number key of the given bits. -/
def tableNumericField (p : SavePayload) (tableId : UInt32) (field : F64) : Option SavedVal :=
  (tableEntries p tableId).bind fun entries => entries.findSome? fun (key, value) =>
    match key with
    | .num bits => if savedNum bits = field then some value else none
    | _ => none

/-- Reject the state of an iterator. -/
def corruptState {α : Type} (reason : GmatchCorruption) (tableId : UInt32) :
    Except SnapshotError α := corrupt (.gmatch reason) tableId.toNat .objects

/-- A field that is an integer up to a maximum. -/
def gmatchIntegerField (p : SavePayload) (tableId : UInt32) (field : List UInt8) (maximum : Nat)
    (reason : GmatchCorruption) : Except SnapshotError Nat :=
  match tableField p tableId field with
  | some (.num bits) =>
    match integerIndex (savedNum bits) maximum with
    | some n => .ok n
    | none => corruptState reason tableId
  | _ => corruptState reason tableId

open GmatchSchema

def validateGmatchLastMatch (p : SavePayload) (tableId : UInt32) (subjectLen : Nat) :
    Except SnapshotError Unit := do
  if (tableField p tableId LAST_MATCH_FIELD).isSome then
    let _ ← gmatchIntegerField p tableId LAST_MATCH_FIELD subjectLen .lastMatchInvalid

def validateGmatchCompileState (p : SavePayload) (tableId : UInt32) : Except SnapshotError Unit :=
  match tableNumericField p tableId COMPILE_CHARGED_SLOT with
  | some (.str keyId) =>
    match p.strings[keyId.toNat]? with
    | none => corruptState .compileFlagKeyOutOfRange tableId
    | some key =>
      if key ≠ COMPILE_CHARGED_FIELD then corruptState .compileFlagKeyInvalid tableId
      else
        match tableField p tableId COMPILE_CHARGED_FIELD with
        | none | some (.bool true) => .ok ()
        | _ => corruptState .compileFlagInvalid tableId
  | _ => corruptState .compileFlagKeyMissing tableId

/-- The state of an iterator over the empty pattern. -/
def validateEmptyState (p : SavePayload) (tableId : UInt32) : Except SnapshotError Unit := do
  let len ← gmatchIntegerField p tableId LENGTH_FIELD MAX_STRING_BYTES .emptyLengthInvalid
  let pos ← gmatchIntegerField p tableId POSITION_FIELD (MAX_STRING_BYTES + 1)
    .emptyPositionInvalid
  if len + 1 < pos then corruptState .emptyPositionExceedsLength tableId

/-- The state of an iterator. -/
def validateGmatchState (p : SavePayload) (tableId : UInt32) (emptyPattern : Bool) :
    Except SnapshotError Unit :=
  if emptyPattern then validateEmptyState p tableId
  else
    match tableField p tableId SUBJECT_FIELD with
    | some (.str subjectId) =>
      match p.strings[subjectId.toNat]? with
      | none => corrupt (.gmatch .subjectStringOutOfRange) subjectId.toNat .strings
      | some subject =>
        match tableField p tableId PATTERN_FIELD with
        | some (.str _) => do
          let pos ← gmatchIntegerField p tableId POSITION_FIELD (MAX_STRING_BYTES + 1)
            .positionInvalid
          if subject.length + 1 < pos then corruptState .positionExceedsSubject tableId
          validateGmatchLastMatch p tableId subject.length
          validateGmatchCompileState p tableId
        | _ => corruptState .patternInvalid tableId
    | _ => corruptState .subjectInvalid tableId

/-- What the upvalues of a closure say of an iterator: its kind, the last object
    captured, and whether there are several. -/
structure IteratorParts where
  kind : Option Bool := none
  stateTable : Option UInt32 := none
  multipleObjects : Bool := false

/-- Read the upvalues of a closure. -/
def iteratorParts (p : SavePayload) (closureIndex : Nat) :
    List UInt32 → IteratorParts → Except SnapshotError IteratorParts
  | [], parts => .ok parts
  | id :: upvalues, parts =>
    match p.upvalues[id.toNat]? with
    | none => corrupt (.gmatch .closureUpvalueOutOfRange) closureIndex .objects
    | some (.fn name) =>
      if name = ITERATOR_ID ∨ name = EMPTY_ITERATOR_ID then
        if parts.kind.isSome then corrupt (.gmatch .multipleIterators) closureIndex .objects
        else
          iteratorParts p closureIndex upvalues { parts with kind := some (name = EMPTY_ITERATOR_ID) }
      else iteratorParts p closureIndex upvalues parts
    | some (.obj id) =>
      iteratorParts p closureIndex upvalues { parts with
        stateTable := some id, multipleObjects := parts.multipleObjects || parts.stateTable.isSome }
    | some _ => iteratorParts p closureIndex upvalues parts

/-- The iterators among the objects from an index on. A state table is checked once for
    each kind of iterator over it. -/
def validateIterators (p : SavePayload) :
    Nat → List SavedObject → List (UInt32 × Bool) → Except SnapshotError Unit
  | _, [], _ => .ok ()
  | index, .table .. :: objects, validated => validateIterators p (index + 1) objects validated
  | index, .closure _ upvalues :: objects, validated => do
    let parts ← iteratorParts p index upvalues {}
    match parts.kind with
    | none => validateIterators p (index + 1) objects validated
    | some emptyPattern =>
      if parts.multipleObjects then corrupt (.gmatch .multipleStateObjects) index .objects
      match parts.stateTable with
      | none => corrupt (.gmatch .stateTableMissing) index .objects
      | some tableId =>
        if (tableEntries p tableId).isNone then corruptState .stateNotTable tableId
        if (tableId, emptyPattern) ∉ validated then validateGmatchState p tableId emptyPattern
        validateIterators p (index + 1) objects ((tableId, emptyPattern) :: validated)

def validateGmatchIterators (p : SavePayload) : Except SnapshotError Unit :=
  validateIterators p 0 p.objects []

/-! ## Pointer ids -/

/-- Whether a value is rendered by an id. -/
def SavedVal.isPointer : SavedVal → Bool
  | .obj _ | .envObj _ | .str _ | .fn _ => true
  | _ => false

/-- The recorded ids from an index on: of distinct values, distinct, and below the
    next id. -/
def validateIds (p : SavePayload) :
    Nat → List (SavedVal × UInt64) → List ResolvedKey → List UInt64 → Except SnapshotError Unit
  | _, [], _, _ => .ok ()
  | index, (value, id) :: records, values, ids => do
    if !value.isPointer then corrupt .invalidFormatPointerValue index .pointerIds
    let key ← value.tableKey p.strings index .pointerIds
    let values ← insertUnique values key (.duplicate .formatPointerValue .saved) index .pointerIds
    let ids ← insertUnique ids id (.duplicate .formatPointerId .saved) index .pointerIds
    if p.nextFormatPointerId ≤ id then corrupt .formatPointerIdNotBelowNext index .pointerIds
    validateValue p value
    validateIds p (index + 1) records values ids

def validatePointerIds (p : SavePayload) : Except SnapshotError Unit :=
  validateIds p 0 p.formatPointerIds [] []

/-! ## Whole payloads -/

/-- The functions of a payload from an id on. -/
def verifyChunks : Nat → List SavedBytecode → Except SnapshotError Unit
  | _, [] => .ok ()
  | chunk, bytecode :: rest => do
    rejected chunk (validateBytecode bytecode.view)
    verifyChunks (chunk + 1) rest

/-- Verify a payload. -/
def verifyPayload (p : SavePayload) : Except SnapshotError Unit := do
  verifyChunks 0 p.bytecode
  validateNestedGraph p.bytecode
  validateClosures p
  validateReferences p
  validateGmatchIterators p
  validatePointerIds p

end Dellingr
