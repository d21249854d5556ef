import Dellingr.CostMeter
import Dellingr.Lib.Effect
import Dellingr.Vm.Machine
import Dellingr.Vm.Table.Token

/-!
# Index and newindex resolution

A read or a store walks the receiver, its handler tables and the string handlers in a loop. It reads every table
once and calls nothing: it answers, or it ends at a function handler, for which it pushes the call window. A step
that nests takes a unit of the metamethod depth. The units are returned, except those of a pending call, which
its caller returns.

A read that has the field cache of its site (`cached`) may be answered by it: from the entry of the receiver's own
field, from the entries of methods found one handler table up, and from that of string methods. Entries are weak
and hold slot tokens (`Dellingr.Vm.Table.Token`).

* `resolveIndex` resolves `receiver[key]`;
* `resolveNewindex` resolves a store whose raw lookup missed, and `storeField` one from its receiver.

The objects of the heap are a total function, as every handle a walk follows is live.
-/

namespace Dellingr.Metamethod

open Effect

/-- How many method entries a field cache holds. -/
def METHOD_ENTRIES : Nat := 2

/-! ## The state -/

inductive LuaType
  | nil
  | boolean
  | number
  | string
  | table
  | function
  deriving DecidableEq, Repr

/-- An object of the heap. Of a closure only that it is one matters here. -/
inductive RawObject
  | luaFn
  | table (t : Table)

/-- What a walk reads and writes of the heap: the objects, the metatable of all strings, and the interned names
    of the two metamethods. -/
structure MetaHeap where
  objects : ObjectPtr → RawObject
  stringMetatable : Option ObjectPtr
  index : StringPtr
  newIndex : StringPtr

structure FieldLookupCacheEntry where
  table : ObjectPtr
  slot : SlotRef
  deriving DecidableEq, Repr

/-- A hit one handler table up: the metatable of the receiver names `methodTable` as its `__index`, and that table
    holds the key. -/
structure MethodLookupCacheEntry where
  receiverMetatable : ObjectPtr
  indexField : KeyedIndex
  methodTable : ObjectPtr
  methodSlot : SlotRef
  deriving DecidableEq, Repr

structure StringMethodCacheEntry where
  stringLib : ObjectPtr
  slot : SlotRef
  deriving DecidableEq, Repr

/-- The cache of a site that reads a field. -/
structure FieldLookupCacheSlot where
  fieldEntry : Option FieldLookupCacheEntry
  methodEntries : Fin METHOD_ENTRIES → Option MethodLookupCacheEntry
  /-- The position that a fill replaces when both are full. -/
  methodVictim : Fin METHOD_ENTRIES
  stringMethodEntry : Option StringMethodCacheEntry

/-- What a walk works on. The units are those that the walk under way has taken. -/
structure MetaState where
  heap : MetaHeap
  /-- The slot of `__index` in the metatable of all strings. -/
  stringMtIndexShape : Option SlotRef
  fieldCache : FieldLookupCacheSlot
  setFieldCache : Option FieldLookupCacheEntry
  stack : List Val
  metamethodDepth : Nat
  units : Nat
  meter : CostState
  localCost : UInt64

inductive MetaError
  | tableIndex (typ : LuaType)
  | metamethodDepthExceeded (depth limit : Nat)
  | stackOverflow (size limit : Nat)
  | budgetExceeded
  | table (error : TableError)
  deriving DecidableEq, Repr

/-- A step of a walk. -/
abbrev Walk := Effect MetaState MetaError

namespace MetaHeap

variable (h : MetaHeap)

/-- The table that a handle names, if it is one. -/
def asTable (p : ObjectPtr) : Option Table :=
  match h.objects p with
  | .table t => some t
  | .luaFn => none

def isLuaFunction (p : ObjectPtr) : Bool :=
  match h.objects p with
  | .table _ => false
  | .luaFn => true

def typ : Val → LuaType
  | .nil => .nil
  | .bool _ => .boolean
  | .num _ => .number
  | .str _ => .string
  | .rustFn _ => .function
  | .obj p => if h.isLuaFunction p then .function else .table

/-- Whether a handler is called. -/
def calls : Val → Bool
  | .obj p => h.isLuaFunction p
  | .rustFn _ => true
  | _ => false

/-- A field of the metatable of a table, nil without one. -/
def metatableField (t : Table) (name : StringPtr) : Val :=
  match t.metatable.bind h.asTable with
  | some mt => mt.get (.str name)
  | none => .nil

/-- Put a table in the place of an object. -/
def setTable (p : ObjectPtr) (t : Table) : MetaHeap := { h with objects := Function.update h.objects p (.table t) }

end MetaHeap

/-! ## Units and windows -/

/-- Take a unit of the metamethod depth, or refuse at the limit. -/
def takeMetamethodUnit : Walk Unit := do
  let s ← get
  if s.metamethodDepth ≥ MAX_METAMETHOD_DEPTH then
    fail (.metamethodDepthExceeded s.metamethodDepth MAX_METAMETHOD_DEPTH)
  else modify fun s => { s with metamethodDepth := s.metamethodDepth + 1, units := s.units + 1 }

/-- Return the units that the walk has taken. -/
def returnUnits : Walk Unit := do
  let s ← get
  require (s.units ≤ s.metamethodDepth)
  modify fun s => { s with metamethodDepth := s.metamethodDepth - s.units }

/-- The error for a value that can be neither indexed nor called. -/
def indexHandlerError {α : Type} (handler : Val) : Walk α := do
  let s ← get
  fail (.tableIndex (s.heap.typ handler))

/-- Settle the cost of the frame. -/
def flushLocalCost : Walk Unit := do
  let s ← get
  let (admitted, localCost, meter) := s.meter.flushLocalCost s.localCost
  modify fun s => { s with localCost := localCost, meter := meter }
  if admitted then return () else fail .budgetExceeded

def checkStackSpace (n : Nat) : Walk Unit := do
  let s ← get
  if s.stack.length + n > MAX_STACK_SIZE then fail (.stackOverflow (s.stack.length + n) MAX_STACK_SIZE)
  else return ()

/-- Push the window of a call, with the cost settled and the room checked first. -/
def pushWindow (window : List Val) : Walk Unit := do
  flushLocalCost
  checkStackSpace window.length
  modify fun s => { s with stack := s.stack ++ window }

/-! ## The field cache -/

section Cache

variable (key : Val)

/-- What only a walk with a cache asks. -/
def ifCached {α : Type} (cached : Bool) (m : Walk (Option α)) : Walk (Option α) :=
  if cached then m else return none

/-- What only a walk with a cache does. -/
def whenCached (cached : Bool) (m : Walk Unit) : Walk Unit := if cached then m else return ()

def setField (entry : FieldLookupCacheEntry) : Walk Unit :=
  modify fun s => { s with fieldCache := { s.fieldCache with fieldEntry := some entry } }

/-- The other position is the next to be replaced. -/
def methodUsed (position : Fin METHOD_ENTRIES) : Walk Unit :=
  modify fun s => { s with fieldCache := { s.fieldCache with methodVictim := if position.val = 0 then ⟨1, by decide⟩ else ⟨0, by decide⟩ } }

def refreshMethod (position : Fin METHOD_ENTRIES) (entry : MethodLookupCacheEntry) : Walk Unit :=
  modify fun s => { s with fieldCache :=
    { s.fieldCache with methodEntries := Function.update s.fieldCache.methodEntries position (some entry) } }

/-- Where a new entry goes: over the entry for the same metatable, else in an empty position, else over the
    victim. -/
def fillPosition (cache : FieldLookupCacheSlot) (entry : MethodLookupCacheEntry) : Fin METHOD_ENTRIES :=
  let positions := List.finRange METHOD_ENTRIES
  let same := positions.find? fun i =>
    (cache.methodEntries i).any fun old => old.receiverMetatable == entry.receiverMetatable
  (same.or (positions.find? fun i => (cache.methodEntries i).isNone)).getD cache.methodVictim

def fillMethod (entry : MethodLookupCacheEntry) : Walk Unit := do
  let s ← get
  let position := fillPosition s.fieldCache entry
  refreshMethod position entry
  methodUsed position

def setStringMethod (entry : StringMethodCacheEntry) : Walk Unit :=
  modify fun s => { s with fieldCache := { s.fieldCache with stringMethodEntry := some entry } }

/-- The receiver's own field from the cache. -/
def getCachedField (p : ObjectPtr) : Walk (Option Val) := do
  let s ← get
  match s.fieldCache.fieldEntry with
  | none => return none
  | some entry =>
    if entry.table ≠ p then return none
    else match s.heap.asTable p with
      | none => return none
      | some t =>
        match t.slotValue? entry.slot with
        | some value => return value
        | none => do
          match ← demand (t.renewSlot entry.slot key) with
          | none => return none
          | some (slot, value) => do
            setField ⟨p, slot⟩
            return some value

/-- What the own lookup of a table gives: its value, or its metatable after a miss. -/
abbrev Direct := Option Val × Option ObjectPtr

/-- The receiver's own lookup: the cache, then the raw lookup. -/
def getTableFieldDirect (cached : Bool) (p : ObjectPtr) : Walk (Option Direct) := do
  let hit ← ifCached cached (getCachedField key p)
  match hit with
  | some value => return some (some value, none)
  | none => do
    let s ← get
    match s.heap.asTable p with
    | none => return none
    | some t =>
      match t.findSlot key with
      | some (slot, value) => do
        whenCached cached (setField ⟨p, slot⟩)
        return some (some value, none)
      | none => return some (none, t.metatable)

/-- The answer of one method entry. -/
def cachedMethodAt (receiverMetatable : ObjectPtr) (position : Fin METHOD_ENTRIES) : Walk (Option Val) := do
  let s ← get
  match s.fieldCache.methodEntries position with
  | none => return none
  | some entry =>
    if receiverMetatable ≠ entry.receiverMetatable then return none
    else match s.heap.asTable receiverMetatable with
      | none => return none
      | some metatable => do
        let indexHandler ← demand (metatable.valueIfKey entry.indexField (.str s.heap.index))
        if indexHandler ≠ some (.obj entry.methodTable) then return none
        else match s.heap.asTable entry.methodTable with
          | none => return none
          | some methodTable =>
            match methodTable.slotValue? entry.methodSlot with
            | some method => return method
            | none => do
              match ← demand (methodTable.renewSlot entry.methodSlot key) with
              | none => return none
              | some (methodSlot, method) => do
                refreshMethod position { entry with methodSlot }
                return some method

/-- The answer of the method entries from a position on. -/
def cachedMethodFrom (receiverMetatable : ObjectPtr) : List (Fin METHOD_ENTRIES) → Walk (Option Val)
  | [] => return none
  | position :: rest => do
    match ← cachedMethodAt key receiverMetatable position with
    | some method => do
      methodUsed position
      return some method
    | none => cachedMethodFrom receiverMetatable rest

def getCachedIndexTableField (receiverMetatable : ObjectPtr) : Walk (Option Val) :=
  cachedMethodFrom key receiverMetatable (List.finRange METHOD_ENTRIES)

/-- The answer of the string method entry, if the cached library is still the `__index` of the string metatable. -/
def getCachedStringMethod : Walk (Option Val) := do
  let s ← get
  match s.fieldCache.stringMethodEntry, s.stringMtIndexShape, s.heap.stringMetatable.bind s.heap.asTable with
  | some entry, some shape, some mt =>
    if mt.readSlot shape ≠ some (.obj entry.stringLib) then return none
    else match s.heap.asTable entry.stringLib with
      | none => return none
      | some t =>
        match t.slotValue? entry.slot with
        | some method => return method
        | none => do
          match ← demand (t.renewSlot entry.slot key) with
          | none => return none
          | some (slot, method) => do
            setStringMethod ⟨entry.stringLib, slot⟩
            return some method
  | _, _, _ => return none

end Cache

/-! ## Reads -/

/-- Where a read starts. -/
inductive IndexStart
  /-- At the receiver. -/
  | receiver
  /-- The raw lookup of the receiver, a table, has missed; this is its metatable. -/
  | afterRawMiss (metatable : ObjectPtr)

/-- How a read resolves: to a value, or to a pending call, which holds so many units. -/
inductive IndexOutcome
  | value (v : Val)
  | call (units : Nat)
  deriving DecidableEq, Repr

/-- What a string yields. -/
inductive StringStep
  | done (v : Val)
  | next (handler : Val)

section Reads

variable (key : Val)

/-- The step of a string: the cache, then the `__index` of the string metatable. -/
def stringIndexStep (cached : Bool) : Walk StringStep := do
  let hit ← ifCached cached (getCachedStringMethod key)
  match hit with
  | some method => return .done method
  | none => do
    let s ← get
    match s.heap.stringMetatable with
    | none => fail (.tableIndex .string)
    | some mtPtr =>
      let found := (s.heap.asTable mtPtr).bind fun mt => mt.findSlot (.str s.heap.index)
      match found with
      | none => fail (.tableIndex .string)
      | some (shape, handler) =>
        let method : Option (ObjectPtr × SlotRef × Val) := match handler with
          | .obj libPtr => do
            let t ← s.heap.asTable libPtr
            let (slot, method) ← t.findSlot key
            return (libPtr, slot, method)
          | _ => none
        match cached, method with
        | true, some (libPtr, slot, method) => do
          modify fun s => { s with stringMtIndexShape := some shape }
          setStringMethod ⟨libPtr, slot⟩
          return StringStep.done method
        | _, _ => return StringStep.next handler

/-- End at a function handler. -/
def callIndex (receiver handler : Val) : Walk (Option Val) := do
  let s ← get
  if s.heap.calls handler then do
    takeMetamethodUnit
    pushWindow [handler, receiver, key]
    return none
  else indexHandlerError handler

/-- Follow the handlers of a read. A first handler table that holds the key fills the method cache (`fill`). `none`
    is a pushed call window. -/
def indexLoop : Nat → (fill : Option (ObjectPtr × KeyedIndex)) → (receiver handler : Val) → Walk (Option Val)
  | 0, _, _, _ => timeout
  | fuel + 1, fill, receiver, handler => do
    let s ← get
    match handler with
    | .obj p =>
      match s.heap.asTable p with
      | some t =>
        match fill, t.findSlot key with
        | some (receiverMetatable, indexField), some (methodSlot, method) => do
          fillMethod ⟨receiverMetatable, indexField, p, methodSlot⟩
          return some method
        | fill, _ =>
          let value := if fill.isSome then .nil else t.get key
          if value ≠ .nil then return some value
          else
            let next := s.heap.metatableField t s.heap.index
            if next = .nil then return some .nil
            else do
              takeMetamethodUnit
              indexLoop fuel none handler next
      | none => callIndex key receiver handler
    | .rustFn _ => callIndex key receiver handler
    | .str _ => do
      takeMetamethodUnit
      match ← stringIndexStep key false with
      | .done value => return some value
      | .next next => indexLoop fuel fill handler next
    | _ => indexHandlerError handler

/-- A step that continues takes a unit, so there are no more. -/
def MAX_INDEX_STEPS : Nat := MAX_METAMETHOD_DEPTH + 1

def followHandlers (fill : Option (ObjectPtr × KeyedIndex)) (receiver handler : Val) : Walk (Option Val) :=
  if handler = .nil then return some .nil else indexLoop key MAX_INDEX_STEPS fill receiver handler

/-- The walk of a read: its answer, or `none` for a pushed call window. -/
def walkIndex (cached : Bool) (receiver : Val) : IndexStart → Walk (Option Val)
  | .afterRawMiss metatable => do
    let s ← get
    let handler := match s.heap.asTable metatable with
      | some mt => mt.get (.str s.heap.index)
      | none => .nil
    followHandlers key none receiver handler
  | .receiver =>
    match receiver with
    | .obj p => do
      match ← getTableFieldDirect key cached p with
      | none => indexHandlerError receiver
      | some (some value, _) => return some value
      -- A miss on a plain table.
      | some (none, none) => return some .nil
      | some (none, some metatable) => do
        let hit ← ifCached cached (getCachedIndexTableField key metatable)
        match hit with
        | some method => return some method
        | none => do
          let s ← get
          match (s.heap.asTable metatable).bind fun mt => mt.findKeyed (.str s.heap.index) with
          | none => return some .nil
          | some (indexField, handler) =>
            followHandlers key (if cached then some (metatable, indexField) else none) receiver handler
    | .str _ => do
      match ← stringIndexStep key cached with
      | .done value => return some value
      | .next handler => followHandlers key none receiver handler
    | _ => indexHandlerError receiver

/-- Resolve `receiver[key]` up to the point where it answers or must call a function handler. -/
def resolveIndex (cached : Bool) (receiver : Val) (start : IndexStart) : Walk IndexOutcome := do
  modify fun s => { s with units := 0 }
  match ← attempt (walkIndex key cached receiver start) with
  | .ok (some value) => do
    returnUnits
    return .value value
  | .ok none => do
    let s ← get
    return .call s.units
  | .error error => do
    returnUnits
    fail error

end Reads

/-! ## Stores -/

section Stores

variable (A : Allocator) (key value : Val)

/-- Store in a table raw. -/
def insertRaw (p : ObjectPtr) : Walk Unit := do
  let s ← get
  let t ← demand (s.heap.asTable p)
  let r ← demand (t.insert A key value)
  modify fun s => { s with heap := s.heap.setTable p r.2 }
  Effect.liftExcept (r.1.mapError .table)

/-- The `__newindex` of the metatable of a table, or nil. -/
def MetaHeap.newindexHandler (h : MetaHeap) (p : ObjectPtr) : Val :=
  match h.asTable p with
  | some t => h.metatableField t h.newIndex
  | none => .nil

/-- End at a function handler. -/
def callNewindex (target handler : Val) : Walk Bool := do
  let s ← get
  if s.heap.calls handler then do
    takeMetamethodUnit
    pushWindow [handler, target, key, value]
    return false
  else indexHandlerError handler

/-- Follow the handlers of a store: true is a completed store, false a pushed call window. -/
def newindexLoop : Nat → (target handler : Val) → Walk Bool
  | 0, _, _ => timeout
  | fuel + 1, target, handler => do
    let s ← get
    match handler with
    | .obj p =>
      match s.heap.asTable p with
      | some t =>
        let next := s.heap.newindexHandler p
        if t.get key = .nil ∧ next ≠ .nil then do
          takeMetamethodUnit
          newindexLoop fuel handler next
        else do
          insertRaw A key value p
          return true
      | none => callNewindex key value target handler
    | .rustFn _ => callNewindex key value target handler
    | _ => indexHandlerError handler

def walkNewindex (target handler : Val) : Walk Bool := newindexLoop A key value MAX_INDEX_STEPS target handler

/-- Resolve a store into a target whose raw lookup missed and whose metatable names the handler. A pending call
    gives the units it holds. -/
def resolveNewindex (target handler : Val) : Walk (Option Nat) := do
  modify fun s => { s with units := 0 }
  match ← attempt (walkNewindex A key value target handler) with
  | .ok false => do
    let s ← get
    return some s.units
  | .ok true => do
    returnUnits
    return none
  | .error error => do
    returnUnits
    fail error

/-- Store a key that a table does not hold. -/
def storeNewKey (p : ObjectPtr) : Walk (Option Nat) := do
  let s ← get
  let handler := s.heap.newindexHandler p
  if handler = .nil then do
    insertRaw A key value p
    return none
  else resolveNewindex A key value (.obj p) handler

/-- Store through a slot that was just found, or remove it. -/
def storeFound (cached : Bool) (p : ObjectPtr) (t : Table) (slot : SlotRef) : Walk Unit :=
  if value = .nil then do
    let r ← demand (t.removeSlot slot)
    modify fun s => { s with heap := s.heap.setTable p r.2 }
  else do
    modify fun s => { s with heap := s.heap.setTable p (t.storeSlot slot value).2 }
    whenCached cached (modify fun s => { s with setFieldCache := some ⟨p, slot⟩ })

/-- Remember where a new key was put. -/
def cacheStored (p : ObjectPtr) : Walk Unit := do
  let s ← get
  match (s.heap.asTable p).bind fun t => t.findSlot key with
  | some (slot, _) => modify fun s => { s with setFieldCache := some ⟨p, slot⟩ }
  | none => return ()

/-- Store `receiver.key = value` where the set cache did not answer. -/
def storeField (cached : Bool) (receiver : Val) : Walk (Option Nat) := do
  let s ← get
  match receiver with
  | .obj p =>
    match s.heap.asTable p with
    | some t =>
      match t.findSlot key with
      | some (slot, _) => do
        storeFound value cached p t slot
        return none
      | none => do
        let pending ← storeNewKey A key value p
        whenCached (cached && pending.isNone) (cacheStored key p)
        return pending
    | none => indexHandlerError receiver
  | _ => indexHandlerError receiver

end Stores

end Dellingr.Metamethod
