import Dellingr.Lib.SlotMap
import Dellingr.Patterns.Compile
import Dellingr.Vm.GlobalEnv
import Dellingr.Vm.UpvaluePool
import Mathlib.Data.Finset.Basic
import Mathlib.Data.Finset.Dedup

/-!
# The collector

Objects and strings live in slot maps, captured variables in the slots of a pool, and
each has a colour. A collection marks what the roots reach, with a worklist of the
objects whose children are not marked yet, and sweeps the rest. The literals of a
bytecode belong to its runtime, of which there is one for each bytecode: closures do not
mark them, but the runtimes in the cache are roots.

* A bytecode is shared, and identified by the address of its allocation (`Chunk`).
* A runtime is shared by the closures and the frames of its bytecode and by the cache.
  The model keeps the runtimes in a list and names them by their positions, so that two
  names are the same runtime exactly when they are equal.
* The colours, the cells of the caches and the flags of the runtimes change in place.
* A misuse that the source asserts against is `none`: a marked slot that is free, or
  a dead prefix longer than its window.

The lookup caches of a runtime name objects weakly. Every so many collections the entries
that name a freed object are dropped (`dropDeadCacheEntries`).

The index of the strings by their contents, the environment roles, the phases and what no
collection reads are left out.
-/

namespace Dellingr

/-- The largest value of a machine word. -/
def usizeMax : Nat := 2 ^ 64 - 1

/-- How many collections pass between two runs of the prune of the runtime caches. -/
def CACHE_PRUNE_INTERVAL : Nat := 2 ^ 16

/-! ## Bytecodes and their runtimes -/

/-- A shared bytecode: the address of its allocation, what a runtime is made of, the
    variables it captures and its nested functions. -/
structure Chunk where
  identity : Nat
  stringLiterals : List (List UInt8) := []
  globalCacheSlots : Nat := 0
  fieldCacheSlots : Nat := 0
  setFieldCacheSlots : Nat := 0
  tforCursorSlots : Nat := 0
  upvalues : List UpvalueDesc := []
  nested : List Chunk := []

/-- The live slot of a key in a table. -/
structure FieldLookupCacheEntry where
  table : ObjectPtr
  slot : SlotRef
  deriving DecidableEq

/-- A method found one `__index` table up. -/
structure MethodLookupCacheEntry where
  receiverMetatable : ObjectPtr
  indexField : KeyedIndex
  methodTable : ObjectPtr
  methodSlot : SlotRef
  deriving DecidableEq

/-- A method of the strings. -/
structure StringMethodCacheEntry where
  stringLib : ObjectPtr
  slot : SlotRef
  deriving DecidableEq

/-- The position of a traversal. -/
structure TforCursorEntry where
  table : ObjectPtr
  index : Nat
  deriving DecidableEq

/-- The cells of a site that reads a field. -/
structure FieldLookupCacheSlot where
  fieldEntry : Option FieldLookupCacheEntry := none
  methodFirst : Option MethodLookupCacheEntry := none
  methodSecond : Option MethodLookupCacheEntry := none
  methodVictim : Nat := 0
  stringMethodEntry : Option StringMethodCacheEntry := none
  deriving DecidableEq

/-- The lookup caches of a bytecode, and the flag of the collector. -/
structure RuntimeCaches where
  globalLookup : List (Option GlobalLookupCacheEntry)
  fieldLookup : List FieldLookupCacheSlot
  setFieldLookup : List (Option FieldLookupCacheEntry)
  tforCursor : List (Option TforCursorEntry)
  /-- Whether marking traced a closure that runs on this runtime. -/
  reached : Bool
  deriving DecidableEq

/-- Empty caches, of the sizes the bytecode declares. -/
def RuntimeCaches.new (c : Chunk) : RuntimeCaches where
  globalLookup := .replicate c.globalCacheSlots none
  fieldLookup := .replicate c.fieldCacheSlots {}
  setFieldLookup := .replicate c.setFieldCacheSlots none
  tforCursor := .replicate c.tforCursorSlots none
  reached := false

/-- What a state keeps for a bytecode: its literals, interned, and its caches. -/
structure BytecodeRuntime where
  literals : List Val
  caches : RuntimeCaches
  deriving DecidableEq

/-- A runtime, by its position. -/
abbrev RuntimeId := Nat

/-- An entry of the cache of runtimes. It holds its bytecode, whose address is its key. -/
structure BytecodeCacheEntry where
  bytecode : Chunk
  runtime : RuntimeId

/-! ## The heap -/

/-- The colour of an object or a string. -/
inductive Color
  | unmarked | reachable
  deriving DecidableEq, Repr

/-- A Lua function on the heap. -/
structure LuaFn where
  bytecode : Chunk
  runtime : RuntimeId
  upvalues : List UInt32

inductive RawObject
  | luaFn (closure : LuaFn)
  | table (t : Table)

structure WrappedObject where
  raw : RawObject
  color : Color := .unmarked

/-- What a sweep leaves of an object: it is freed unless it is marked. -/
def WrappedObject.swept (o : WrappedObject) : Option WrappedObject :=
  match o.color with
  | .reachable => some { o with color := .unmarked }
  | .unmarked => none

/-- An interned string. -/
structure StringEntry where
  data : List UInt8
  color : Color := .unmarked

/-- What a sweep leaves of a string. -/
def StringEntry.swept (e : StringEntry) : Option StringEntry :=
  match e.color with
  | .reachable => some { e with color := .unmarked }
  | .unmarked => none

instance : Handle ObjectPtr where
  ofNat n := ⟨n, 0⟩
  toNat := ObjectPtr.slot
  toNat_ofNat _ := rfl

instance : Handle StringPtr where
  ofNat n := ⟨n, 0⟩
  toNat := StringPtr.slot
  toNat_ofNat _ := rfl

/-- When a collection is due: the mode, and its count of allocations. -/
inductive GcThreshold
  | automatic (value : Nat)
  | manual (value : Nat)
  | disabled
  deriving DecidableEq, Repr

def GcThreshold.value : GcThreshold → Nat
  | automatic value | manual value => value
  | disabled => usizeMax

/-- How the automatic threshold follows the number of live allocations. -/
structure GcPolicy where
  growthFactor : Nat
  minimumThreshold : Nat
  deriving DecidableEq

structure GcHeap where
  objects : SlotMap ObjectPtr WrappedObject
  strings : SlotMap StringPtr StringEntry
  threshold : GcThreshold
  policy : GcPolicy
  /-- The collections left before the next one that prunes the runtime caches. -/
  cachePruneCountdown : Nat
  countdown_pos : 0 < cachePruneCountdown

namespace GcHeap

variable (h : GcHeap)

/-- The objects and the strings there are. -/
def allocationCount : Nat := min (h.objects.len + h.strings.len) usizeMax

/-- Whether the next allocation collects first. -/
def isFull : Bool := h.threshold.value ≤ h.allocationCount

/-- Whether what a value names has not been freed. -/
def valIsLive : Val → Bool
  | .obj p => h.objects.contains p
  | .str p => h.strings.contains p
  | _ => true

/-- The string with these bytes, interned if there is none. -/
def allocString (bytes : List UInt8) : StringPtr × GcHeap :=
  match h.strings.entries.find? fun e => e.2.data = bytes with
  | some e => (e.1, h)
  | none => (h.strings.fresh, { h with strings := h.strings.insert { data := bytes } })

/-- A new closure. -/
def allocLuaFn (bytecode : Chunk) (runtime : RuntimeId) (upvalues : List UInt32) :
    ObjectPtr × GcHeap :=
  (h.objects.fresh,
    { h with objects := h.objects.insert { raw := .luaFn ⟨bytecode, runtime, upvalues⟩ } })

/-- Free the objects and the strings that are not marked, and unmark the others. -/
def collect : GcHeap :=
  let h := { h with
    objects := h.objects.filterMap WrappedObject.swept
    strings := h.strings.filterMap StringEntry.swept }
  match h.threshold with
  | .automatic _ => { h with
      threshold := .automatic (max (min (h.allocationCount * h.policy.growthFactor) usizeMax)
        h.policy.minimumThreshold) }
  | _ => h

/-- Count a collection, and say whether it prunes the runtime caches. -/
def runtimeCachePruneDue : Bool × GcHeap :=
  if h' : h.cachePruneCountdown - 1 = 0 then
    (true, { h with
      cachePruneCountdown := CACHE_PRUNE_INTERVAL
      countdown_pos := by decide })
  else
    (false, { h with
      cachePruneCountdown := h.cachePruneCountdown - 1
      countdown_pos := Nat.pos_of_ne_zero h' })

end GcHeap

/-! ## Weak entries -/

/-- The entries of a cache, by the values they name. -/
class CacheEntry (E : Type) where
  handles : E → List Val

/-- An entry of a global indexes the global table, which is never freed. -/
instance : CacheEntry GlobalLookupCacheEntry := ⟨fun _ => []⟩

instance : CacheEntry FieldLookupCacheEntry := ⟨fun e => [.obj e.table]⟩

instance : CacheEntry MethodLookupCacheEntry :=
  ⟨fun e => [.obj e.receiverMetatable, .obj e.methodTable]⟩

instance : CacheEntry StringMethodCacheEntry := ⟨fun e => [.obj e.stringLib]⟩

instance : CacheEntry TforCursorEntry := ⟨fun e => [.obj e.table]⟩

/-- Clear a cell whose entry names something freed. -/
def clearDead {E : Type} [CacheEntry E] (h : GcHeap) : Option E → Option E
  | some entry => if (CacheEntry.handles entry).all h.valIsLive then some entry else none
  | none => none

/-- Clear the cells of a runtime that name something freed. -/
def RuntimeCaches.dropDeadEntries (h : GcHeap) (c : RuntimeCaches) : RuntimeCaches where
  globalLookup := c.globalLookup.map (clearDead h)
  fieldLookup := c.fieldLookup.map fun slot => { slot with
    fieldEntry := clearDead h slot.fieldEntry
    methodFirst := clearDead h slot.methodFirst
    methodSecond := clearDead h slot.methodSecond
    stringMethodEntry := clearDead h slot.stringMethodEntry }
  setFieldLookup := c.setFieldLookup.map (clearDead h)
  tforCursor := c.tforCursor.map (clearDead h)
  reached := c.reached

/-! ## The state -/

/-- A handle of a value the host retains. -/
structure AnchorKey where
  index : Nat
  deriving DecidableEq, Repr

instance : Handle AnchorKey where
  ofNat n := ⟨n⟩
  toNat := AnchorKey.index
  toNat_ofNat _ := rfl

/-- The values the host retains, and the handles it has dropped since. -/
structure Registry where
  slots : SlotMap AnchorKey Val
  released : List AnchorKey

/-- Remove the values of dropped handles. -/
def Registry.drainReleased (r : Registry) : Registry where
  slots := r.released.foldl SlotMap.remove r.slots
  released := []

/-- A table the standard library owns, with its pinned names. -/
structure EnvTable where
  table : ObjectPtr
  pins : List StringPtr

/-- The handles of the global environment. -/
structure GlobalHandles where
  table : ObjectPtr
  builtinNames : List StringPtr
  pins : List StringPtr
  envTables : List EnvTable

/-- A value that prints as a pointer. -/
inductive PointerIdKey
  | string (s : StringPtr)
  | object (o : ObjectPtr)
  | rustFn (f : RustFnId)
  deriving DecidableEq

def PointerIdKey.asVal : PointerIdKey → Val
  | string s => .str s
  | object o => .obj o
  | rustFn f => .rustFn f

/-- A frame that is executing or suspended. -/
structure ActiveFrame where
  bytecode : Chunk
  runtime : RuntimeId
  upvalues : List UInt32
  stackBottom : Nat

/-- What a state owns that a collection visits. -/
structure Memory where
  heap : GcHeap
  upvaluePool : UpvaluePool
  runtimes : List BytecodeRuntime
  /-- The runtime of each bytecode in use, by the address of the bytecode. -/
  bytecodeCaches : IndexMap Nat BytecodeCacheEntry
  stack : List Val
  globalEnv : GlobalHandles
  metaNames : List StringPtr
  stringMetatable : Option ObjectPtr
  registry : Registry
  rootedValues : List Val
  suspendedEnvs : List SuspendedEnv
  varargStack : List Val
  /-- The open upvalues with the slots they point at. -/
  openUpvalues : List (Nat × UInt32)
  /-- The bytecodes of the active Lua calls, the innermost first. -/
  callStack : List Chunk
  /-- The frames of the active Lua calls, the innermost first. -/
  frames : List ActiveFrame
  /-- The addresses of the bytecodes being made closures of. -/
  pendingBytecodeCaches : List Nat
  /-- The lengths of the compiled patterns. -/
  patterns : IndexMap (StringPtr × Patterns.AnchorMode) Nat
  patternBytes : Nat
  formatPointerIds : IndexMap PointerIdKey UInt64

/-! ## Marking -/

/-- What marking changes: colours, flags and the worklist. -/
structure Marking where
  heap : GcHeap
  upvaluePool : UpvaluePool
  runtimes : List BytecodeRuntime
  /-- The marked objects whose children are not marked, the one marked last first. -/
  worklist : List ObjectPtr

namespace Marking

variable (m : Marking)

/-- Mark an object, and queue it if it was not marked. -/
def mark (p : ObjectPtr) : Marking :=
  match m.heap.objects.get p with
  | some o =>
    if o.color = .unmarked then { m with
      heap := { m.heap with
        objects := m.heap.objects.modify p fun o => { o with color := .reachable } }
      worklist := p :: m.worklist }
    else m
  | none => m

def markString (p : StringPtr) : Marking :=
  { m with heap := { m.heap with
      strings := m.heap.strings.modify p fun e => { e with color := .reachable } } }

def markVal : Val → Marking
  | .obj p => m.mark p
  | .str p => m.markString p
  | _ => m

def markVals (vs : List Val) : Marking := vs.foldl markVal m

def markStrings (ps : List StringPtr) : Marking := ps.foldl markString m

/-- Mark the contents of a table. The dead prefix of its window is skipped. -/
def markValues (t : Table) : Option Marking :=
  if t.lead ≤ t.array.length then
    let m := m.markVals (t.array.drop t.lead)
    let m := match t.storage with
      | .inline entries => entries.foldl (fun m e => (m.markVal e.1).markVal e.2) m
      | .map map _ => map.slots.foldl (fun m e =>
          (match e.1.asLive with | some key => m.markVal key | none => m).markVal e.2) m
    some (match t.metatable with | some mt => m.mark mt | none => m)
  else none

def markSlot (r : UInt32) : Option Marking := do
  some { m with upvaluePool := ← m.upvaluePool.markSlot r }

/-- Mark a captured variable of a closure, and its value if it is closed. -/
def markUpvalue (r : UInt32) : Option Marking := do
  let m ← m.markSlot r
  match ← m.upvaluePool.get r with
  | .closed v => some (m.markVal v)
  | .open _ => some m

/-- Flag a runtime as one that a closure runs on. -/
def markReached (id : RuntimeId) : Marking :=
  { m with runtimes := m.runtimes.modify id fun rt =>
      { rt with caches := { rt.caches with reached := true } } }

/-- Mark what an object names. -/
def markChildren : RawObject → Option Marking
  | .luaFn closure => closure.upvalues.foldlM markUpvalue (m.markReached closure.runtime)
  | .table t => m.markValues t

/-- Mark the children of the objects on the worklist until it is empty. -/
def drainMarkWorklist : Nat → Marking → Option Marking
  | 0, m => if m.worklist = [] then some m else none
  | fuel + 1, m =>
    match m.worklist with
    | [] => some m
    | p :: rest => do
      let o ← m.heap.objects.get p
      drainMarkWorklist fuel (← markChildren { m with worklist := rest } o.raw)

/-- Mark the handles of the global environment. -/
def markGlobals (env : GlobalHandles) : Marking :=
  let m := m.mark env.table
  let m := m.markStrings env.builtinNames
  let m := m.markStrings env.pins
  env.envTables.foldl (fun m env => (m.mark env.table).markStrings env.pins) m

end Marking

/-! ## Roots -/

/-- A source of roots. -/
inductive GcRoot
  | stack (values : List Val)
  | globals (env : GlobalHandles)
  | chunkLiterals (values : List Val)
  | metaNames (names : List StringPtr)
  | stringMetatable (p : ObjectPtr)
  | anchors (registry : Registry)
  | rootedValues (values : List Val)
  | suspendedEnv (env : SuspendedEnv)
  | varargs (values : List Val)
  | openUpvalue (r : UInt32)
  | activeChunk (bytecode : Chunk)
  | pendingChunk (identity : Nat)

/-- The bytecodes whose runtimes stay: those of whole trees, and single ones. -/
structure LiveChunks where
  trees : Finset Nat := ∅
  pending : List Nat := []

mutual

/-- Retain a bytecode and its nested functions, unless it is retained already. -/
def retainBytecodeTree (live : Finset Nat) : Chunk → Finset Nat
  | .mk identity _ _ _ _ _ _ nested =>
    if identity ∈ live then live else retainBytecodeTrees (insert identity live) nested

/-- Retain the bytecodes of a list one after the other. -/
def retainBytecodeTrees (live : Finset Nat) : List Chunk → Finset Nat
  | [] => live
  | c :: cs => retainBytecodeTrees (retainBytecodeTree live c) cs

end

namespace Memory

variable (mem : Memory)

/-- The literals of a runtime. -/
def literals (id : RuntimeId) : List Val := (mem.runtimes[id]?.map (·.literals)).getD []

/-- The roots, in the order they are visited. -/
def gcRoots : List GcRoot := List.flatten [
  [.stack mem.stack, .globals mem.globalEnv],
  mem.bytecodeCaches.slots.map fun e => .chunkLiterals (mem.literals e.2.runtime),
  [.metaNames mem.metaNames],
  mem.stringMetatable.toList.map .stringMetatable,
  [.anchors mem.registry, .rootedValues mem.rootedValues],
  mem.suspendedEnvs.map .suspendedEnv,
  [.varargs mem.varargStack],
  mem.openUpvalues.map fun e => .openUpvalue e.2,
  mem.callStack.reverse.map .activeChunk,
  mem.pendingBytecodeCaches.map .pendingChunk]

/-- The state of marking at its start. -/
def marking : Marking := ⟨mem.heap, mem.upvaluePool, mem.runtimes, []⟩

end Memory

/-- Mark a root, and retain the bytecodes it names. -/
def markRoot (m : Marking × LiveChunks) : GcRoot → Option (Marking × LiveChunks)
  | .stack values | .chunkLiterals values | .rootedValues values | .varargs values =>
    some (m.1.markVals values, m.2)
  | .globals env => some (m.1.markGlobals env, m.2)
  | .metaNames names => some (m.1.markStrings names, m.2)
  | .stringMetatable p => some (m.1.mark p, m.2)
  | .anchors registry => some (m.1.markVals registry.slots.values, m.2)
  | .suspendedEnv env => do some (← m.1.markValues env.contents, m.2)
  | .openUpvalue r => do some (← m.1.markSlot r, m.2)
  | .activeChunk bytecode =>
    some (m.1, { m.2 with trees := retainBytecodeTree m.2.trees bytecode })
  | .pendingChunk identity => some (m.1, { m.2 with pending := m.2.pending ++ [identity] })

/-- Take the flags of the runtimes of the cache, and retain the bytecodes of those that
    are set. -/
def takeReached (entries : List BytecodeCacheEntry) (live : Finset Nat)
    (runtimes : List BytecodeRuntime) : Finset Nat × List BytecodeRuntime :=
  match entries with
  | [] => (live, runtimes)
  | e :: rest =>
    let reached := (runtimes[e.runtime]?.map (·.caches.reached)).getD false
    takeReached rest (if reached then retainBytecodeTree live e.bytecode else live)
      (runtimes.modify e.runtime fun rt =>
        { rt with caches := { rt.caches with reached := false } })

namespace Memory

variable (mem : Memory)

/-- Drop the runtimes that no marked closure, active call or pending closure uses. -/
def sweepBytecodeCaches (live : LiveChunks) : Memory :=
  let (trees, runtimes) :=
    takeReached (mem.bytecodeCaches.slots.map Prod.snd) live.trees mem.runtimes
  let retained := trees ∪ live.pending.toFinset
  { mem with
    runtimes := runtimes
    bytecodeCaches := mem.bytecodeCaches.retain fun identity _ => identity ∈ retained }

/-- The runtimes, with the cache entries of the cached ones cleared that name something
    freed. -/
def dropDeadCacheEntries : List BytecodeRuntime :=
  (mem.bytecodeCaches.slots.map (·.2.runtime)).foldl (fun runtimes id => runtimes.modify id fun rt =>
    { rt with caches := rt.caches.dropDeadEntries mem.heap }) mem.runtimes

/-- Count the collection, and prune the runtime caches if it is one that does. -/
def pruneRuntimeCaches : Memory :=
  let (due, heap) := mem.heap.runtimeCachePruneDue
  { mem with
    heap := heap
    runtimes := if due then mem.dropDeadCacheEntries else mem.runtimes }

/-- Drop the compiled patterns of freed strings. -/
def prunePatterns : Memory :=
  let patterns := mem.patterns.retain fun key _ => mem.heap.valIsLive (.str key.1)
  { mem with patterns := patterns, patternBytes := (patterns.slots.map Prod.snd).sum }

/-- Drop the pointer identities of what was freed. -/
def pruneFormatPointerIds : Memory :=
  { mem with formatPointerIds :=
      mem.formatPointerIds.retain fun key _ => mem.heap.valIsLive key.asVal }

/-- What follows marking: free what is not marked, and drop what names it. -/
def sweep (live : LiveChunks) : Memory :=
  let mem := mem.sweepBytecodeCaches live
  let mem := { mem with heap := mem.heap.collect }
  let mem := mem.pruneRuntimeCaches
  let mem := mem.prunePatterns
  let mem := { mem with upvaluePool := mem.upvaluePool.sweep }
  mem.pruneFormatPointerIds

/-- Stop rooting the values of the handles that the host has dropped. -/
def drainReleased : Memory := { mem with registry := mem.registry.drainReleased }

/-- One collection. There are no more objects to trace than objects. -/
def collectGarbage : Option Memory := do
  let mem := mem.drainReleased
  let (m, live) ← mem.gcRoots.foldlM markRoot (mem.marking, {})
  let m ← m.drainMarkWorklist m.heap.objects.len
  let mem := { mem with heap := m.heap, upvaluePool := m.upvaluePool, runtimes := m.runtimes }
  some (mem.sweep live)

end Memory

end Dellingr
