import Dellingr.Instr
import Dellingr.Vm.StringPool
import Dellingr.Vm.Table.Shape
import Dellingr.Vm.Table.Token

/-!
# The global environment

Every global binding is an entry of one heap table, which is also `_G`. The bytecode
globals, field access through `_G` and the raw primitives all read and write this
table. A lookup of a global is cached as a probe the table minted (`HashProbe`), once
for each cache slot of the bytecode and once for each builtin. The values of the
builtins are mirrored as well, with the mutation epoch of the table at the time: as
long as the epoch is the same, the builtin instructions do not reach the table.

* Every mutable access to the table moves the epoch (`touch`), with one exception: a
  cached store to a slot whose key is not the name of a builtin (`writeCached`).
* Until the environment is sealed, the table retains every tombstone; throughout, it
  revives a key in the slot it had.
* `restrict` puts the whitelisted globals into the table and suspends its contents,
  `resume` puts them back. The table keeps its identity, and its caches.

The library tables, which follow the slot policy of this one, and the pins, which only
a save reads, are left out.
-/

namespace Dellingr

/-- The hash slots the table starts with: past inline storage, because only a map has a
    slot policy. -/
def INITIAL_GLOBAL_SLOTS : Nat := inlineCapacity + 1

inductive Phase
  | initializing
  /-- The setup of a load: initializing, and sealing is left to the saved phase. -/
  | loadSetup
  | sealed
  deriving DecidableEq, Repr

/-- How the table keeps its slots in a phase. -/
def slotPolicy (phase : Phase) : SlotPolicy where
  reviveInPlace := true
  retainDead := phase ≠ .sealed

/-! ## Builtins -/

/-- A builtin, by its slot. -/
abbrev Builtin := Fin BUILTIN_COUNT

namespace Builtin

/-- The names of the builtins, in the order of their slots. -/
def names : List String :=
  ["print", "type", "tonumber", "tostring", "pairs", "ipairs", "next", "getmetatable",
    "setmetatable", "rawget", "rawset", "rawequal", "rawlen", "select", "unpack", "math",
    "string", "table", "_G"]

/-- The first builtin. -/
def print : Builtin := ⟨0, by decide⟩

/-- The name of a builtin. -/
def name (b : Builtin) : List UInt8 := (names.getD b "").toUTF8.data.toList

/-- The builtin of a name. -/
def fromName (bytes : List UInt8) : Option Builtin :=
  (List.finRange BUILTIN_COUNT).find? fun b => b.name = bytes

theorem name_of_fromName {bytes : List UInt8} {b : Builtin} (h : fromName bytes = some b) :
    b.name = bytes := by simpa using List.find?_some h

end Builtin

/-! ## The state -/

/-- A lookup in the global table, and whether its key is the name of a builtin. -/
structure GlobalLookupCacheEntry where
  probe : HashProbe
  builtin : Bool
  deriving DecidableEq, Repr

/-- A place for a lookup: a cache slot of the bytecode, which serves one key only, or
    that of a builtin. -/
inductive GlobalCache
  | site (key : StringPtr) (id : Nat)
  | builtin (b : Builtin)
  deriving DecidableEq

/-- An environment that is suspended: the contents of the table, and their phase. -/
structure SuspendedEnv where
  contents : Table
  phase : Phase
  deriving DecidableEq

/-- The environment, with what it uses of the heap. -/
structure GlobalEnv where
  /-- The contents of the global table. -/
  table : Table
  /-- Moves with every mutable access to the table. -/
  watchedEpoch : UInt64
  strings : StringPool
  /-- The names of the builtins, interned. -/
  builtinNames : Builtin → StringPtr
  caches : GlobalCache → Option GlobalLookupCacheEntry
  /-- The value of each builtin as last read, with the epoch at that read. -/
  builtinMirror : Builtin → UInt64 × Val
  phase : Phase
  /-- The suspended environments, the last one first. -/
  suspendedEnvs : List SuspendedEnv

namespace GlobalEnv

/-- Intern names one after the other. -/
def internAll : List (List UInt8) → StringPool → List StringPtr × StringPool
  | [], pool => ([], pool)
  | bytes :: rest, pool =>
    let (p, pool) := pool.alloc bytes
    let (ps, pool) := internAll rest pool
    (p :: ps, pool)

/-- The empty environment. No epoch matches the mirror before the first read. -/
def new : GlobalEnv where
  table := (Table.withCapacity INITIAL_GLOBAL_SLOTS).setSlotPolicy (slotPolicy .initializing)
  watchedEpoch := 1
  strings := (internAll (List.ofFn Builtin.name) .empty).2
  builtinNames b := (internAll (List.ofFn Builtin.name) .empty).1.getD b ⟨0, 0⟩
  caches _ := none
  builtinMirror _ := (0, .nil)
  phase := .initializing
  suspendedEnvs := []

variable (A : Allocator) (g : GlobalEnv)

/-- A mutable access to the table, which leaves `table` behind. -/
def touch (table : Table) : GlobalEnv :=
  { g with table := table, watchedEpoch := g.watchedEpoch + 1 }

/-- The key a cache serves. -/
def keyOf : GlobalCache → StringPtr
  | .site key _ => key
  | .builtin b => g.builtinNames b

def isBuiltinKey (key : StringPtr) : Bool := decide (∃ b, g.builtinNames b = key)

/-- Fill a cache, if there is one, with what was found for a key. -/
def fill (cache : Option GlobalCache) (key : StringPtr) (probe : HashProbe) : GlobalEnv :=
  match cache with
  | none => g
  | some c => { g with caches := Function.update g.caches c (some ⟨probe, g.isBuiltinKey key⟩) }

/-! ## Reads and writes -/

/-- The value of the key of a cache, if the cache still answers for it. -/
def readCached (cache : GlobalCache) : Option Val := do
  let entry ← g.caches cache
  g.table.readProbe entry.probe

/-- The value of a global, filling a cache. -/
def read (key : StringPtr) (cache : Option GlobalCache) : Val × GlobalEnv :=
  let (probe, value) := g.table.probeHash (.str key)
  (value, g.fill cache key probe)

/-- Store through a cache if it still names the slot of its key. Only the store to a
    builtin moves the epoch. -/
def writeCached (cache : GlobalCache) (v : Val) : Option (Bool × GlobalEnv) :=
  match g.caches cache with
  | none => some (false, g)
  | some entry =>
    let g := if entry.builtin then { g with watchedEpoch := g.watchedEpoch + 1 } else g
    (g.table.storeProbe entry.probe v).map fun (stored, t) => (stored, { g with table := t })

/-- Store a global. A binding with a slot fills the cache; a new one leaves it as it
    is. -/
def write (key : StringPtr) (v : Val) (cache : Option GlobalCache) : Option GlobalEnv :=
  let g := g.touch g.table
  let probe := (g.table.probeHash (.str key)).1
  if probe.present then
    match g.table.storeProbe probe v with
    | some (true, t) => some (fill { g with table := t } cache key probe)
    | _ => none
  else if v = .nil then some g
  else match g.table.insert A (.str key) v with
    | some (.ok _, t) => some { g with table := t }
    | _ => none

/-- Read a builtin from the table and record it in the mirror. -/
def refreshBuiltin (b : Builtin) : Val × GlobalEnv :=
  let (v, g) := match g.readCached (.builtin b) with
    | some v => (v, g)
    | none => g.read (g.builtinNames b) (some (.builtin b))
  (v, { g with builtinMirror := Function.update g.builtinMirror b (g.watchedEpoch, v) })

/-- The value of a builtin: the mirror as long as the epoch is the same. -/
def readBuiltin (b : Builtin) : Val × GlobalEnv :=
  if (g.builtinMirror b).1 = g.watchedEpoch then ((g.builtinMirror b).2, g) else g.refreshBuiltin b

/-- Store through a cache, or else under the key. -/
def writeThrough (key : StringPtr) (cache : GlobalCache) (v : Val) : Option GlobalEnv := do
  let (stored, g) ← g.writeCached cache v
  if stored then return g
  g.write A key v (some cache)

/-- Store a builtin. -/
def writeBuiltin (b : Builtin) (v : Val) : Option GlobalEnv :=
  g.writeThrough A (g.builtinNames b) (.builtin b) v

/-- Read a global through the cache slot of an instruction, if it has one. -/
def readGlobal (key : StringPtr) (cacheSlot : Option Nat) : Val × GlobalEnv :=
  match cacheSlot with
  | none => g.read key none
  | some id =>
    match g.readCached (.site key id) with
    | some v => (v, g)
    | none => g.read key (some (.site key id))

/-- Write a global through the cache slot of an instruction, if it has one. -/
def writeGlobal (key : StringPtr) (cacheSlot : Option Nat) (v : Val) : Option GlobalEnv :=
  match cacheSlot with
  | none => g.write A key v none
  | some id => g.writeThrough A key (.site key id) v

/-- The value of the global of a name. A name that is not interned is not bound. -/
def readName (name : List UInt8) : Val × GlobalEnv :=
  match Builtin.fromName name with
  | some b => g.readBuiltin b
  | none =>
    match g.strings.find name with
    | some key => g.read key none
    | none => (.nil, g)

/-! ## Sealing, restricting and loading -/

/-- Stop retaining tombstones. -/
def sealGlobals : GlobalEnv :=
  if g.phase ≠ .initializing then g
  else { g.touch (g.table.setSlotPolicy (slotPolicy .sealed)) with phase := .sealed }

/-- Bind one whitelisted name in the table that will replace this one's contents. -/
def bindName (restricted : Table) (name : List UInt8) : Option Table :=
  match g.strings.find name with
  | none => some restricted
  | some key =>
    let value := g.table.get (.str key)
    if value = .nil then some restricted
    else match restricted.insert A (.str key) value with
      | some (.ok _, t) => some t
      | _ => none

/-- The contents of the restricted environment. -/
def restricted (whitelist : List (List UInt8)) : Option Table := do
  let t ← whitelist.foldlM (g.bindName A)
    ((Table.withCapacity (max INITIAL_GLOBAL_SLOTS whitelist.length)).setSlotPolicy
      (slotPolicy .sealed))
  return { t with metatable := g.table.metatable }

/-- Suspend this environment: the whitelisted globals become the contents of the table,
    sealed. -/
def restrict (whitelist : List (List UInt8)) : Option GlobalEnv := do
  let restricted ← g.restricted A whitelist
  let (table, contents) := g.table.swapContents restricted
  return { g.touch table with
    phase := .sealed
    suspendedEnvs := ⟨contents, g.phase⟩ :: g.suspendedEnvs }

/-- Resume the environment suspended last, and discard the restricted one. -/
def resume : Option GlobalEnv :=
  match g.suspendedEnvs with
  | [] => none
  | suspended :: rest =>
    some { g.touch (g.table.swapContents suspended.contents).1 with
      phase := suspended.phase
      suspendedEnvs := rest }

/-- Replace the contents of the table with saved ones, which a load has merged with
    those of its setup. A load that fails discards the environment. -/
def restore (vlen arraySlots : Nat) (entries : List (Val × Val)) (metatable : Option ObjectPtr)
    (isSealed : Bool) : Option GlobalEnv :=
  let phase := if isSealed then Phase.sealed else .initializing
  match g.table.rebuildFromSnapshot vlen arraySlots entries with
  | (.ok _, t) =>
    some { g.touch ({ t with metatable := metatable }.setSlotPolicy (slotPolicy phase)) with
      phase := phase }
  | (.error _, _) => none

end GlobalEnv

/-! ## Runs -/

/-- Apply operations one after the other. -/
def Table.applyAll (t : Table) : List (Allocator × TableOp) → Option Table
  | [] => some t
  | (A, op) :: ops => do
    let (_, t) ← t.apply A op
    t.applyAll ops

/-- The operations are on the entries of the table, and each is admitted where it is
    applied. -/
def Table.AdmitsAll (t : Table) : List (Allocator × TableOp) → Prop
  | [] => True
  | (A, op) :: ops => op.IsRaw ∧ op.Fits ∧ t.Admits op ∧
    ∀ r t', t.apply A op = some (r, t') → t'.AdmitsAll ops

/-- No operation makes the version wrap. -/
def Table.SteadyAll (t : Table) : List (Allocator × TableOp) → Prop
  | [] => True
  | (A, op) :: ops => ∀ r t', t.apply A op = some (r, t') → t.version ≤ t'.version ∧ t'.SteadyAll ops

/-- What a program, or its host, does with the environment. -/
inductive GlobalOp
  | readGlobal (key : StringPtr) (cacheSlot : Option Nat)
  | writeGlobal (key : StringPtr) (cacheSlot : Option Nat) (v : Val)
  | readBuiltin (b : Builtin)
  | writeBuiltin (b : Builtin) (v : Val)
  /-- A mutable access that does not go through the environment: `rawset`, the table
      library, a write through an alias of `_G`. -/
  | access (ops : List (Allocator × TableOp))
  | setMetatable (metatable : Option ObjectPtr)
  | intern (bytes : List UInt8)
  | collect (keep : StringPtr → Bool)
  | sealGlobals
  | beginLoadSetup
  | restore (vlen arraySlots : Nat) (entries : List (Val × Val)) (metatable : Option ObjectPtr)
    (isSealed : Bool)
  | restrict (whitelist : List (List UInt8))
  | resume

/-- An operation that suspends or resumes an environment. -/
def GlobalOp.IsSwap : GlobalOp → Prop
  | .restrict _ | .resume => True
  | _ => False

/-- The same without a cache: a read or a write by the key. -/
def GlobalOp.uncached (names : Builtin → StringPtr) : GlobalOp → GlobalOp
  | .readGlobal key _ => .readGlobal key none
  | .writeGlobal key _ v => .writeGlobal key none v
  | .readBuiltin b => .readGlobal (names b) none
  | .writeBuiltin b v => .writeGlobal (names b) none v
  | op => op

namespace GlobalEnv

variable (A : Allocator)

/-- What an operation returns, and the environment it leaves behind. -/
def step (g : GlobalEnv) : GlobalOp → Option (Val × GlobalEnv)
  | .readGlobal key cacheSlot => some (g.readGlobal key cacheSlot)
  | .writeGlobal key cacheSlot v => (g.writeGlobal A key cacheSlot v).map (.nil, ·)
  | .readBuiltin b => some (g.readBuiltin b)
  | .writeBuiltin b v => (g.writeBuiltin A b v).map (.nil, ·)
  | .access ops => (g.table.applyAll ops).map fun t => (.nil, g.touch t)
  | .setMetatable metatable => some (.nil, g.touch { g.table with metatable := metatable })
  | .intern bytes => some (.nil, { g with strings := (g.strings.alloc bytes).2 })
  | .collect keep => some (.nil, { g with strings := g.strings.retain keep })
  | .sealGlobals => some (.nil, g.sealGlobals)
  | .beginLoadSetup => some (.nil, { g with phase := .loadSetup })
  | .restore vlen arraySlots entries metatable isSealed =>
    (g.restore vlen arraySlots entries metatable isSealed).map (.nil, ·)
  | .restrict whitelist => (g.restrict A whitelist).map (.nil, ·)
  | .resume => g.resume.map (.nil, ·)

/-- What an operation relies on: the table's own conditions for an access, that the
    collector keeps the names of the builtins, that a load succeeds, and that there is an
    environment to resume. -/
def Admits (g : GlobalEnv) : GlobalOp → Prop
  | .access ops => g.table.AdmitsAll ops
  | .collect keep => ∀ b, keep (g.builtinNames b) = true
  | .restore vlen arraySlots entries _ _ => Table.KeysDiffer (entries.drop arraySlots) ∧
    (g.table.rebuildFromSnapshot vlen arraySlots entries).1 = .ok ()
  | .resume => g.suspendedEnvs ≠ []
  | _ => True

/-- Neither the version of the table nor its epoch wraps. -/
def Steady (g : GlobalEnv) (op : GlobalOp) : Prop :=
  (∀ v g', g.step A op = some (v, g') →
    g.table.version ≤ g'.table.version ∧ g.watchedEpoch ≤ g'.watchedEpoch) ∧
  ∀ ops, op = .access ops → g.table.SteadyAll ops

/-- Every operation is admitted where it is taken, and satisfies `P` there. -/
def Admissible (P : GlobalEnv → GlobalOp → Prop) : GlobalEnv → List GlobalOp → Prop
  | _, [] => True
  | g, op :: ops => g.Admits op ∧ P g op ∧
    ∀ v g', g.step A op = some (v, g') → Admissible P g' ops

/-- The results of a run of operations, and where it ends. -/
def run : GlobalEnv → List GlobalOp → Option (List Val × GlobalEnv)
  | g, [] => some ([], g)
  | g, op :: ops => do
    let (v, g) ← g.step A op
    let (vs, g) ← run g ops
    return (v :: vs, g)

end GlobalEnv

end Dellingr
