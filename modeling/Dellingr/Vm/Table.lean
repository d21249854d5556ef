import Dellingr.Lib.Checked
import Dellingr.Lib.IndexMap
import Dellingr.Vm.Val

/-!
# Tables

A table has an *array part* for the keys `1..=vlen` beside an
insertion-ordered *hash part* for everything else. The array part is logical:
only a *window* of it is stored, the keys `base + 1..=base + array.length`, and
every array key outside the window is nil. The hash part keeps a slot for a
cleared key (a *tombstone*) until it is compacted, so that a traversal may
clear the keys it visits.

The operations are those of the source, on a state passed explicitly:

* a `panic` (an index out of bounds, or an arithmetic underflow) is `none`;
* an operation that fails returns its error with the table it leaves behind
  (`Outcome`);
* the storage of the window is asked from an `Allocator`, which may refuse.
-/

namespace Dellingr

/-! ## Parameters -/

/-- The entries inline storage has room for. -/
def inlineCapacity : Nat := 4

/-- The largest logical array length: every key up to the next one is an exact
    double, and a slot index does not collide with the tag of array slots. -/
def maxArrayLen : Nat := min (2 ^ 53 - 2) (2 ^ 63 - 2)

/-- How many nil slots past the dead-prefix hint an operation may step over. -/
def leadCatchUp : Nat := 8

/-- The capacity an emptied window keeps. -/
def emptiedWindowCapacity : Nat := 16

/-- The allocator: the capacity it grants to a vector asking room for
    `additional` more slots, if any. -/
structure Allocator where
  tryReserve : (len cap additional : Nat) → Option Nat
  /-- A granted capacity has the room asked for. -/
  enough : ∀ {len cap additional c}, tryReserve len cap additional = some c → len + additional ≤ c

/-- An allocator that never refuses. -/
def Allocator.Total (A : Allocator) : Prop :=
  ∀ len cap additional, (A.tryReserve len cap additional).isSome = true

/-- The allocator that grants exactly the room asked for. -/
def Allocator.exact : Allocator where
  tryReserve len _ additional := some (len + additional)
  enough h := (Option.some.inj h).le

/-! ## Errors -/

/-- What is wrong with the shape of a saved table. -/
inductive SnapshotTableFault
  | arrayLengthExceedsEntries
  | arrayLengthExceedsLimit
  | arraySlotHasWrongKey
  | hashEntryBelongsInArray
  deriving DecidableEq, Repr

inductive TableError
  | invalidKey (k : InvalidTableKey)
  | growthFailed
  | invalidSnapshot (f : SnapshotTableFault)
  deriving DecidableEq, Repr

/-! ## Numeric keys -/

/-- A nonnegative integral number bounded by a collection's maximum index. The
    bounds passed are at most `maxArrayLen + 1`, whose conversions are exact. -/
def integerIndex (value : F64) (maximum : Nat) : Option Nat :=
  match value.exactNat with
  | some n => if n ≤ maximum then some n else none
  | none => none

/-- The zero-based slot of an array key in `1..=len`. -/
def arrayIndex (value : F64) (len : Nat) : Option Nat :=
  match integerIndex value len with
  | some (n + 1) => some n
  | _ => none

/-- Whether a numeric key extends an array of the given length. -/
def isAppendKey (value : F64) (len : Nat) : Bool := value.feq (F64.ofNat (len + 1))

/-! ## Keys and storage -/

/-- The key of a hash slot: a live key, or a vacant slot, which only names its
    own position. A slot is vacated when its key is re-added elsewhere. -/
inductive TableKey
  | live (v : Val)
  | vacant (index : Nat)
  deriving DecidableEq, Repr

namespace TableKey

/-- The equality of keys. -/
def eq : TableKey → TableKey → Bool
  | live a, live b => a.eq b
  | vacant i, vacant j => i == j
  | _, _ => false

instance : BEq TableKey := ⟨eq⟩

/-- Validate a value as a key. -/
def new (v : Val) : Except InvalidTableKey TableKey := v.tableKey.map fun _ => live v

/-- The value of a live key. -/
def asLive : TableKey → Option Val
  | live v => some v
  | vacant _ => none

/-- The query of a lookup by value: it matches no vacant slot. -/
def lookup (v : Val) : TableKey → Bool
  | live l => l.eq v
  | vacant _ => false

end TableKey

/-- How a map keeps its hash slots; the default is every table's but the global
    one's. -/
structure SlotPolicy where
  /-- A tombstoned key written live again takes its old slot back. -/
  reviveInPlace : Bool := false
  /-- Tombstones are never compacted. -/
  retainDead : Bool := false
  deriving DecidableEq, Repr

/-- The storage of the hash part: a short list of entries, or a map. -/
inductive TableStorage
  | inline (entries : List (Val × Val))
  | map (map : IndexMap TableKey Val) (policy : SlotPolicy)
  deriving DecidableEq, Repr

namespace TableStorage

/-- The slots in order, whatever the storage. -/
def slots : TableStorage → List (TableKey × Val)
  | inline entries => entries.map fun e => (.live e.1, e.2)
  | map m _ => m.slots

/-- The position of a key, live or a tombstone. -/
def position (s : TableStorage) (key : Val) : Option Nat :=
  match s with
  | inline entries => entries.findIdx? fun e => e.1.eq key
  | map m _ => m.getIndexOf (TableKey.lookup key)

/-- The key and value of the slot at a position. -/
def slotAt (s : TableStorage) (i : Nat) : Option (TableKey × Val) :=
  match s with
  | inline entries => entries[i]?.map fun e => (.live e.1, e.2)
  | map m _ => m.getIndex i

/-- Write the value of the slot at a position. -/
def setAt (s : TableStorage) (i : Nat) (v : Val) : TableStorage :=
  match s with
  | inline entries => inline (entries.modify i fun e => (e.1, v))
  | map m policy => map (m.setIndex i v) policy

/-- The number of slots, tombstones and vacant ones included. -/
def len : TableStorage → Nat
  | inline entries => entries.length
  | map m _ => m.len

end TableStorage

/-- A table. -/
structure Table where
  /-- The stored window: `array[i]` holds the key `base + i + 1`. -/
  array : List Val
  /-- The capacity of the window's storage. -/
  cap : Nat
  /-- The number of array keys below the window. -/
  base : Nat
  /-- The logical array length. -/
  vlen : Nat
  /-- A lower bound on the window's dead prefix. -/
  lead : Nat
  /-- The number of non-nil slots of the window. -/
  arrayLive : Nat
  storage : TableStorage
  metatable : Option ObjectPtr
  /-- The shape version, which moves when a hash slot is removed, reordered or
      renamed. -/
  version : UInt64
  /-- The number of hash slots whose nil value makes them absent. -/
  deadCount : Nat
  deriving DecidableEq, Repr

/-- The outcome of an operation: its result, and the table it leaves behind,
    also when it fails. -/
abbrev Outcome (α : Type) := Except TableError α × Table

/-- Continue with the result and the table of an operation that succeeded. -/
def andThen {α β : Type} (o : Outcome α) (f : α → Table → Option (Outcome β)) :
    Option (Outcome β) :=
  match o with
  | (.error e, t) => some (.error e, t)
  | (.ok a, t) => f a t

/-- The index of a slot, as handed to inline caches and cursors. The source
    tags the array slots (the absolute key minus one) with the top bit of a
    machine word; hash slots are positions. -/
inductive SlotIndex
  | array (slot : Nat)
  | hash (position : Nat)
  deriving DecidableEq, Repr

/-- The result of advancing a table iterator. -/
inductive TableNext
  | pair (key value : Val)
  | finished
  | invalidKey
  deriving DecidableEq, Repr

/-- The result of advancing a table iterator, with the index of the pair. -/
inductive TableNextWithIndex
  | pair (index : SlotIndex) (key value : Val)
  | finished
  | invalidKey
  deriving DecidableEq, Repr

/-- Forget the index of a pair. -/
def TableNextWithIndex.toNext : TableNextWithIndex → TableNext
  | .pair _ key value => .pair key value
  | .finished => .finished
  | .invalidKey => .invalidKey

namespace Table

/-- The empty table. -/
def empty : Table where
  array := []
  cap := 0
  base := 0
  vlen := 0
  lead := 0
  arrayLive := 0
  storage := .inline []
  metatable := none
  version := 0
  deadCount := 0

/-- An empty table with room for `capacity` hash slots. -/
def withCapacity (capacity : Nat) : Table :=
  if capacity ≤ inlineCapacity then empty else { empty with storage := .map ⟨[]⟩ {} }

/-- A table whose hash part has a tombstone for each of the given keys. -/
def withTemplateKeys (keys : List Val) : Table :=
  let m := keys.foldl (fun m k => m.insert (TableKey.live k) Val.nil) (⟨[]⟩ : IndexMap TableKey Val)
  { empty with storage := .map m {}, deadCount := m.len }

variable (t : Table)

/-! ## Reads -/

/-- The window position holding `key`. -/
def arraySlot (key : Val) : Option Nat :=
  match key with
  | .num n =>
    match integerIndex n (t.base + t.array.length) with
    | some key => if t.base < key then some (key - t.base - 1) else none
    | none => none
  | _ => none

/-- The integer value of an array key, whether or not the window stores it. -/
def arrayKey (key : Val) : Option Nat :=
  match key with
  | .num n => (arrayIndex n t.vlen).map (· + 1)
  | _ => none

/-- Whether `key` is the key that extends the array. -/
def isArrayAppendKey (key : Val) : Bool :=
  match key with
  | .num n => isAppendKey n t.vlen
  | _ => false

/-- The window position of an absolute array slot. -/
def windowPosition (slot : Nat) : Option Nat :=
  if t.base ≤ slot ∧ slot - t.base < t.array.length then some (slot - t.base) else none

/-- The value at an array key, nil outside the window. -/
def arrayValue (key : Nat) : Val :=
  match key with
  | 0 => .nil
  | slot + 1 =>
    match t.windowPosition slot with
    | some position => t.array.getD position .nil
    | none => .nil

/-- The value of a key in the hash part. -/
def hashGet (key : Val) : Val :=
  if !key.isValidTableKey then .nil
  else match t.storage with
    | .inline entries => ((entries.find? fun e => e.1.eq key).map Prod.snd).getD .nil
    | .map m _ => (m.get (TableKey.lookup key)).getD .nil

/-- The value of a key. -/
def get (key : Val) : Val :=
  match t.arraySlot key with
  | some slot => t.array.getD slot .nil
  | none => t.hashGet key

/-- The key and value of a live slot. A vacant slot with a live value panics. -/
def getIndex (index : SlotIndex) : Option (Option (Val × Val)) :=
  match index with
  | .array slot =>
    match t.windowPosition slot with
    | some position =>
      let value := t.array.getD position .nil
      some (if value.isLive then some (Val.ofNat (slot + 1), value) else none)
    | none => some none
  | .hash i =>
    match t.storage.slotAt i with
    | some (key, value) =>
      if value.isLive then key.asLive.map fun k => some (k, value) else some none
    | none => some none

/-- The number of hash slots. -/
def hashSlotCount : Nat := t.storage.len

/-- The number of live hash slots. -/
def hashLiveLen : Option Nat := checkedSub t.hashSlotCount t.deadCount

/-- The binary search of `arrayLen`: `lo` is zero or live, `hi` is nil or zero. -/
def arrayLenLoop : Nat → Nat → Nat → Nat
  | 0, lo, _ => lo
  | fuel + 1, lo, hi =>
    if 1 < hi - lo then
      let mid := lo + (hi - lo) / 2
      if t.arrayValue mid = .nil then arrayLenLoop fuel lo mid else arrayLenLoop fuel mid hi
    else lo

/-- A border of the table, the length operator. -/
def arrayLen : Nat :=
  if t.base + t.array.length = t.vlen ∧ (t.array.getLast?.any Val.isLive) = true then t.vlen
  else t.arrayLenLoop t.vlen 0 t.vlen

/-! ## The window -/

/-- Step the dead-prefix hint over at most `fuel` nil slots. -/
def skipNil (array : List Val) : Nat → Nat → Nat
  | 0, lead => lead
  | fuel + 1, lead => if array[lead]? = some .nil then skipNil array fuel (lead + 1) else lead

def advanceLead : Table := { t with lead := skipNil t.array leadCatchUp t.lead }

/-- Adjust the dead-prefix hint after a write at or below it. -/
def notePrefixWrite (position : Nat) (value : Val) : Table :=
  if value.isLive then { t with lead := min t.lead position }
  else if position = t.lead then { t with lead := t.lead + 1 }.advanceLead
  else t

/-- Write a window position, keeping the dead-prefix hint a lower bound. -/
def writeWindow (position : Nat) (value : Val) : Option Table := do
  let old ← t.array[position]?
  let live ← checkedSub t.arrayLive old.liveBit
  let t' := { t with arrayLive := live + value.liveBit, array := t.array.set position value }
  return if position ≤ t.lead then t'.notePrefixWrite position value else t'

/-- Make room for a window of `len` slots. -/
def reserveArray (A : Allocator) (len : Nat) : Outcome Unit :=
  if t.cap < len then
    match A.tryReserve t.array.length t.cap (len - t.array.length) with
    | some c => (.ok (), { t with cap := c })
    | none => (.error .growthFailed, t)
  else (.ok (), t)

/-- Append a slot to the window. -/
def pushSlot (value : Val) : Table :=
  { t with
    array := t.array ++ [value]
    cap := max t.cap (t.array.length + 1)
    arrayLive := t.arrayLive + value.liveBit }

/-- Refuse `n` more array keys past `maxArrayLen`. -/
def checkVlenGrowth (n : Nat) : Option (Except TableError Unit) := do
  let room ← checkedSub maxArrayLen t.vlen
  return if room < n then .error .growthFailed else .ok ()

/-- Walk the run of live keys that follow the array. The walk ends at
    `maxArrayLen`, which bounds its fuel. -/
def migrationEnd : Nat → Nat → Except TableError Nat
  | 0, last => .ok last
  | fuel + 1, last =>
    if t.get (Val.ofNat (last + 1)) = .nil then .ok last
    else if last = maxArrayLen then .error .growthFailed
    else migrationEnd fuel (last + 1)

/-- How many keys an append adds to the array: the appended key, and every live
    hash key that then migrates. -/
def appendGrowth : Option (Except TableError Nat) := do
  match ← t.checkVlenGrowth 1 with
  | .error e => return .error e
  | .ok () =>
    let live ← t.hashLiveLen
    if live = 0 then return .ok 1
    else match t.migrationEnd (maxArrayLen - t.vlen) (t.vlen + 1) with
      | .error e => return .error e
      | .ok last => return .ok (last - t.vlen)

/-- Reserve the storage of an append and its migration. -/
def reserveAppend (A : Allocator) : Option (Outcome Unit) := do
  match ← t.appendGrowth with
  | .error e => return (.error e, t)
  | .ok n => return t.reserveArray A (if t.arrayLive = 0 then n else t.vlen + n - t.base)

/-- Empty the window and restart it just above the key `base`. -/
def resetWindow (base : Nat) : Table :=
  { t with
    array := []
    arrayLive := 0
    cap := min t.cap emptiedWindowCapacity
    base := base
    lead := 0 }

/-- Drop the hinted dead prefix from the window. -/
def dropDeadPrefix : Table :=
  let array := t.array.drop t.lead
  let keep := max array.length emptiedWindowCapacity
  { t with
    array := array
    base := t.base + t.lead
    lead := 0
    cap := if 4 * keep < t.cap then min t.cap (2 * keep) else t.cap }

/-- Extend the window upward with nil slots. -/
def resizeArray (len : Nat) : Table :=
  { t with
    array := t.array ++ List.replicate (len - t.array.length) .nil
    cap := max t.cap len }

/-- Make the window end at `vlen`, after the dead-prefix hint caught up: an
    all-dead window restarts at the append key, a dead prefix of at least half
    the window is dropped, and a nil tail is filled. -/
def prepareAppendAfterLead (A : Allocator) : Outcome Unit :=
  if t.arrayLive = 0 then
    (.ok (), if t.array ≠ [] ∨ t.base ≠ t.vlen then t.resetWindow t.vlen else t)
  else
    let t := if t.array.length ≤ t.lead * 2 then t.dropDeadPrefix else t
    if t.base + t.array.length < t.vlen then
      match t.reserveArray A (t.vlen - t.base) with
      | (.ok (), t) => (.ok (), t.resizeArray (t.vlen - t.base))
      | (.error e, t) => (.error e, t)
    else (.ok (), t)

def prepareAppend (A : Allocator) : Outcome Unit :=
  t.advanceLead.prepareAppendAfterLead A

/-- Reserve the storage `writeOutsideWindow` needs once the window has grown by
    `extra` slots and gained `liveDelta` live values. -/
def reserveOutsideWindow (A : Allocator) (key extra liveDelta : Nat) :
    Outcome Unit :=
  let len := t.array.length + extra
  let live := t.arrayLive + liveDelta
  let needed :=
    if live = 0 then 1
    else if key ≤ t.base then len + (t.base - (key - 1 - min (key - 1) ((live + 1) / 2)))
    else key - t.base
  t.reserveArray A needed

/-- Store a live value at an array key outside the window: an all-dead window
    restarts at the key, otherwise the window extends to cover it, downward with
    a padding of about half its live slots. -/
def writeOutsideWindow (A : Allocator) (key : Nat) (value : Val) : Option (Outcome Unit) :=
  match t.reserveOutsideWindow A key 0 0 with
  | (.error e, t) => some (.error e, t)
  | (.ok (), t) =>
    if t.arrayLive = 0 then
      let t := t.resetWindow (key - 1)
      some (.ok (), { t with array := [value], cap := max t.cap 1, arrayLive := 1 })
    else if key ≤ t.base then do
      let pad := min (key - 1) ((t.arrayLive + 1) / 2)
      let base ← checkedSub (key - 1) pad
      let grow ← checkedSub t.base base
      let array := List.replicate grow .nil ++ t.array
      let _ ← array[pad]?
      return (.ok (), { t with
        array := array.set pad value
        cap := max t.cap array.length
        base := base
        lead := pad
        arrayLive := t.arrayLive + 1 })
    else do
      let len ← checkedSub key t.base
      let t := t.resizeArray len
      let _ ← t.array[len - 1]?
      return (.ok (), { t with
        array := t.array.set (len - 1) value
        arrayLive := t.arrayLive + 1 })

/-! ## The hash part -/

def bumpVersion : Table := { t with version := t.version + 1 }

/-- Tombstone a key of the hash part, and return its value, if any. -/
def hashRemove (key : Val) : Option Val × Table :=
  match t.storage.position key with
  | none => (none, t)
  | some i =>
    match t.storage.slotAt i with
    | none => (none, t)
    | some (_, removed) =>
      if removed.isLive then
        (some removed, { t with storage := t.storage.setAt i .nil, deadCount := t.deadCount + 1 })
      else (none, t)

/-- Whether the storage never compacts its tombstones. -/
def retainsDead : Bool :=
  match t.storage with
  | .inline _ => false
  | .map _ policy => policy.retainDead

/-- Stably remove the absent hash slots, moving the version when any goes. -/
def compactDead : Table :=
  if t.deadCount = 0 ∨ t.retainsDead then t
  else
    { t with
      storage := match t.storage with
        | .inline entries => .inline (entries.filter fun e => e.2.isLive)
        | .map m policy => .map (m.retain fun _ v => v.isLive) policy
      deadCount := 0 }.bumpVersion

/-- Promote inline storage to a map, adding a new pair. -/
def promoteToMap (key : TableKey) (value : Val) : Table :=
  match t.storage with
  | .inline entries =>
    let m := entries.foldl (fun m e => m.insert (.live e.1) e.2) (⟨[]⟩ : IndexMap TableKey Val)
    { t with storage := .map (m.insert key value) {} }
  | .map .. => t

def insertWithoutTombstones (key : Val) (value : Val) : Table :=
  match t.storage with
  | .inline entries =>
    match entries.findIdx? fun e => e.1.eq key with
    | some i => { t with storage := .inline (entries.modify i fun e => (e.1, value)) }
    | none =>
      if entries.length < inlineCapacity then
        { t with storage := .inline (entries ++ [(key, value)]) }
      else t.promoteToMap (.live key) value
  | .map m policy => { t with storage := .map (m.insert (.live key) value) policy }

/-- Append a slot to inline storage, or promote it. -/
def pushInline (key value : Val) : Option Table :=
  match t.storage with
  | .inline entries =>
    if entries.length < inlineCapacity then
      some { t with storage := .inline (entries ++ [(key, value)]) }
    else some (t.promoteToMap (.live key) value)
  | .map .. => none

/-- Insertion into inline storage with tombstones: a live key is overwritten, a
    tombstoned one is shifted out and re-added last, and a new one may first
    compact. -/
def insertInlineWithTombstones (entries : List (Val × Val)) (key value : Val) : Option Table :=
  match entries.findIdx? fun e => e.1.eq key && e.2.isLive with
  | some i => some { t with storage := .inline (entries.modify i fun e => (e.1, value)) }
  | none =>
    match entries.findIdx? fun e => e.1.eq key with
    | some i => do
      let dead ← checkedSub t.deadCount 1
      let t := { t with storage := .inline (entries.eraseIdx i), deadCount := dead }.bumpVersion
      t.pushInline key value
    | none => do
      let live ← checkedSub entries.length t.deadCount
      let t := if live ≤ t.deadCount ∨ entries.length = inlineCapacity then t.compactDead else t
      t.pushInline key value

/-- Append a key to a map that has no slot for it, compacting first once the
    tombstones reach the live slots. -/
def pushMap (key : TableKey) (value : Val) : Option Table := do
  let live ← checkedSub t.hashSlotCount t.deadCount
  let t := if live ≤ t.deadCount then t.compactDead else t
  match t.storage with
  | .map m policy => return { t with storage := .map (m.insert key value) policy }
  | .inline _ => none

def insertIntoMapWithTombstones (m : IndexMap TableKey Val) (policy : SlotPolicy) (key : Val)
    (value : Val) : Option Table :=
  match m.getFull (TableKey.lookup key) with
  | some (i, _, existing) =>
    if existing.isLive then some { t with storage := .map (m.setIndex i value) policy }
    else if policy.reviveInPlace then do
      let dead ← checkedSub t.deadCount 1
      return { t with storage := .map (m.setIndex i value) policy, deadCount := dead }
    else do
      -- The old slot stays a tombstone under a vacant key, so that no later
      -- slot moves; the key is re-added last.
      let m ← m.replaceIndex i (.vacant i)
      { t with storage := .map m policy }.bumpVersion.pushMap (.live key) value
  | none => t.pushMap (.live key) value

/-- Move the live hash entries for the keys that now follow the array into it,
    leaving tombstones. The fuel is the number of hash slots: every round
    tombstones one. -/
def migrateLoop : Nat → Bool → Table → Bool × Table
  | 0, migrated, t => (migrated, t)
  | fuel + 1, migrated, t =>
    match t.hashRemove (Val.ofNat (t.vlen + 1)) with
    | (some value, t) => migrateLoop fuel true ({ t with vlen := t.vlen + 1 }.pushSlot value)
    | (none, t) => (migrated, t)

def migrateFromHash : Option Table := do
  let live ← t.hashLiveLen
  if live = 0 then return t
  else
    let (migrated, t) := migrateLoop (t.hashSlotCount + 1) false t
    let live ← t.hashLiveLen
    return if migrated ∧ live ≤ t.deadCount then t.compactDead else t

/-! ## Appends and insertions -/

/-- Finish an append that needs window maintenance, growth or migration. -/
def appendSlow (A : Allocator) (value : Val) : Option (Outcome Unit) := do
  match ← t.checkVlenGrowth 1 with
  | .error e => return (.error e, t)
  | .ok () =>
    andThen (t.prepareAppendAfterLead A) fun _ t => do
      andThen (← t.reserveAppend A) fun _ t =>
        ({ t with vlen := t.vlen + 1 }.pushSlot value).migrateFromHash.map fun t => (.ok (), t)

/-- Append a value at the key `vlen + 1`, then migrate the keys that follow. -/
def append (A : Allocator) (value : Val) : Option (Outcome Unit) := do
  let t := t.advanceLead
  let len := t.array.length
  if t.vlen = maxArrayLen ∨ t.arrayLive = 0 ∨ len ≤ t.lead * 2 ∨ t.base + len < t.vlen ∨
      len = t.cap then
    t.appendSlow A value
  else
    let live ← t.hashLiveLen
    if live ≠ 0 then t.appendSlow A value
    else return (.ok (), { t with vlen := t.vlen + 1 }.pushSlot value)

/-- Insertion into the hash part. -/
def hashInsert (key value : Val) : Option Table :=
  if t.deadCount = 0 then some (t.insertWithoutTombstones key value)
  else match t.storage with
    | .inline entries => t.insertInlineWithTombstones entries key value
    | .map m policy => t.insertIntoMapWithTombstones m policy key value

/-- Assign a value to a key; nil deletes the key. -/
def insert (A : Allocator) (key value : Val) : Option (Outcome Unit) :=
  match t.arraySlot key with
  | some position => (t.writeWindow position value).map fun t => (.ok (), t)
  | none =>
    match TableKey.new key with
    | .error e => some (.error (.invalidKey e), t)
    | .ok _ =>
      if value = .nil then some (.ok (), (t.hashRemove key).2)
      else if t.isArrayAppendKey key then t.append A value
      else match t.arrayKey key with
        | some arrayKey => t.writeOutsideWindow A arrayKey value
        | none => (t.hashInsert key value).map fun t => (.ok (), t)

/-- Remove a key. -/
def remove (key : Val) : Option Table :=
  match t.arraySlot key with
  | some slot => t.writeWindow slot .nil
  | none => some (t.hashRemove key).2

/-! ## Slots by index -/

/-- Write a hash slot in place, whether it is live or a tombstone; `false`,
    changing nothing, for a vacant or missing slot. -/
def writeSlot (index : Nat) (value : Val) : Option (Bool × Table) :=
  match t.storage.slotAt index with
  | some (.live _, old) => do
    let dead ← checkedSub (t.deadCount + (1 - value.liveBit)) (1 - old.liveBit)
    return (true, { t with storage := t.storage.setAt index value, deadCount := dead })
  | _ => some (false, t)

/-- Update the value of a live slot; `false` for a dead or missing one. -/
def setAtIndex (index : SlotIndex) (value : Val) : Bool × Table :=
  match index with
  | .array slot =>
    match t.windowPosition slot with
    | some position =>
      if (t.array.getD position .nil).isLive then
        (true, { t with array := t.array.set position value })
      else (false, t)
    | none => (false, t)
  | .hash i =>
    match t.storage.slotAt i with
    | some (_, old) =>
      if old.isLive then (true, { t with storage := t.storage.setAt i value }) else (false, t)
    | none => (false, t)

/-- Remove a live slot; `false` for a dead or missing one. -/
def removeAtIndex (index : SlotIndex) : Option (Bool × Table) :=
  match index with
  | .array slot =>
    match t.windowPosition slot with
    | some position =>
      if (t.array.getD position .nil).isLive then (t.writeWindow position .nil).map (true, ·)
      else some (false, t)
    | none => some (false, t)
  | .hash i =>
    match t.storage.slotAt i with
    | some (_, old) =>
      if old.isLive then
        some (true, { t with storage := t.storage.setAt i .nil, deadCount := t.deadCount + 1 })
      else some (false, t)
    | none => some (false, t)

/-- Initialize a reserved template slot, if it holds `key`. -/
def initAtIndex (index : SlotIndex) (key value : Val) : Option (Bool × Table) :=
  match index with
  | .array _ => some (false, t)
  | .hash i =>
    match t.storage.slotAt i with
    | some (existing, old) =>
      if !TableKey.lookup key existing then some (false, t)
      else
        let t := { t with storage := t.storage.setAt i value }
        if !old.isLive && value.isLive then do
          let dead ← checkedSub t.deadCount 1
          return (true, { t with deadCount := dead })
        else if old.isLive && !value.isLive then
          some (true, { t with deadCount := t.deadCount + 1 })
        else some (true, t)
    | none => some (false, t)

/-! ## Lists and sequences -/

/-- Whether an append, and every append after it, is a bare push. -/
def appendsArePlain : Option Bool :=
  if t.array.head?.any Val.isLive && t.base + t.array.length == t.vlen then
    t.hashLiveLen.map (· == 0)
  else some false

/-- Whether no live hash key can migrate into a batch of `count` values. -/
def listHashCannotMigrate (count : Nat) : Option Bool := do
  let live ← t.hashLiveLen
  if live = 0 then return true
  else return match t.storage with
    | .inline entries =>
      decide (entries.length ≤ count) &&
        entries.all fun e => !e.2.isLive || !(match e.1 with | .num _ => true | _ => false)
    | .map m _ =>
      decide (m.len ≤ count) &&
        m.slots.all fun s => !s.2.isLive || !(match s.1 with | .live (.num _) => true | _ => false)

/-- Reserve a positional batch against the window the append will keep. -/
def prepareListAppend (A : Allocator) (count : Nat) : Option (Outcome Unit) := do
  let plain ← t.appendsArePlain
  if plain || (t.array.isEmpty && t.base == t.vlen) then
    return t.reserveArray A (t.array.length + count)
  else
    andThen (t.prepareAppend A) fun _ t =>
      some (t.reserveArray A (t.array.length + count))

/-- Append a whole batch in one extend. -/
def extendSlots (values : List Val) : Table :=
  { t with
    vlen := t.vlen + values.length
    array := t.array ++ values
    cap := max t.cap (t.array.length + values.length)
    arrayLive := t.arrayLive + values.countP Val.isLive }

/-- Whether the rest of a batch may land in one extend: the window is plain, and
    the scan of the hash part has not refused, or the hash part is empty. -/
def bulkCandidate (key : Nat) (value : Val) (hashMayMigrate : Bool) : Option Bool :=
  if key == t.vlen + 1 &&
      ((t.array.head?.any Val.isLive && t.base + t.array.length == t.vlen) ||
        (t.array.isEmpty && t.base == t.vlen && value.isLive)) then
    if !hashMayMigrate then some true else t.hashLiveLen.map (· == 0)
  else some false

/-- Store one value of a batch: an append at the append key (nil included), an
    insertion elsewhere. -/
def setListElement (A : Allocator) (key : Nat) (value : Val) : Option (Outcome Unit) :=
  if key = t.vlen + 1 then t.append A value else t.insert A (Val.ofNat key) value

/-- The loop of `setList`. -/
def setListLoop (A : Allocator) :
    List Val → (key : Nat) → (reserved hashMayMigrate : Bool) → Table → Option (Outcome Unit)
  | [], _, _, _, t => some (.ok (), t)
  | value :: values, key, reserved, hashMayMigrate, t => do
    let candidate ← t.bulkCandidate key value hashMayMigrate
    let bulk ← (if candidate then t.listHashCannotMigrate (1 + values.length) else some false)
    if bulk then
      match ← t.checkVlenGrowth (1 + values.length) with
      | .error e => return (.error e, t)
      | .ok () =>
        andThen (t.reserveArray A (t.array.length + (1 + values.length))) fun _ t =>
          some (.ok (), t.extendSlots (value :: values))
    else
      let first := key == t.vlen + 1 && !reserved
      let prepared ← (if first then t.prepareListAppend A (1 + values.length)
        else some (.ok (), t))
      andThen prepared fun _ t => do
        andThen (← t.setListElement A key value) fun _ t =>
          setListLoop A values (key + 1) (reserved || first) (hashMayMigrate || candidate) t

/-- Store the positional fields of a constructor at the keys `first..`. -/
def setList (A : Allocator) (first : Nat) (values : List Val) : Option (Outcome Unit) :=
  setListLoop A values first false false t

/-- Rotate the slots `low..=high` right by one. -/
def rotateRight (array : List Val) (low high : Nat) : Option (List Val) :=
  if low ≤ high + 1 then do
    let last ← array[high]?
    return if low ≤ high then
      array.take low ++ last :: (array.take high).drop low ++ array.drop (high + 1)
    else array
  else none

/-- Insert a value at an array position in `1..=arrayLen + 1`, shifting elements
    up. -/
def arrayInsert (A : Allocator) (pos : Nat) (value : Val) : Option (Outcome Unit) :=
  let len := t.arrayLen
  if pos = len + 1 then t.insert A (Val.ofNat pos) value
  else do
    -- The key `len` is live and lies inside the window; the key `len + 1` is
    -- nil and becomes the slot the rotation consumes.
    let structural := len == t.vlen
    let grown ← (if structural then t.appendGrowth
      else some (.ok (if len = t.base + t.array.length then 1 else 0)))
    match grown with
    | .error e => return (.error e, t)
    | .ok extra =>
      let liveDelta ← (if structural then checkedSub extra 1 else some 0)
      let reserved :=
        if pos ≤ t.base ∧ value.isLive then t.reserveOutsideWindow A pos extra liveDelta
        else t.reserveArray A (t.array.length + extra)
      andThen reserved fun _ t => do
        let t :=
          if structural then { t with vlen := t.vlen + 1 }.pushSlot .nil
          else if len = t.base + t.array.length then t.pushSlot .nil
          else t
        let low := max pos (t.base + 1) - t.base - 1
        let high ← checkedSub len t.base
        let array ← rotateRight t.array low high
        let t := { t with array := array }
        let t ← (if structural then t.migrateFromHash else some t)
        if t.base < pos then
          (t.writeWindow (pos - t.base - 1) value).map fun t => (.ok (), t)
        else if value.isLive then t.writeOutsideWindow A pos value
        else return (.ok (), t)

/-- Copy the slots `position + 1..last` down by one, and clear the last. -/
def shiftDown (array : List Val) (position last : Nat) : Option (List Val) :=
  if position + 1 ≤ last ∧ last ≤ array.length then
    some ((array.take position ++ (array.take last).drop (position + 1) ++
      array.drop (last - 1)).set (last - 1) .nil)
  else none

/-- Remove and return the value at a position, shifting later elements down; a
    position outside the sequence is cleared. -/
def arrayRemove (A : Allocator) (pos : Nat) : Option (Outcome Val) :=
  let len := t.arrayLen
  if 1 ≤ pos ∧ pos ≤ len then do
    let firstLive ← (if pos ≤ t.base then t.array[0]?.map Val.isLive else some false)
    let reserved :=
      if firstLive then
        let pad := min (t.base - 1) ((t.array.length + 1) / 2)
        t.reserveArray A (t.array.length + 1 + pad)
      else (.ok (), t)
    andThen reserved fun _ t => do
      let removed := t.arrayValue pos
      let last ← checkedSub len t.base
      if t.base < pos then
        let position := pos - t.base - 1
        let array ← shiftDown t.array position last
        let live ← checkedSub t.arrayLive removed.liveBit
        return (.ok removed, { t with
          array := array, arrayLive := live, lead := min t.lead position })
      else
        -- The keys `pos..base` are nil and stay nil; the key `base` receives
        -- the first value of the window.
        let first ← t.array[0]?
        let array ← shiftDown t.array 0 last
        let live ← checkedSub t.arrayLive first.liveBit
        let t := { t with array := array, arrayLive := live, lead := 0 }
        if first.isLive then
          andThen (← t.writeOutsideWindow A t.base first) fun _ t => some (.ok removed, t)
        else return (.ok removed, t)
  else
    let key := Val.ofNat pos
    let removed := t.get key
    (t.remove key).map fun t => (.ok removed, t)

/-! ## Traversal -/

/-- A position in iteration order: the array part first, then the hash part. -/
inductive Position
  | array (slot : Nat)
  | hash (slot : Nat)

/-- The first live slot from `start` on, with its position. -/
def findLive {α : Type} (value : α → Val) (slots : List α) (start : Nat) : Option (Nat × α) :=
  match (slots.drop start).findIdx? fun s => (value s).isLive with
  | some i => slots[start + i]?.map fun s => (start + i, s)
  | none => none

/-- The first live hash slot from `start` on. -/
def nextHash (start : Nat) : Option TableNextWithIndex :=
  match findLive Prod.snd t.storage.slots start with
  | some (i, key, value) => key.asLive.map fun k => .pair (.hash i) k value
  | none => some .finished

/-- Scan from a position in iteration order, skipping nil slots. -/
def nextLiveFrom (position : Position) : Option TableNextWithIndex :=
  match position with
  | .array start =>
    match findLive id t.array (max (start - t.base) t.lead) with
    | some (p, value) =>
      some (.pair (.array (t.base + p)) (Val.ofNat (t.base + p + 1)) value)
    | none => t.nextHash 0
  | .hash start => t.nextHash start

/-- Advance from a control key. A dead control slot remains valid, and any array
    key resumes the array scan, stored or not. -/
def nextWithIndex (control : Val) : Option TableNextWithIndex :=
  if control = .nil then t.nextLiveFrom (.array 0)
  else if !control.isValidTableKey then some .invalidKey
  else match t.arrayKey control with
    | some key => t.nextLiveFrom (.array key)
    | none =>
      match t.storage.position control with
      | some i => t.nextLiveFrom (.hash (i + 1))
      | none => some .invalidKey

/-- The pair that follows a key; nil asks for the first one. -/
def next (key : Val) : Option TableNext := (t.nextWithIndex key).map TableNextWithIndex.toNext

/-! ## Snapshots -/

/-- All hash slots, tombstones and vacant positions included; a map begins with
    a marker, which is not a slot. -/
def snapshotHashSlots : List (Val × Val) :=
  match t.storage with
  | .inline entries => entries
  | .map m _ => (.nil, .bool true) :: m.slots.map fun s => (s.1.asLive.getD .nil, s.2)

/-- The span of the live slots of the window: the first one, and one past the
    last one. -/
def liveSpan : Nat × Nat :=
  match t.array.findIdx? Val.isLive, t.array.reverse.findIdx? Val.isLive with
  | some first, some last => (first, t.array.length - last)
  | _, _ => (0, 0)

/-- The snapshot form: the logical array length, the number of leading entries
    that are array slots, and the entries. -/
def snapshotEntries : Nat × Nat × List (Val × Val) :=
  let (first, last) := t.liveSpan
  let out := ((t.array.take last).drop first).mapIdx fun offset value =>
    (Val.ofNat (t.base + first + offset + 1), value)
  (t.vlen, out.length, out ++ t.snapshotHashSlots)

/-- The key of the first array slot of a snapshot, as the number of array keys
    below it. -/
def snapshotBase (vlen arraySlots : Nat) (entries : List (Val × Val)) : Except TableError Nat :=
  if arraySlots = 0 then .ok 0
  else match entries.head? with
    | some (.num n, _) =>
      match arrayIndex n vlen with
      | some slot =>
        if slot + arraySlots ≤ vlen then .ok slot
        else .error (.invalidSnapshot .arraySlotHasWrongKey)
      | none => .error (.invalidSnapshot .arraySlotHasWrongKey)
    | _ => .error (.invalidSnapshot .arraySlotHasWrongKey)

/-- Whether a key is the array key with the given slot. -/
def isArrayKeyAt (vlen slot : Nat) : Val → Bool
  | .num n => arrayIndex n vlen == some slot
  | _ => false

/-- Add one saved hash slot to a table being rebuilt. -/
def rebuildSlot (entry : Val × Val) : Except TableError Table :=
  let (key, value) := entry
  if value.isLive && ((t.arrayKey key).isSome || t.isArrayAppendKey key) then
    .error (.invalidSnapshot .hashEntryBelongsInArray)
  else
    let dead := 1 - value.liveBit
    match t.storage with
    | .inline entries =>
      match TableKey.new key with
      | .error e => .error (.invalidKey e)
      | .ok _ => .ok { t with
          storage := .inline (entries ++ [(key, value)]), deadCount := t.deadCount + dead }
    | .map m policy =>
      let tableKey : Except InvalidTableKey TableKey :=
        if key = .nil ∧ ¬value.isLive then .ok (.vacant m.len) else TableKey.new key
      match tableKey with
      | .error e => .error (.invalidKey e)
      | .ok k => .ok { t with
          storage := .map (m.insert k value) policy, deadCount := t.deadCount + dead }

/-- Rebuild from the snapshot form. The table is replaced only when every entry
    is valid. -/
def rebuildFromSnapshot (vlen arraySlots : Nat) (entries : List (Val × Val)) :
    Outcome Unit :=
  if entries.length < arraySlots then
    (.error (.invalidSnapshot .arrayLengthExceedsEntries), t)
  else if maxArrayLen < vlen then (.error (.invalidSnapshot .arrayLengthExceedsLimit), t)
  else match snapshotBase vlen arraySlots entries with
    | .error e => (.error e, t)
    | .ok base =>
      let arrayEntries := entries.take arraySlots
      let rest := entries.drop arraySlots
      let isMap := rest.head? = some (.nil, .bool true)
      let capacity := rest.length - (if isMap then 1 else 0)
      let shell := withCapacity (if isMap then max capacity (inlineCapacity + 1) else capacity)
      if !(arrayEntries.zipIdx.all fun e => isArrayKeyAt vlen (base + e.2) e.1.1) then
        (.error (.invalidSnapshot .arraySlotHasWrongKey), t)
      else
        let array := arrayEntries.map Prod.snd
        let shell := { shell with
          array := array
          cap := array.length
          base := base
          vlen := vlen
          arrayLive := array.countP Val.isLive }
        match (if isMap then rest.tail else rest).foldlM (fun t e => t.rebuildSlot e) shell with
        | .error e => (.error e, t)
        | .ok rebuilt => (.ok (), { rebuilt with version := t.version + 1 })

/-- Put the contents of another table into this one, and return what it held.
    The version moves past both. -/
def swapContents (incoming : Table) : Table × Table :=
  ({ incoming with version := max incoming.version t.version + 1 }, t)

/-- Set how the hash part keeps its slots; inline storage becomes a map first. -/
def setSlotPolicy (policy : SlotPolicy) : Table :=
  match t.storage with
  | .inline entries =>
    let m := entries.foldl (fun m e => m.insert (.live e.1) e.2) (⟨[]⟩ : IndexMap TableKey Val)
    { t with storage := .map m policy }
  | .map m _ => { t with storage := .map m policy }

end Table

end Dellingr
