import Dellingr.Vm.Table

/-!
# Slot tokens

What an inline cache holds to find a key again without a lookup. A token names a
position, and the shape version of the table when it was minted; only the table
mints it, from a lookup by key, and only the table interprets it. Every token
rests on one rule (`Dellingr.Vm.Table.Shape`): while the version of a table is
unchanged, every hash slot keeps its key. A slot may die and revive in place, and
new slots may be appended, but nothing is removed, reordered or renamed.

* A `SlotRef` names a slot that held a live value for its key;
* a `HashProbe` names the slot of a key, live or a tombstone, or proves that the
  key had none; it serves tables that revive keys in place.

A token does not name its table, nor its key: its holder keeps both.
-/

namespace Dellingr

/-- A slot that held a live value for some key when it was minted. -/
structure SlotRef where
  version : UInt64
  index : SlotIndex
  deriving DecidableEq, Repr

/-- What a probe found for a key: its hash slot, or that it had none. -/
structure HashProbe where
  version : UInt64
  /-- The slot's index when `present`, else the hash slot count. -/
  position : Nat
  present : Bool
  deriving DecidableEq, Repr

/-- A slot position whose key is checked again on every use. -/
structure KeyedIndex where
  index : SlotIndex
  deriving DecidableEq, Repr

namespace Table

variable (t : Table)

/-! ## The primitives -/

/-- The live slot of a key, and its value. -/
def getWithIndex (key : Val) : Option (SlotIndex × Val) :=
  match t.arraySlot key with
  | some slot =>
    let value := t.array.getD slot .nil
    if value.isLive then some (.array (t.base + slot), value) else none
  | none =>
    if !key.isValidTableKey then none
    else match t.storage.position key with
      | some i =>
        match t.storage.slotAt i with
        | some (_, value) => if value.isLive then some (.hash i, value) else none
        | none => none
      | none => none

/-- The value half of `getIndex`. -/
def getIndexValue (index : SlotIndex) : Option Val :=
  match index with
  | .array slot =>
    match t.windowPosition slot with
    | some position =>
      let value := t.array.getD position .nil
      if value.isLive then some value else none
    | none => none
  | .hash i =>
    match t.storage.slotAt i with
    | some (_, value) => if value.isLive then some value else none
    | none => none

/-- The value of a hash slot, nil for a tombstone or a vacant slot; `none` past the
    last slot. -/
def hashSlotValue (i : Nat) : Option Val := (t.storage.slotAt i).map Prod.snd

/-- The hash slot of a key, live or a tombstone, and its value. -/
def hashSlotOf (key : Val) : Option (Nat × Val) :=
  if !key.isValidTableKey then none
  else match t.storage.position key with
    | some i => (t.storage.slotAt i).map fun s => (i, s.2)
    | none => none

/-! ## Live slots -/

/-- The live slot of a key as a token, and its value. -/
def findSlot (key : Val) : Option (SlotRef × Val) :=
  (t.getWithIndex key).map fun e => (⟨t.version, e.1⟩, e.2)

/-- Whether a token is current. -/
def slotIsCurrent (slot : SlotRef) : Bool := slot.version == t.version

/-- The value of a current slot: `none` when the version has moved, `some none` when
    the slot has died since. -/
def slotValue? (slot : SlotRef) : Option (Option Val) :=
  if slot.version == t.version then some (t.getIndexValue slot.index) else none

/-- The live value of a current slot. -/
def readSlot (slot : SlotRef) : Option Val := (t.slotValue? slot).join

/-- After the version moved: a token at the current version, if the slot still holds
    the key live. -/
def renewSlot (slot : SlotRef) (key : Val) : Option (Option (SlotRef × Val)) :=
  (t.getIndex slot.index).map fun e => e.bind fun e =>
    if e.1.eq key then some (⟨t.version, slot.index⟩, e.2) else none

/-- Overwrite a live slot through a token just found or validated; `false` for a
    slot that has died. -/
def storeSlot (slot : SlotRef) (value : Val) : Bool × Table := t.setAtIndex slot.index value

/-- Remove the live entry of a token just found. -/
def removeSlot (slot : SlotRef) : Option (Bool × Table) := t.removeAtIndex slot.index

/-- The live slot of a key, as a position whose key is checked. -/
def findKeyed (key : Val) : Option (KeyedIndex × Val) :=
  (t.getWithIndex key).map fun e => (⟨e.1⟩, e.2)

/-- The live value at a position if its key is the given one, whatever the version. -/
def valueIfKey (position : KeyedIndex) (key : Val) : Option (Option Val) :=
  (t.getIndex position.index).map fun e => e.bind fun e => if e.1.eq key then some e.2 else none

/-! ## Probes -/

/-- Probe for a key: its hash slot, live or a tombstone, or its absence; with its
    value. -/
def probeHash (key : Val) : HashProbe × Val :=
  match t.hashSlotOf key with
  | some (i, value) => (⟨t.version, i, true⟩, value)
  | none => (⟨t.version, t.hashSlotCount, false⟩, .nil)

/-- The value of the key if the probe still answers for it, nil included. -/
def readProbe (probe : HashProbe) : Option Val :=
  if probe.version ≠ t.version then none
  else if probe.present then t.hashSlotValue probe.position
  else if probe.position = t.hashSlotCount then some .nil else none

/-- Store a value, nil included, into the slot a probe found, if it is still current.
    A live store over a live value needs no count of tombstones. -/
def storeProbe (probe : HashProbe) (value : Val) : Option (Bool × Table) :=
  if probe.version ≠ t.version ∨ !probe.present then some (false, t)
  else if value = .nil then t.writeSlot probe.position value
  else match t.setAtIndex (.hash probe.position) value with
    | (true, t') => some (true, t')
    | (false, t') => t'.writeSlot probe.position value

end Table

end Dellingr
