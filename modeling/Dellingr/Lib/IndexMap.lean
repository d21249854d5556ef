import Mathlib.Data.List.Basic

/-!
# Insertion-ordered maps

A map that keeps its slots in the order their keys were inserted, each slot
with a position. The keys are compared by a Boolean equality, which need not be
the structural one, and a lookup is given by a predicate on keys (a *query*).

Overwriting keeps a slot and its key, a new key takes a new last slot, and only
`retain` moves slots.
-/

/-- An insertion-ordered map: its slots, in order. -/
structure IndexMap (K V : Type*) where
  slots : List (K × V)
  deriving DecidableEq, Repr

namespace IndexMap

variable {K V : Type*}

/-- The number of slots. -/
def len (m : IndexMap K V) : Nat := m.slots.length

/-- The slot at a position. -/
def getIndex (m : IndexMap K V) (i : Nat) : Option (K × V) := m.slots[i]?

/-- The position of the key a query names. -/
def getIndexOf (m : IndexMap K V) (q : K → Bool) : Option Nat := m.slots.findIdx? fun s => q s.1

/-- The position, key and value of the key a query names. -/
def getFull (m : IndexMap K V) (q : K → Bool) : Option (Nat × K × V) :=
  (m.getIndexOf q).bind fun i => m.slots[i]?.map fun s => (i, s.1, s.2)

/-- The value of the key a query names. -/
def get (m : IndexMap K V) (q : K → Bool) : Option V := (m.slots.find? fun s => q s.1).map Prod.snd

/-- Write the value of the slot at a position. -/
def setIndex (m : IndexMap K V) (i : Nat) (v : V) : IndexMap K V :=
  ⟨m.slots.modify i fun s => (s.1, v)⟩

/-- Insert a value: a key already there keeps its slot, a new one is last. -/
def insert [BEq K] (m : IndexMap K V) (k : K) (v : V) : IndexMap K V :=
  match m.getIndexOf (· == k) with
  | some i => m.setIndex i v
  | none => ⟨m.slots ++ [(k, v)]⟩

/-- Rename the key of the slot at a position; `none` if another slot has it. -/
def replaceIndex [BEq K] (m : IndexMap K V) (i : Nat) (k : K) : Option (IndexMap K V) :=
  match m.getIndexOf (· == k) with
  | some j => if i = j then some ⟨m.slots.modify i fun s => (k, s.2)⟩ else none
  | none => some ⟨m.slots.modify i fun s => (k, s.2)⟩

/-- Keep the slots whose key and value satisfy `p`, in order. -/
def retain (m : IndexMap K V) (p : K → V → Bool) : IndexMap K V :=
  ⟨m.slots.filter fun s => p s.1 s.2⟩

/-- Writing values by position keeps the keys. -/
theorem map_fst_modify (slots : List (K × V)) (i : Nat) (v : V) :
    (slots.modify i fun s => (s.1, v)).map Prod.fst = slots.map Prod.fst := by
  apply List.ext_getElem?
  intro j
  simp only [List.getElem?_map, List.getElem?_modify]
  cases slots[j]? with
  | none => rfl
  | some s => by_cases h : i = j <;> simp [h]

/-- An insertion keeps the keys there are, each at its position. -/
theorem prefix_insert [BEq K] (m : IndexMap K V) (k : K) (v : V) :
    m.slots.map Prod.fst <+: (m.insert k v).slots.map Prod.fst := by
  rw [insert]
  split
  · simp [setIndex, map_fst_modify]
  · simp

end IndexMap
