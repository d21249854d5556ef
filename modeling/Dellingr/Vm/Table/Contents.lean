import Dellingr.Lib.AssocList
import Dellingr.Lib.Shift
import Dellingr.Vm.Table

/-!
# The contents of a table

What a table is for, apart from how it is stored: an array of `vlen` values, one
for each array key, beside an insertion-ordered map of the other keys that are
present. Nothing of the window, of tombstones or of the storage of the hash part
is left. The operations are the naive ones:

* `insert` overwrites an array slot, or a key of the map in place, or adds it
  last; the key after the last array key extends the array (`push`), which then
  pulls the keys that follow it out of the map (`migrate`);
* `border` is the length operator, a binary search over the whole array;
* `insertAt` and `removeAt` shift the sequence, `storeList` stores the positional
  fields of a constructor.

`Table.contents` and the theorems of `Dellingr.Vm.Table.Refinement` relate them
to the operations of the table.
-/

namespace Dellingr

open AssocList

/-- The contents of a table: the array, and the other keys in order. -/
structure Contents where
  arr : List Val
  hash : List (Val × Val)
  deriving DecidableEq, Repr

namespace Contents

def empty : Contents := ⟨[], []⟩

variable (c : Contents)

/-- The array slot of a key, if it is an array key. -/
def slot (key : Val) : Option Nat := key.slotBelow c.arr.length

/-- The value of a key that is not an array key. -/
def hashGet (key : Val) : Val := (lookup Val.eq c.hash key).getD .nil

/-- The value of a key. -/
def get (key : Val) : Val :=
  match c.slot key with
  | some i => c.arr.getD i .nil
  | none => c.hashGet key

/-- Pull the keys that follow the array out of the map, `fuel` at most. -/
def migrateLoop : Nat → Contents → Contents
  | 0, c => c
  | fuel + 1, c =>
    match lookup Val.eq c.hash (Val.ofNat (c.arr.length + 1)) with
    | some v => migrateLoop fuel ⟨c.arr ++ [v], erase Val.eq c.hash (Val.ofNat (c.arr.length + 1))⟩
    | none => c

/-- Pull all the keys that follow the array out of the map. -/
def migrate : Contents := migrateLoop c.hash.length c

/-- Extend the array by a value. -/
def push (v : Val) : Contents := migrate ⟨c.arr ++ [v], c.hash⟩

/-- Assign a value to a key; nil deletes the key. -/
def insert (key value : Val) : Contents :=
  match c.slot key with
  | some i => { c with arr := c.arr.set i value }
  | none =>
    if value = .nil then { c with hash := erase Val.eq c.hash key }
    else if key.toNat? = some (c.arr.length + 1) then c.push value
    else { c with hash := assign Val.eq c.hash key value }

/-- The binary search of `border`. -/
def borderLoop (arr : List Val) : Nat → Nat → Nat → Nat
  | 0, lo, _ => lo
  | fuel + 1, lo, hi =>
    if 1 < hi - lo then
      let mid := lo + (hi - lo) / 2
      if arr.getD (mid - 1) .nil = .nil then borderLoop arr fuel lo mid
      else borderLoop arr fuel mid hi
    else lo

/-- The length operator. -/
def border : Nat :=
  if c.arr.getLast?.any Val.isLive then c.arr.length
  else borderLoop c.arr c.arr.length 0 c.arr.length

/-- Insert a value at a position of the sequence, shifting its elements up. -/
def insertAt (pos : Nat) (value : Val) : Contents :=
  let len := c.border
  if pos = len + 1 then c.insert (Val.ofNat pos) value
  else
    let shifted := { c with arr := Shift.up c.arr (pos - 1) len value }
    if len < c.arr.length then shifted else shifted.migrate

/-- Remove the value at a position, shifting later elements down. -/
def removeAt (pos : Nat) : Val × Contents :=
  let len := c.border
  if 1 ≤ pos ∧ pos ≤ len then
    (c.arr.getD (pos - 1) .nil, { c with arr := Shift.down c.arr (pos - 1) len .nil })
  else (c.get (Val.ofNat pos), c.insert (Val.ofNat pos) .nil)

/-- Store the value of one positional field: nil still occupies its slot. -/
def storeElement (key : Nat) (value : Val) : Contents :=
  if key = c.arr.length + 1 then c.push value else c.insert (Val.ofNat key) value

/-- Store the positional fields of a constructor. -/
def storeList (c : Contents) (first : Nat) : List Val → Contents
  | [] => c
  | v :: vs => storeList (c.storeElement first v) (first + 1) vs

/-- The keys present, in the order of a traversal. -/
def pairs : List (Val × Val) :=
  ((c.arr.zipIdx.map fun e => (Val.ofNat (e.2 + 1), e.1)).filter fun e => e.2.isLive) ++ c.hash

/-! ## Migration -/

variable {c} {fuel : Nat}

/-- Enough fuel for every key gives the same migration. -/
theorem migrateLoop_congr {m : Nat} (hf : c.hash.length ≤ fuel) (hm : c.hash.length ≤ m) :
    migrateLoop fuel c = migrateLoop m c := by
  have hnil : ∀ {n : Nat} {c : Contents}, c.hash.length ≤ 0 → migrateLoop n c = c := by
    intro n c h
    have hc := List.length_eq_zero_iff.1 (Nat.le_zero.1 h)
    cases n <;> simp [migrateLoop, hc, lookup]
  induction fuel generalizing c m with
  | zero => rw [hnil hf, hnil hf]
  | succ fuel ih =>
    cases m with
    | zero => rw [hnil hm, hnil hm]
    | succ m =>
      simp only [migrateLoop]
      split
      · rename_i v hv
        have hlt := length_erase_lt hv
        exact ih (Nat.le_of_lt_succ (hlt.trans_le hf)) (Nat.le_of_lt_succ (hlt.trans_le hm))
      · rfl

theorem migrateLoop_of_le (h : c.hash.length ≤ fuel) : migrateLoop fuel c = c.migrate :=
  migrateLoop_congr h (Nat.le_refl _)

/-- Migration ends with the key that follows the array absent. -/
theorem lookup_migrateLoop (h : c.hash.length < fuel) : lookup Val.eq (migrateLoop fuel c).hash
    (Val.ofNat ((migrateLoop fuel c).arr.length + 1)) = none := by
  induction fuel generalizing c with
  | zero => omega
  | succ fuel ih =>
    rw [migrateLoop]
    split
    · rename_i v hv
      exact ih ((length_erase_lt hv).trans_le (Nat.le_of_lt_succ h))
    · assumption

/-- Migration stops before an absent key. -/
theorem length_migrateLoop_le {last : Nat} (hle : c.arr.length ≤ last)
    (h : Absent Val.eq c.hash (Val.ofNat (last + 1))) :
    (migrateLoop fuel c).arr.length ≤ last := by
  induction fuel generalizing c with
  | zero => exact hle
  | succ fuel ih =>
    rw [migrateLoop]
    split
    · rename_i v hv
      refine ih ?_ (absent_erase h)
      rcases Nat.lt_or_ge c.arr.length last with hlt | hge
      · rw [List.length_append]
        exact hlt
      · obtain rfl := Nat.le_antisymm hle hge
        rw [lookup_of_absent h] at hv
        simp at hv
    · exact hle

theorem length_le_migrateLoop : c.arr.length ≤ (migrateLoop fuel c).arr.length := by
  induction fuel generalizing c with
  | zero => exact Nat.le_refl _
  | succ fuel ih =>
    rw [migrateLoop]
    split
    · refine Nat.le_trans ?_ ih
      simp
    · exact Nat.le_refl _

theorem length_le_migrate : c.arr.length ≤ c.migrate.arr.length := length_le_migrateLoop

/-- How far migration goes depends on the array only by its length. -/
theorem length_migrateLoop_congr {d : Contents} (hl : c.arr.length = d.arr.length)
    (hh : c.hash = d.hash) :
    (migrateLoop fuel c).arr.length = (migrateLoop fuel d).arr.length := by
  induction fuel generalizing c d with
  | zero => exact hl
  | succ fuel ih =>
    simp only [migrateLoop, hl, hh]
    split
    · exact ih (by simp [hl]) rfl
    · exact hl

theorem length_migrate_congr {d : Contents} (hl : c.arr.length = d.arr.length)
    (hh : c.hash = d.hash) : c.migrate.arr.length = d.migrate.arr.length := by
  rw [migrate, migrate, hh]
  exact length_migrateLoop_congr hl hh

/-! ## The border -/

/-- A border of an array: the slot before it is live, the slot at it is not. -/
structure IsBorder (arr : List Val) (b : Nat) : Prop where
  le : b ≤ arr.length
  live : b = 0 ∨ arr.getD (b - 1) .nil ≠ .nil
  dead : arr.getD b .nil = .nil

/-- The binary search keeps a live slot below and a nil slot above. -/
theorem borderLoop_isBorder {arr : List Val} {lo hi : Nat} (hlt : lo < hi) (hle : hi ≤ arr.length)
    (hf : hi - lo ≤ fuel) (hlo : lo = 0 ∨ arr.getD (lo - 1) .nil ≠ .nil)
    (hhi : arr.getD (hi - 1) .nil = .nil) : IsBorder arr (borderLoop arr fuel lo hi) := by
  induction fuel generalizing lo hi with
  | zero => omega
  | succ fuel ih =>
    rw [borderLoop]
    split
    · simp only
      split
      · exact ih (by omega) (by omega) (by omega) hlo ‹_›
      · exact ih (by omega) hle (by omega) (.inr ‹_›) hhi
    · obtain rfl : hi = lo + 1 := by omega
      exact ⟨by omega, hlo, hhi⟩

theorem border_isBorder : IsBorder c.arr c.border := by
  rw [border]
  rcases List.eq_nil_or_concat c.arr with hnil | ⟨init, last, hc⟩
  · rw [hnil]
    exact ⟨Nat.le_refl _, .inl rfl, rfl⟩
  · rw [List.concat_eq_append] at hc
    have hlast : c.arr.getLast?.any Val.isLive = last.isLive := by simp [hc]
    have hget : c.arr.getD (c.arr.length - 1) .nil = last := by simp [hc]
    rw [hlast]
    split
    · refine ⟨Nat.le_refl _, .inr ?_, by simp⟩
      rw [hget]
      exact Val.isLive_iff.1 ‹_›
    · refine borderLoop_isBorder (by simp [hc]) (Nat.le_refl _) (by simp) (.inl rfl) ?_
      rw [hget]
      exact Val.isLive_eq_false.1 (by simpa using ‹¬last.isLive = true›)

end Contents

end Dellingr
