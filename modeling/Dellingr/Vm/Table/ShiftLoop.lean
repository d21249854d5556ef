import Dellingr.Lib.SlotShift
import Dellingr.Vm.Table.Access

/-!
# Shifting key by key

A sequence can be shifted by reading one key and assigning the next one, from the end to a position
(`Flat.shiftUp`) or from a position to the end (`Flat.shiftDown`). Only the first assignment can be to a key
after the array, and it is then an append, which pulls keys out of the hash part and may be refused.
All others overwrite slots of the array, which what was pulled does not depend on
(`Flat.migrate_copyUp`).

So the loop that inserts a value (`insertLoop`) and the loop that removes one (`removeLoop`) leave the flat
table that the operation in place leaves, tombstones and storage included.
-/

namespace Dellingr

namespace Flat

variable {f : Flat} {pos n i : Nat} {v : Val}

/-- Assign to each of the `n` keys after `pos` the value of the key before it, the last one first. -/
def shiftUp (f : Flat) (pos : Nat) : Nat → Except TableError Unit × Flat
  | 0 => (.ok (), f)
  | n + 1 =>
    match f.insert (Val.ofNat (pos + n + 1)) (f.get (Val.ofNat (pos + n))) with
    | (.error e, f) => (.error e, f)
    | (.ok _, f) => shiftUp f pos n

/-- Assign to each of the `n` keys from `pos` on the value of the key after it, the first one first. -/
def shiftDown (f : Flat) (pos : Nat) : Nat → Except TableError Unit × Flat
  | 0 => (.ok (), f)
  | n + 1 =>
    match f.insert (Val.ofNat pos) (f.get (Val.ofNat (pos + 1))) with
    | (.error e, f) => (.error e, f)
    | (.ok _, f) => shiftDown f (pos + 1) n

/-- Shift the `n` keys from `pos` on up, and assign the value. -/
def insertLoop (f : Flat) (pos n : Nat) (v : Val) : Except TableError Unit × Flat :=
  match f.shiftUp pos n with
  | (.error e, f) => (.error e, f)
  | (.ok _, f) => f.insert (Val.ofNat pos) v

/-- Shift the `n` keys after `pos` down, and delete the last one. -/
def removeLoop (f : Flat) (pos n : Nat) : Except TableError Unit × Flat :=
  match f.shiftDown pos n with
  | (.error e, f) => (.error e, f)
  | (.ok _, f) => f.insert (Val.ofNat (pos + n)) .nil

/-! ## The array -/

theorem slot_ofNat (h : f.arr.length ≤ maxArrayLen) (hi : i < f.arr.length) : f.slot (Val.ofNat (i + 1)) = some i :=
  Val.slotBelow_eq_some.2 ⟨Val.toNat?_ofNat ((by omega : i + 1 ≤ maxArrayLen).trans (by decide)), hi⟩

theorem get_slot (h : f.arr.length ≤ maxArrayLen) (hi : i < f.arr.length) :
    f.get (Val.ofNat (i + 1)) = f.arr.getD i .nil := by
  rw [get, slot_ofNat h hi]

theorem insert_slot (h : f.arr.length ≤ maxArrayLen) (hi : i < f.arr.length) :
    f.insert (Val.ofNat (i + 1)) v = (.ok (), { f with arr := f.arr.set i v }) := by
  rw [insert, slot_ofNat h hi]

/-- Shifting keys of the array up moves its slots. -/
theorem shiftUp_slots (h : f.arr.length ≤ maxArrayLen) (hn : i + n < f.arr.length) :
    f.shiftUp (i + 1) n = (.ok (), { f with arr := Shift.copyUp .nil f.arr i n }) := by
  induction n generalizing f with
  | zero => rfl
  | succ n ih =>
    have hkey : i + 1 + n = i + n + 1 := by omega
    rw [shiftUp, hkey, get_slot h (by omega), insert_slot h (by omega : i + n + 1 < f.arr.length)]
    have hlen : (f.arr.set (i + n + 1) (f.arr.getD (i + n) .nil)).length = f.arr.length := List.length_set
    exact ih (by rw [hlen]; exact h) (by rw [hlen]; omega)

/-- Shifting keys of the array down moves its slots. -/
theorem shiftDown_slots (h : f.arr.length ≤ maxArrayLen) (hn : i + n < f.arr.length) :
    f.shiftDown (i + 1) n = (.ok (), { f with arr := Shift.copyDown .nil f.arr i n }) := by
  induction n generalizing f i with
  | zero => rfl
  | succ n ih =>
    rw [shiftDown, get_slot h (by omega : i + 1 < f.arr.length), insert_slot h (by omega)]
    have hlen : (f.arr.set i (f.arr.getD (i + 1) .nil)).length = f.arr.length := List.length_set
    exact ih (by rw [hlen]; exact h) (by rw [hlen]; omega)

/-! ## Migration -/

/-- Migration only extends the array. -/
theorem prefix_migrateLoop {fuel : Nat} {m : Bool} : f.arr <+: (migrateLoop fuel m f).2.arr := by
  induction fuel generalizing f m with
  | zero => exact List.prefix_rfl
  | succ fuel ih =>
    rw [migrateLoop]
    rcases f.hashTable.hashRemove (Val.ofNat (f.arr.length + 1)) with ⟨_ | w, t⟩
    · exact List.prefix_rfl
    · exact (List.prefix_append f.arr [w]).trans (@ih { f.withHash t with arr := f.arr ++ [w] } true)

theorem prefix_migrate : f.arr <+: f.migrate.arr := by
  rw [migrate]
  split
  · exact List.prefix_rfl
  · have hpre := @prefix_migrateLoop f (f.storage.len + 1) false
    dsimp only
    split
    · exact hpre
    · exact hpre

/-- Moving slots of the array commutes with migration. -/
theorem migrate_copyUp (hn : i + n < f.arr.length) :
    ({ f with arr := Shift.copyUp .nil f.arr i n } : Flat).migrate =
      { f.migrate with arr := Shift.copyUp .nil f.migrate.arr i n } := by
  induction n generalizing f with
  | zero => rfl
  | succ n ih =>
    have hget : f.migrate.arr.getD (i + n) .nil = f.arr.getD (i + n) .nil := by
      obtain ⟨rest, hrest⟩ := @prefix_migrate f
      rw [← hrest, List.getD_eq_getElem?_getD, List.getD_eq_getElem?_getD, List.getElem?_append_left (by omega)]
    have hset := @migrate_set f (f.arr.getD (i + n) .nil) (i + n + 1) (by omega)
    rw [Shift.copyUp, Shift.copyUp, hget]
    have hih := @ih { f with arr := f.arr.set (i + n + 1) (f.arr.getD (i + n) .nil) }
      (by rw [List.length_set]; omega)
    rw [hset] at hih
    exact hih

/-! ## Inserting -/

theorem insert_append (h : f.arr.length ≤ maxArrayLen) (hv : v ≠ .nil) :
    f.insert (Val.ofNat (f.arr.length + 1)) v = f.append v := by
  have hkey : (Val.ofNat (f.arr.length + 1)).toNat? = some (f.arr.length + 1) :=
    Val.toNat?_ofNat ((Nat.succ_le_succ h).trans (by decide))
  have hslot : f.slot (Val.ofNat (f.arr.length + 1)) = none := by
    rw [slot, Val.slotBelow, hkey]
    exact if_neg (Nat.lt_irrefl _)
  obtain ⟨k, hk⟩ := Val.isValidTableKey_iff.1 (Val.isValidTableKey_of_toNat? hkey)
  have hnew : TableKey.new (Val.ofNat (f.arr.length + 1)) = .ok (TableKey.live (Val.ofNat (f.arr.length + 1))) := by
    rw [TableKey.new, hk]
    rfl
  rw [insert, hslot, hnew]
  simp only [hv, if_false, hkey, if_true]

/-- The loop that shifts a sequence up leaves what inserting in place leaves. -/
theorem insertLoop_eq (h : f.Ok) {len : Nat} (hlen : Contents.border ⟨f.arr, []⟩ = len) (h₁ : 1 ≤ pos)
    (h₂ : pos ≤ len + 1) : f.insertLoop pos (len + 1 - pos) v = f.arrayInsert pos v := by
  have hmax := h.len_le
  have hb := Contents.border_isBorder (c := ⟨f.arr, []⟩)
  rw [hlen] at hb
  rw [insertLoop, arrayInsert, hlen]
  by_cases hend : pos = len + 1
  · -- Nothing is shifted.
    rw [if_pos hend, hend, Nat.sub_self]
    rfl
  have hle : len ≤ f.arr.length := hb.le
  obtain ⟨i, rfl⟩ : ∃ i, pos = i + 1 := ⟨pos - 1, by omega⟩
  obtain ⟨n, hn⟩ : ∃ n, len + 1 - (i + 1) = n + 1 := ⟨len - 1 - i, by omega⟩
  rw [if_neg hend, hn, Nat.add_sub_cancel]
  by_cases hlt : len < f.arr.length
  · -- Every key is in the array.
    rw [if_pos hlt, shiftUp_slots hmax (by omega)]
    simp only
    rw [insert_slot (by rw [Shift.length_copyUp]; exact hmax) (by rw [Shift.length_copyUp]; omega),
      Shift.set_copyUp (by omega), show i + (n + 1) = len by omega]
  · -- The first assignment is an append.
    have hfull : f.arr.length = len := by omega
    have hlive : f.arr.getD (len - 1) .nil ≠ .nil := hb.live.resolve_left (by omega)
    have hget : f.get (Val.ofNat (i + 1 + n)) = f.arr.getD (len - 1) .nil := by
      rw [show i + 1 + n = len - 1 + 1 by omega, get_slot hmax (by omega)]
    rw [if_neg hlt, shiftUp, hget, show i + 1 + n + 1 = f.arr.length + 1 by omega, insert_append hmax hlive, append]
    cases hg : f.growth with
    | error e => rfl
    | ok m =>
      simp only
      -- The rest overwrites slots of the array, as it does before the migration.
      obtain ⟨g, hgdef⟩ : ∃ g : Flat, { f with arr := f.arr ++ [f.arr.getD (len - 1) .nil] } = g := ⟨_, rfl⟩
      have hglen : g.arr.length = len + 1 := by rw [← hgdef, List.length_append, hfull]; rfl
      have hmig : g.migrate.arr.length ≤ maxArrayLen := by
        obtain ⟨-, hle'⟩ := @growth_spec f _ (f.arr.getD (len - 1) .nil) _ h hg
        have hspec := @migrate_spec g (by
          rw [← hgdef]
          exact ⟨(Contents.length_le_migrate).trans hle', by simpa using h.hash⟩) (by rw [← hgdef]; exact hle')
        exact hspec.2.1.len_le
      have hpre : g.arr.length ≤ g.migrate.arr.length := prefix_migrate.length_le
      rw [hgdef, shiftUp_slots hmig (by omega)]
      simp only
      rw [insert_slot (by rw [Shift.length_copyUp]; exact hmig) (by rw [Shift.length_copyUp]; omega),
        ← @migrate_copyUp g n i (by omega)]
      have hset := @migrate_set { g with arr := Shift.copyUp .nil g.arr i n } v i (by rw [Shift.length_copyUp]; omega)
      simp only [Shift.set_copyUp (show i + n < g.arr.length by omega)] at hset
      rw [← hset, ← hgdef]
      have hup := @Shift.up_concat _ .nil f.arr i v len (by omega) hfull
      rw [show i + n = len - 1 by omega]
      simp only [hup]

/-! ## Removing -/

/-- Deleting a key that has a natural number. -/
theorem insert_nil_ofNat (hpos : pos ≤ 2 ^ 53) :
    f.insert (Val.ofNat pos) .nil = (.ok (), f.remove (Val.ofNat pos)) := by
  obtain ⟨k, hk⟩ := Val.isValidTableKey_iff.1 (Val.isValidTableKey_of_toNat? (Val.toNat?_ofNat hpos))
  have hnew : TableKey.new (Val.ofNat pos) = .ok (TableKey.live (Val.ofNat pos)) := by
    rw [TableKey.new, hk]
    rfl
  rw [insert, remove]
  cases f.slot (Val.ofNat pos) with
  | some i => rfl
  | none =>
    rw [hnew]
    simp only [if_true]

/-- The loop that shifts a sequence down leaves what removing in place leaves, and what is removed is the value
    of the position before. -/
theorem removeLoop_eq (h : f.Ok) {len : Nat} (hlen : Contents.border ⟨f.arr, []⟩ = len) (h₁ : 1 ≤ pos ∨ len = 0)
    (h₂ : pos ≤ len + 1) :
    f.removeLoop pos (len - pos) = (.ok (), (f.arrayRemove pos).2) ∧ (f.arrayRemove pos).1 = f.get (Val.ofNat pos) := by
  have hmax := h.len_le
  have hle : len ≤ f.arr.length := hlen ▸ border_le
  rw [removeLoop, arrayRemove, hlen]
  by_cases hin : 1 ≤ pos ∧ pos ≤ len
  · obtain ⟨i, rfl⟩ : ∃ i, pos = i + 1 := ⟨pos - 1, by omega⟩
    obtain ⟨n, rfl⟩ : ∃ n, len = i + n + 1 := ⟨len - 1 - i, by omega⟩
    rw [if_pos hin, show i + n + 1 - (i + 1) = n by omega, shiftDown_slots hmax (by omega), Nat.add_sub_cancel]
    refine ⟨?_, (get_slot hmax (by omega)).symm⟩
    simp only
    rw [show i + 1 + n = i + n + 1 by omega,
      insert_slot (by rw [Shift.length_copyDown]; exact hmax) (by rw [Shift.length_copyDown]; omega),
      Shift.set_copyDown (by omega)]
  · -- Nothing is shifted.
    have hmax' : maxArrayLen + 1 ≤ 2 ^ 53 := by decide
    rw [if_neg hin, show len - pos = 0 by omega]
    exact ⟨insert_nil_ofNat (by omega), rfl⟩

end Flat

end Dellingr
