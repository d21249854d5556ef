import Dellingr.Vm.Table.Access
import Dellingr.Vm.Table.TokenSound

/-!
# Reads and stores through slots

A lookup that gives a slot gives the value of its key, and no slot where the key is nil. What a cache holds
for a string key is a token that *serves* the key: unless it is stale, it names the slot of the key
(`Table.Serves`). A token that a lookup minted serves its key however the table changed since, and so does one
that was renewed.

A store through the slot of a key, or its removal, is the assignment of the key.
-/

namespace Dellingr

open Val

namespace Table

variable {t t' : Table} {key v w : Val} {s : StringPtr} {slot : SlotRef} {i n : Nat} {index : SlotIndex}

/-! ## Lookups -/

/-- A lookup finds the slot of a key that has a value, and none otherwise. -/
theorem getWithIndex_cases (h : t.Ok) (key : Val) :
    (∃ index, t.getWithIndex key = some (index, t.get key) ∧ t.get key ≠ .nil ∧
      ∃ k, t.getIndex index = some (some (k, t.get key)) ∧ k.eq key = true) ∨
    t.getWithIndex key = none ∧ t.get key = .nil := by
  rw [getWithIndex, get]
  cases hs : t.arraySlot key with
  | some p =>
    obtain ⟨hkey, hp⟩ := arraySlot_eq_some.1 hs
    simp only
    by_cases hl : (t.array.getD p .nil).isLive = true
    · rw [if_pos hl]
      refine .inl ⟨_, rfl, isLive_iff.1 hl, Val.ofNat (t.base + p + 1), ?_, ?_⟩
      · rw [getIndex]
        simp only [windowPosition_eq_some.2 ⟨rfl, hp⟩, hl, if_true]
      · have hlt : t.base + p + 1 ≤ 2 ^ 53 := by
          have hwin := h.window.window_le
          have hlen : t.vlen ≤ 2 ^ 53 := h.vlen_le.trans (by decide)
          omega
        exact eq_of_toNat? (toNat?_ofNat hlt) hkey
    · rw [if_neg hl]
      exact .inr ⟨rfl, isLive_eq_false.1 (Bool.eq_false_iff.2 hl)⟩
  | none =>
    simp only [hashGet_eq, TableStorage.position_eq]
    cases hvalid : key.isValidTableKey with
    | false => exact .inr ⟨rfl, rfl⟩
    | true =>
      simp only [Bool.not_true, Bool.false_eq_true, if_false, if_true]
      cases hf : t.storage.slots.findIdx? fun e => TableKey.lookup key e.1 with
      | none =>
        have habs := absent_of_findIdx? hf
        refine .inr ⟨rfl, ?_⟩
        rw [List.find?_eq_none.2 fun e he => by simpa using habs e he]
        rfl
      | some i =>
        obtain ⟨B, k, w, C, hS, hi, hk, hB⟩ := exists_split_of_findIdx? hf
        have hslot : t.storage.slots[i]? = some (.live k, w) := by simp [hS, ← hi]
        have hfind : t.storage.slots.find? (fun e => TableKey.lookup key e.1) = some (.live k, w) := by
          rw [hS, List.find?_append, List.find?_eq_none.2 fun e he => by simpa using hB e he]
          simp [TableKey.lookup, hk]
        simp only [hfind, TableStorage.slotAt_eq, hslot, Option.map_some, Option.getD_some]
        by_cases hl : w.isLive = true
        · rw [if_pos hl]
          refine .inl ⟨_, rfl, isLive_iff.1 hl, k, ?_, hk⟩
          simp only [getIndex, TableStorage.slotAt_eq, hslot, hl, if_true]
          rfl
        · rw [if_neg hl]
          exact .inr ⟨rfl, isLive_eq_false.1 (Bool.eq_false_iff.2 hl)⟩

theorem findSlot_of_get (h : t.Ok) (hkey : t.get key ≠ .nil) :
    ∃ slot, t.findSlot key = some (slot, t.get key) ∧
      ∃ k, t.getIndex slot.index = some (some (k, t.get key)) ∧ k.eq key = true := by
  obtain ⟨index, hi, -, hk⟩ := (getWithIndex_cases h key).resolve_right fun hn => hkey hn.2
  exact ⟨⟨t.version, index⟩, by rw [findSlot, hi]; rfl, hk⟩

theorem findSlot_eq_none (h : t.Ok) : t.findSlot key = none ↔ t.get key = .nil := by
  rw [findSlot, Option.map_eq_none_iff]
  rcases getWithIndex_cases h key with ⟨index, hi, hne, -⟩ | ⟨hi, hnil⟩
  · exact ⟨fun hn => (by cases hi.symm.trans hn), fun hn => absurd hn hne⟩
  · exact ⟨fun _ => hnil, fun _ => hi⟩

theorem get_of_findSlot (h : t.Ok) (hf : t.findSlot key = some (slot, v)) : t.get key = v ∧ v ≠ .nil := by
  have hne : t.get key ≠ .nil := fun hn => by cases hf.symm.trans ((findSlot_eq_none h).2 hn)
  obtain ⟨slot', hf', -⟩ := findSlot_of_get h hne
  obtain ⟨-, rfl⟩ := Prod.mk.inj (Option.some.inj (hf.symm.trans hf'))
  exact ⟨rfl, hne⟩

theorem findKeyed_eq_none (h : t.Ok) : t.findKeyed key = none ↔ t.get key = .nil := by
  rw [← findSlot_eq_none h, findKeyed, findSlot, Option.map_eq_none_iff, Option.map_eq_none_iff]

theorem get_of_findKeyed (h : t.Ok) {position : KeyedIndex} (hf : t.findKeyed key = some (position, v)) :
    t.get key = v ∧ v ≠ .nil := by
  rw [findKeyed, Option.map_eq_some_iff] at hf
  obtain ⟨⟨index, w⟩, hi, he⟩ := hf
  obtain ⟨-, rfl⟩ := Prod.mk.inj he
  exact @get_of_findSlot _ _ _ ⟨t.version, index⟩ h (by rw [findSlot, hi]; rfl)

/-! ## Tokens of string keys -/

/-- Unless it is stale, a token names the slot of a string key. -/
def Serves (t : Table) (s : StringPtr) (slot : SlotRef) : Prop :=
  slot.version = t.version → ∃ i w, slot.index = .hash i ∧ t.storage.slots[i]? = some (.live (.str s), w)

/-- A token serves its key as long as the version has not moved all the way round. -/
theorem serves_of_run (h : t.Ok) (hf : t.findSlot (.str s) = some (slot, v)) (hrun : VersionRun t n t')
    (hn : n < 2 ^ 64) : t'.Serves s slot := by
  obtain ⟨hver, i, hidx, hi⟩ := slot_of_findSlot h.flat.hash.slots_ok hf
  intro hcur
  obtain ⟨w, hi'⟩ := hrun.slot h hn (hcur.symm.trans hver) hi
  exact ⟨i, w, hidx, hi'⟩

theorem serves_of_findSlot (h : t.Ok) (hf : t.findSlot (.str s) = some (slot, v)) : t.Serves s slot :=
  serves_of_run h hf .refl (by decide)

/-- A current token gives the value of its key, or says that it is nil. -/
theorem Serves.slotValue? (hs : t.Serves s slot) (h : t.Ok) {o : Option Val} (ho : t.slotValue? slot = some o) :
    o = if t.get (.str s) = .nil then none else some (t.get (.str s)) := by
  rw [Table.slotValue?] at ho
  split at ho
  · rename_i hver
    obtain ⟨i, w, hidx, hi⟩ := hs (by simpa using hver)
    rw [← Option.some.inj ho, hidx, get_of_slot h.flat.hash.slots_ok hi]
    simp only [getIndexValue, TableStorage.slotAt_eq, hi]
    cases hw : w.isLive with
    | true => rw [if_pos rfl, if_neg (isLive_iff.1 hw)]
    | false => rw [if_neg (by simp), if_pos (isLive_eq_false.1 hw)]
  · cases ho

/-- A slot that holds a string key live. -/
theorem getIndex_str (h : t.Ok) (index : SlotIndex) :
    ∃ e, t.getIndex index = some e ∧ ∀ k v, e = some (k, v) → k.eq (.str s) = true →
      (∃ i, index = .hash i ∧ t.storage.slots[i]? = some (.live (.str s), v)) ∧ t.get (.str s) = v ∧ v ≠ .nil := by
  obtain ⟨e, -, -, he, -⟩ := removeAtIndex_spec h index
  refine ⟨e, he, fun k v hkv hk => ?_⟩
  subst hkv
  obtain rfl := eq_str hk
  cases index with
  | array p =>
    rw [getIndex] at he
    split at he
    · -- The key of an array slot is a number.
      have hnum := Option.some.inj he
      simp only [Option.ite_none_right_eq_some, Option.some.injEq, Prod.mk.injEq] at hnum
      cases hnum.2.1
    · cases he
  | hash i =>
    simp only [getIndex, TableStorage.slotAt_eq] at he
    split at he
    · rename_i c w hi
      split at he
      · rename_i hl
        obtain ⟨k, hc, hkw⟩ := Option.map_eq_some_iff.1 he
        obtain ⟨rfl, rfl⟩ := Prod.mk.inj (Option.some.inj hkw)
        cases c with
        | vacant j => cases hc
        | live k =>
          obtain rfl := Option.some.inj hc
          exact ⟨⟨i, rfl, hi⟩, get_of_slot h.flat.hash.slots_ok hi, isLive_iff.1 hl⟩
      · cases he
    · cases he

/-- A renewed token serves the key it was renewed for, which has the value. -/
theorem renewSlot_str (h : t.Ok) (slot : SlotRef) :
    ∃ r, t.renewSlot slot (.str s) = some r ∧ ∀ slot' v, r = some (slot', v) →
      t.get (.str s) = v ∧ v ≠ .nil ∧ t.Serves s slot' := by
  obtain ⟨e, he, hstr⟩ := @getIndex_str t s h slot.index
  rw [renewSlot, he]
  refine ⟨_, rfl, fun slot' v hr => ?_⟩
  obtain ⟨⟨k, w⟩, rfl, hkw⟩ := Option.bind_eq_some_iff.1 hr
  simp only [Option.ite_none_right_eq_some, Option.some.injEq, Prod.mk.injEq] at hkw
  obtain ⟨hk, rfl, rfl⟩ := hkw
  obtain ⟨⟨i, hidx, hi⟩, hget, hne⟩ := hstr k w rfl hk
  exact ⟨hget, hne, fun _ => ⟨i, w, hidx, hi⟩⟩

/-- A position whose key is checked gives the value of the key. -/
theorem valueIfKey_str (h : t.Ok) (position : KeyedIndex) :
    ∃ r, t.valueIfKey position (.str s) = some r ∧ ∀ v, r = some v → t.get (.str s) = v ∧ v ≠ .nil := by
  obtain ⟨e, he, hstr⟩ := @getIndex_str t s h position.index
  rw [valueIfKey, he]
  refine ⟨_, rfl, fun v hr => ?_⟩
  obtain ⟨⟨k, w⟩, rfl, hkw⟩ := Option.bind_eq_some_iff.1 hr
  simp only [Option.ite_none_right_eq_some, Option.some.injEq] at hkw
  obtain ⟨hk, rfl⟩ := hkw
  exact (hstr k w rfl hk).2

/-! ## Stores through slots -/

/-- A table has a value stored under a key, and is otherwise the same to a reader. -/
structure Stored (t : Table) (key v : Val) (t' : Table) : Prop where
  ok : t'.Ok
  get : ∀ k, t'.get k = if key.eq k then v else t.get k
  metatable : t'.metatable = t.metatable

theorem stored_insert {A : Allocator} (h : t.Ok) (hi : t.insert A key v = some (.ok (), t')) : t.Stored key v t' := by
  obtain ⟨hok, hget⟩ := get_insert h hi
  exact ⟨hok, hget, (insert_edits h.flat.hash.slots_ok hi).metatable⟩

/-- An assignment that the contents see is one that readers see. -/
theorem get_of_flat_insert (h : t.Ok) (h' : t'.Ok) {k : Val} (hk : k.eq key = true)
    (hf : t.flat.insert k v = (.ok (), t'.flat)) (x : Val) : t'.get x = if key.eq x then v else t.get x := by
  have hget := Flat.get_insert (ok_iff.1 h).2 (by rw [hf]) x
  rw [hf, eq_congr_left hk] at hget
  rw [get_flat h' (Nat.le_succ _), get_flat h (Nat.le_succ _)]
  exact hget

/-- A value that is stored through the slot of a key is assigned to it. -/
theorem stored_storeSlot (h : t.Ok) (hf : t.findSlot key = some (slot, w)) (hv : v ≠ .nil) :
    t.Stored key v (t.storeSlot slot v).2 := by
  have hne : t.get key ≠ .nil := by rw [(get_of_findSlot h hf).1]; exact (get_of_findSlot h hf).2
  obtain ⟨slot', hf', k, hindex, hk⟩ := findSlot_of_get h hne
  obtain ⟨rfl, -⟩ := Prod.mk.inj (Option.some.inj (hf.symm.trans hf'))
  obtain ⟨e, he, -, hok, hins⟩ := setAtIndex_spec h (isLive_iff.2 hv) slot.index
  obtain rfl := Option.some.inj (he.symm.trans hindex)
  exact ⟨hok, get_of_flat_insert h hok hk hins, (setAtIndex_edits (b := 0)).metatable⟩

/-- The removal of the slot of a key clears the key. -/
theorem stored_removeSlot (h : t.Ok) (hf : t.findSlot key = some (slot, w)) :
    ∃ r, t.removeSlot slot = some r ∧ t.Stored key .nil r.2 := by
  have hne : t.get key ≠ .nil := by rw [(get_of_findSlot h hf).1]; exact (get_of_findSlot h hf).2
  obtain ⟨slot', hf', k, hindex, hk⟩ := findSlot_of_get h hne
  obtain ⟨rfl, -⟩ := Prod.mk.inj (Option.some.inj (hf.symm.trans hf'))
  obtain ⟨e, b, t', he, hr, -, hok, hins⟩ := removeAtIndex_spec h slot.index
  obtain rfl := Option.some.inj (he.symm.trans hindex)
  exact ⟨_, hr, hok, get_of_flat_insert h hok hk hins, (removeAtIndex_edits (b := 0) hr).metatable⟩

end Table

end Dellingr
