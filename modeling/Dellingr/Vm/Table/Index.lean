import Dellingr.Vm.Table.Refinement

/-!
# Slots by index

An index names a slot of a table: an array slot, or a position of the hash part.
Writing a live slot by its index is the assignment of its key
(`setAtIndex_spec`, `removeAtIndex_spec`). The operations on hash slots that may
be dead (`writeSlot`, `initAtIndex`) keep the invariant as long as the slot they
bring to life is no array key's.
-/

namespace Dellingr

open AssocList Val

namespace Table

variable {t : Table} {key v w k : Val} {i : Nat}

/-! ## Overwriting a live hash slot -/

/-- Whatever the storage, a live key is overwritten in its slot. -/
theorem hashInsert_of_live (h : SlotsOk t.storage.slots) (hi : t.storage.slots[i]? = some (.live k, w))
    (hk : k.eq key = true) (hw : w.isLive = true) :
    t.hashInsert key v = some { t with storage := t.storage.setAt i v } := by
  obtain ⟨A, B, hS, rfl⟩ := exists_split hi
  have hA := ((hS ▸ h : SlotsOk (A ++ (.live k, w) :: B)).absent_split hk).1
  have hpos : t.storage.position key = some A.length := by
    rw [TableStorage.position_eq, hS]
    exact findIdx?_split hA hk
  rw [hashInsert]
  split
  · rw [insertWithoutTombstones]
    cases hs : t.storage with
    | inline entries =>
      rw [hs, TableStorage.position] at hpos
      simp only [hpos]
      rfl
    | map m policy =>
      rw [hs, TableStorage.slots_map] at hS
      simp only [insert_of_split hS hA hk]
      rfl
  · cases hs : t.storage with
    | inline entries =>
      rw [hs] at hpos hi hS
      have hfind : (entries.findIdx? fun e => e.1.eq key && e.2.isLive) = some A.length := by
        rw [TableStorage.position] at hpos
        obtain ⟨hlt, -, hlow⟩ := List.findIdx?_eq_some_iff_getElem.1 hpos
        simp only [TableStorage.slots, List.getElem?_map, List.getElem?_eq_getElem hlt, Option.map_some,
          Option.some.injEq, Prod.mk.injEq, TableKey.live.injEq] at hi
        refine List.findIdx?_eq_some_iff_getElem.2 ⟨hlt, ?_, fun j hj => ?_⟩
        · rw [hi.1, hi.2, hk, hw]
          rfl
        · have := hlow j hj
          simp only [Bool.not_eq_true] at this
          simp [this]
      simp only [insertInlineWithTombstones, hfind]
      rfl
    | map m policy =>
      rw [hs, TableStorage.slots_map] at hi
      rw [hs] at hpos
      have hpos' : m.getIndexOf (TableKey.lookup key) = some A.length := hpos
      simp only [insertIntoMapWithTombstones, IndexMap.getFull, hpos', Option.bind_some, hi,
        Option.map_some, hw, if_true]
      rfl

/-- A live hash key is no array key, nor the next one. -/
theorem outside_of_live (h : t.Ok) (hi : t.storage.slots[i]? = some (.live k, w))
    (hw : w.isLive = true) (n : Nat) (hn : k.toNat? = some n) : n = 0 ∨ t.vlen + 1 < n :=
  h.flat.hash.outside k w n (mem_liveEntries.2 ⟨List.mem_of_getElem? hi, hw⟩) hn

theorem slot_of_live (h : t.Ok) (hi : t.storage.slots[i]? = some (.live k, w))
    (hk : k.eq key = true) (hw : w.isLive = true) : t.flat.slot key = none := by
  cases hs : t.flat.slot key with
  | none => rfl
  | some s =>
    obtain ⟨hn, hlt⟩ := slotBelow_eq_some.1 hs
    have := outside_of_live h hi hw (s + 1) ((toNat?_congr hk).trans hn)
    rw [flat_arr_length] at hlt
    omega

/-- Assigning a live hash key writes its slot; nil makes it a tombstone. -/
theorem insert_of_live (h : t.Ok) (hi : t.storage.slots[i]? = some (.live k, w))
    (hk : k.eq key = true) (hw : w.isLive = true) :
    t.flat.insert key v = (.ok (), { t.flat with
      storage := t.storage.setAt i v, deadCount := t.deadCount + (1 - v.liveBit) }) := by
  have hval := h.flat.hash.slots_ok.valid k w (List.mem_of_getElem? hi)
  obtain ⟨c, hnew⟩ : ∃ c, TableKey.new key = .ok c := by
    obtain ⟨c, hc⟩ := isValidTableKey_iff.1 (isValidTableKey_congr hk hval)
    exact ⟨_, by rw [TableKey.new, hc]; rfl⟩
  rw [Flat.insert, slot_of_live h hi hk hw, hnew]
  simp only
  have hst : t.flat.hashTable.storage = t.storage := rfl
  by_cases hv : v = .nil
  · subst hv
    have hpos : t.storage.position key = some i := by
      rw [TableStorage.position_eq]
      exact h.flat.hash.slots_ok.findIdx?_eq_some.2 ⟨k, w, hi, hk⟩
    rw [if_pos rfl, hashRemove, hst, hpos]
    simp only [TableStorage.slotAt_eq, hi, hw, if_true]
    rfl
  · have hne : key.toNat? ≠ some (t.flat.arr.length + 1) := fun hn => by
      have := outside_of_live h hi hw _ ((toNat?_congr hk).trans hn)
      rw [flat_arr_length] at this
      omega
    have hlive : v.liveBit = 1 := by rw [liveBit, if_pos (isLive_iff.2 hv)]
    rw [if_neg hv, if_neg hne, Flat.hashInsert,
      hashInsert_of_live (t := t.flat.hashTable) h.flat.hash.slots_ok hi hk hw, hlive]
    rfl

/-! ## Live slots -/

theorem windowPosition_eq_some {s p : Nat} :
    t.windowPosition s = some p ↔ s = t.base + p ∧ p < t.array.length := by
  rw [windowPosition]
  split
  · simp only [Option.some.injEq]
    omega
  · simp only [reduceCtorEq, false_iff]
    omega

/-- The key of an array slot is one of the array's. -/
theorem slot_ofNat (h : t.Ok) {s : Nat} (hs : s < t.vlen) :
    t.flat.slot (Val.ofNat (s + 1)) = some s := by
  rw [Flat.slot, flat_arr_length]
  exact slotBelow_ofNat hs (h.vlen_le.trans (by decide))

/-- Writing a live slot by its index, with a value that is not nil, assigns its
    key; an index without a live slot changes nothing. -/
theorem setAtIndex_spec (h : t.Ok) (hv : v.isLive = true) (index : SlotIndex) :
    ∃ e, t.getIndex index = some e ∧ (t.setAtIndex index v).1 = e.isSome ∧
      (t.setAtIndex index v).2.Ok ∧
      match e with
      | some (k, _) => t.flat.insert k v = (.ok (), (t.setAtIndex index v).2.flat)
      | none => (t.setAtIndex index v).2 = t := by
  cases index with
  | array s =>
    simp only [getIndex, setAtIndex]
    cases hp : t.windowPosition s with
    | none => exact ⟨none, rfl, rfl, h, rfl⟩
    | some p =>
      obtain ⟨rfl, hlt⟩ := windowPosition_eq_some.1 hp
      simp only
      cases hl : (t.array.getD p .nil).isLive with
      | false => exact ⟨none, rfl, rfl, h, rfl⟩
      | true =>
        have hw := h.window.window_le
        simp only [if_true]
        have hflat : ({ t with array := t.array.set p v } : Table).flat =
            { t.flat with arr := t.flat.arr.set (t.base + p) v } := flat_set hlt
        have hins : t.flat.insert (Val.ofNat (t.base + p + 1)) v =
            (.ok (), ({ t with array := t.array.set p v } : Table).flat) := by
          rw [Flat.insert, slot_ofNat h (by omega), hflat]
        have hget : t.array[p].isLive = true := by
          rw [List.getD_eq_getElem?_getD, List.getElem?_eq_getElem hlt] at hl
          exact hl
        refine ⟨_, rfl, rfl, ok_iff.2 ⟨⟨?_, ?_, fun j hj => ?_, ?_⟩, ?_⟩, hins⟩
        · simpa using hw
        · simpa using h.window.lead_le
        · -- The slot is live, so it is past the dead prefix.
          have hne : p ≠ j := by
            rintro rfl
            have := h.window.prefix_nil p hj
            rw [List.getElem?_eq_getElem hlt] at this
            rw [Option.some.inj this] at hget
            simp at hget
          rw [List.getElem?_set_ne hne]
          exact h.window.prefix_nil j hj
        · have hc := countP_set (v := v) hlt
          rw [liveBit, if_pos hget, liveBit, if_pos hv] at hc
          have := h.window.live_eq
          dsimp only
          omega
        · have := (Flat.insert_does (ok_iff.1 h).2 (Val.ofNat (t.base + p + 1)) v).ok
          rwa [hins] at this
  | hash i =>
    simp only [getIndex, setAtIndex, TableStorage.slotAt_eq]
    cases hi : t.storage.slots[i]? with
    | none => exact ⟨none, rfl, rfl, h, rfl⟩
    | some e =>
      obtain ⟨c, w⟩ := e
      simp only
      cases hl : w.isLive with
      | false => exact ⟨none, rfl, rfl, h, rfl⟩
      | true =>
        cases c with
        | vacant j =>
          have := (h.flat.hash.slots_ok.vacant i j w hi).2
          subst this
          simp at hl
        | live k =>
          simp only [if_true]
          have hins := insert_of_live (v := v) h hi (eq_self (h.flat.hash.slots_ok.valid _ _
            (List.mem_of_getElem? hi))) hl
          rw [liveBit, if_pos hv] at hins
          have hok := (Flat.insert_does (ok_iff.1 h).2 k v).ok
          rw [hins] at hok
          exact ⟨_, rfl, rfl, ok_iff.2 ⟨h.window, hok⟩, hins⟩

/-- Removing a live slot by its index clears its key; an index without a live slot
    changes nothing. -/
theorem removeAtIndex_spec (h : t.Ok) (index : SlotIndex) :
    ∃ e b t', t.getIndex index = some e ∧ t.removeAtIndex index = some (b, t') ∧ b = e.isSome ∧
      t'.Ok ∧
      match e with
      | some (k, _) => t.flat.insert k .nil = (.ok (), t'.flat)
      | none => t' = t := by
  cases index with
  | array s =>
    simp only [getIndex, removeAtIndex]
    cases hp : t.windowPosition s with
    | none => exact ⟨none, _, _, rfl, rfl, rfl, h, rfl⟩
    | some p =>
      obtain ⟨rfl, hlt⟩ := windowPosition_eq_some.1 hp
      simp only
      cases hl : (t.array.getD p .nil).isLive with
      | false => exact ⟨none, _, _, rfl, rfl, rfl, h, rfl⟩
      | true =>
        have hw := h.window.window_le
        obtain ⟨t', he, hw', hf⟩ := writeWindow_flat (v := .nil) h.window hlt
        simp only [if_true, he, Option.map_some]
        have hins : t.flat.insert (Val.ofNat (t.base + p + 1)) .nil = (.ok (), t'.flat) := by
          rw [Flat.insert, slot_ofNat h (by omega), hf]
        have hok := (Flat.insert_does (ok_iff.1 h).2 (Val.ofNat (t.base + p + 1)) .nil).ok
        rw [hins] at hok
        exact ⟨_, _, _, rfl, rfl, rfl, ok_iff.2 ⟨hw', hok⟩, hins⟩
  | hash i =>
    simp only [getIndex, removeAtIndex, TableStorage.slotAt_eq]
    cases hi : t.storage.slots[i]? with
    | none => exact ⟨none, _, _, rfl, rfl, rfl, h, rfl⟩
    | some e =>
      obtain ⟨c, w⟩ := e
      simp only
      cases hl : w.isLive with
      | false => exact ⟨none, _, _, rfl, rfl, rfl, h, rfl⟩
      | true =>
        cases c with
        | vacant j =>
          have := (h.flat.hash.slots_ok.vacant i j w hi).2
          subst this
          simp at hl
        | live k =>
          simp only [if_true]
          have hins := insert_of_live (v := .nil) h hi (eq_self (h.flat.hash.slots_ok.valid _ _
            (List.mem_of_getElem? hi))) hl
          have hok := (Flat.insert_does (ok_iff.1 h).2 k .nil).ok
          rw [hins] at hok
          exact ⟨_, _, _, rfl, rfl, rfl, ok_iff.2 ⟨h.window, hok⟩, hins⟩

/-! ## Hash slots, live or dead -/

/-- A key that is neither an array key nor the next one. -/
def KeyOutside (t : Table) (k : Val) : Prop := ∀ n, k.toNat? = some n → n = 0 ∨ t.vlen + 1 < n

/-- Writing a keyed hash slot, live or dead. -/
theorem setAt_ok (h : t.Ok) (hi : t.storage.slots[i]? = some (.live k, w))
    (hk : v.isLive = true → t.KeyOutside k) :
    ({ t with storage := t.storage.setAt i v, deadCount := t.deadCount + w.liveBit - v.liveBit } :
      Table).Ok := by
  obtain ⟨A, B, hS, rfl⟩ := exists_split hi
  exact ⟨h.window, ⟨h.flat.len_le, h.flat.hash.setAt hS hk⟩⟩

/-- A dead slot is counted. -/
theorem deadCount_pos (h : t.Ok) (hi : t.storage.slots[i]? = some (.live k, .nil)) :
    1 ≤ t.deadCount := by
  have hd : t.deadCount = t.storage.slots.countP fun e => !e.2.isLive := h.flat.hash.dead_eq
  rw [hd]
  exact List.countP_pos_iff.2 ⟨_, List.mem_of_getElem? hi, rfl⟩

theorem writeSlot_ok (h : t.Ok) (hk : ∀ k w, t.storage.slots[i]? = some (.live k, w) →
    v.isLive = true → t.KeyOutside k) :
    ∃ b t', t.writeSlot i v = some (b, t') ∧ t'.Ok := by
  rw [writeSlot, TableStorage.slotAt_eq]
  cases hi : t.storage.slots[i]? with
  | none => exact ⟨_, _, rfl, h⟩
  | some e =>
    obtain ⟨c, w⟩ := e
    cases c with
    | vacant j => exact ⟨_, _, rfl, h⟩
    | live k =>
      have hok := setAt_ok (v := v) h hi (hk k w hi)
      have hsub : checkedSub (t.deadCount + (1 - v.liveBit)) (1 - w.liveBit) =
          some (t.deadCount + w.liveBit - v.liveBit) := by
        cases hw : w.isLive with
        | true =>
          have : v.liveBit ≤ 1 := by rw [liveBit]; split <;> simp
          rw [liveBit, liveBit, if_pos hw, checkedSub_of_le (Nat.zero_le _)]
          rw [liveBit] at this
          congr 1
          omega
        | false =>
          obtain rfl := isLive_eq_false.1 hw
          have hpos := deadCount_pos h hi
          have h₁ : v.liveBit ≤ 1 := by rw [liveBit]; split <;> simp
          have h₂ : Val.nil.liveBit = 0 := rfl
          rw [h₂, checkedSub_of_le (by omega)]
          congr 1
          omega
      simp only [hsub, Option.bind_eq_bind, Option.bind_some, Option.pure_def]
      exact ⟨_, _, rfl, hok⟩

theorem initAtIndex_ok (h : t.Ok) (hk : v.isLive = true → t.KeyOutside key) (index : SlotIndex) :
    ∃ b t', t.initAtIndex index key v = some (b, t') ∧ t'.Ok := by
  cases index with
  | array s => exact ⟨_, _, rfl, h⟩
  | hash i =>
    rw [initAtIndex, TableStorage.slotAt_eq]
    cases hi : t.storage.slots[i]? with
    | none => exact ⟨_, _, rfl, h⟩
    | some e =>
      obtain ⟨c, w⟩ := e
      cases hc : TableKey.lookup key c with
      | false =>
        simp only [hc, Bool.not_false, if_true]
        exact ⟨_, _, rfl, h⟩
      | true =>
        cases c with
        | vacant j => simp [TableKey.lookup] at hc
        | live k =>
          have hkey : v.isLive = true → t.KeyOutside k := fun hv n hn =>
            hk hv n ((toNat?_congr hc).symm.trans hn)
          have hok := setAt_ok h hi hkey
          simp only [hc, Bool.not_true, Bool.false_eq_true, if_false]
          cases hw : w.isLive <;> cases hv : v.isLive <;>
            simp only [liveBit, hw, hv, Bool.not_true, Bool.not_false, Bool.and_true, Bool.and_false,
              Bool.false_eq_true, if_true, if_false, Nat.add_zero, Nat.sub_zero,
              Nat.add_sub_cancel] at hok ⊢
          · exact ⟨_, _, rfl, hok⟩
          · obtain rfl := isLive_eq_false.1 hw
            rw [checkedSub_of_le (deadCount_pos h hi)]
            exact ⟨_, _, rfl, hok⟩
          · exact ⟨_, _, rfl, hok⟩
          · exact ⟨_, _, rfl, hok⟩

end Table

end Dellingr
