import Dellingr.Vm.Table.Field
import Dellingr.Vm.Table.Snapshot

/-!
# What a rebuilt table holds

The hash slots of a rebuilt table are those of the snapshot, so that its fields are the ones the
snapshot lists (`rebuilt_spec`).
-/

namespace Dellingr

open AssocList Val

namespace Table

variable {t u u' : Table} {key v : Val}

/-- A live slot is read through its key. -/
theorem get_of_mem_slots (h : t.Ok) (hk : key.IsField) (hm : (.live key, v) ∈ t.storage.slots) :
    t.get key = v := by
  have hslots : SlotsOk t.storage.slots := h.flat.hash.slots_ok
  have hslot : t.flat.contents.slot key = none := slotBelow_field hk _
  rw [get_contents h, Contents.get, hslot]
  show (lookup Val.eq (liveEntries t.storage.slots) key).getD .nil = v
  rw [← lookup_liveEntries hslots]
  obtain ⟨A, B, hAB⟩ := List.append_of_mem hm
  have habs := hAB ▸ hslots
  have hself : key.eq key = true := Val.eq_self hk.valid
  obtain ⟨hA, -⟩ := habs.absent_split hself
  have hnone : A.find? (fun e => TableKey.lookup key e.1) = none :=
    List.find?_eq_none.2 fun s hs => by simp [hA s hs]
  have hhead : TableKey.lookup key (TableKey.live key) = true := hself
  rw [hAB, List.find?_append, hnone, Option.none_or, List.find?_cons]
  simp only [hhead]
  rfl

/-- A value of the hash part is in a live slot. -/
theorem slot_of_hashGet (h : t.Ok) (hv : t.flat.contents.hashGet key ≠ .nil) :
    ∃ k, k.eq key = true ∧ (.live k, t.flat.contents.hashGet key) ∈ t.storage.slots := by
  have hslots : SlotsOk t.storage.slots := h.flat.hash.slots_ok
  have hget : t.flat.contents.hashGet key =
      ((t.storage.slots.find? fun e => TableKey.lookup key e.1).map Prod.snd).getD .nil := by
    rw [lookup_liveEntries hslots]
    rfl
  cases hf : t.storage.slots.find? fun e => TableKey.lookup key e.1 with
  | none =>
    rw [hget, hf] at hv
    exact absurd rfl hv
  | some e =>
    rw [hf] at hget
    have hmem := List.mem_of_find?_eq_some hf
    have hlookup := List.find?_some hf
    obtain ⟨c, w⟩ := e
    cases c with
    | live k =>
      rw [hget]
      exact ⟨k, hlookup, hmem⟩
    | vacant j => exact absurd hlookup Bool.false_ne_true

/-- A field that has a value has a live slot. -/
theorem slot_of_get (h : t.Ok) (hk : key.IsField) (hv : t.get key ≠ .nil) :
    ∃ k, k.eq key = true ∧ (.live k, t.get key) ∈ t.storage.slots := by
  have hslot : t.flat.contents.slot key = none := slotBelow_field hk _
  rw [get_contents h, Contents.get, hslot] at hv ⊢
  exact slot_of_hashGet h hv

/-- A value is in the window, or in a live slot. -/
theorem stored_of_get (h : t.Ok) (hv : t.get key ≠ .nil) :
    t.get key ∈ t.array ∨ ∃ k, (.live k, t.get key) ∈ t.storage.slots := by
  rw [get_contents h, Contents.get] at hv ⊢
  cases hslot : t.flat.contents.slot key with
  | none =>
    rw [hslot] at hv
    obtain ⟨k, -, hm⟩ := slot_of_hashGet h hv
    exact .inr ⟨k, hm⟩
  | some i =>
    rw [hslot] at hv
    refine .inl ?_
    have harr : t.flat.contents.arr.getD i .nil = slotValue t.array t.base i := flat_arr_getD h.window
    simp only [harr] at hv ⊢
    rw [slotValue] at hv ⊢
    split
    · rename_i hle
      rw [if_pos hle] at hv
      cases ha : t.array[i - t.base]? with
      | none => exact absurd (by rw [ha]; rfl) hv
      | some w => exact List.mem_of_getElem? ha
    · rename_i hle
      rw [if_neg hle] at hv
      exact absurd rfl hv

/-- What a rebuilt slot adds: its key, if that is valid. -/
theorem rebuildSlot_slots (hr : u.rebuildSlot (key, v) = .ok u')
    (habs : key ≠ .nil → SlotsAbsent u.storage.slots key) (hok : SlotsOk u.storage.slots) :
    SlotsOk u'.storage.slots ∧ u'.storage.policy = u.storage.policy ∧ u'.array = u.array ∧
      ∃ c, u'.storage.slots = u.storage.slots ++ [(c, v)] ∧
        (c = .live key ∨ key.isValidTableKey = false ∧ ∃ j, c = .vacant j) := by
  by_cases hk : key.isValidTableKey = true
  · have hnil : key ≠ .nil := by
      rintro rfl
      simp [isValidTableKey] at hk
    have hout : v.isLive = true →
        (u.arrayKey key).isSome = false ∧ u.isArrayAppendKey key = false := by
      intro hv
      by_contra hin
      have hcond : (v.isLive && ((u.arrayKey key).isSome || u.isArrayAppendKey key)) = true := by
        rw [hv, Bool.true_and]
        by_contra hor
        exact hin (by simpa using hor)
      simp [rebuildSlot, hcond] at hr
    have hpush : (u.storage.push (.live key, v)).slots = u.storage.slots ++ [(.live key, v)] := by
      cases u.storage <;> simp [TableStorage.push, TableStorage.slots]
    have hpolicy : (u.storage.push (.live key, v)).policy = u.storage.policy := by
      cases u.storage <;> rfl
    rw [rebuildSlot_live hk (habs hnil) hout, Except.ok.injEq] at hr
    rw [← hr]
    refine ⟨?_, hpolicy, rfl, .live key, hpush, .inl rfl⟩
    show SlotsOk (u.storage.push (.live key, v)).slots
    rw [hpush]
    exact hok.push hk (habs hnil)
  · obtain ⟨c, rfl, hc⟩ := rebuildSlot_cases hr habs hok
    rcases hc with ⟨-, hvalid, -⟩ | ⟨rfl, rfl, m, policy, hs⟩
    · exact absurd hvalid hk
    · have hpush : (u.storage.push (.vacant u.storage.slots.length, .nil)).slots =
          u.storage.slots ++ [(.vacant u.storage.slots.length, .nil)] := by
        rw [hs]
        rfl
      have hpolicy : (u.storage.push (.vacant u.storage.slots.length, .nil)).policy =
          u.storage.policy := by
        rw [hs]
        rfl
      refine ⟨?_, hpolicy, rfl, _, hpush, .inr ⟨by simpa using hk, _, rfl⟩⟩
      show SlotsOk (u.storage.push (.vacant u.storage.slots.length, .nil)).slots
      rw [hpush]
      exact hok.pushVacant

/-- Rebuilding adds the slots of the snapshot. -/
theorem rebuildSlots_slots {Q : List (Val × Val)} (h : SlotsOk u.storage.slots) (hd : KeysDiffer Q)
    (habs : ∀ e ∈ Q, e.1 ≠ .nil → SlotsAbsent u.storage.slots e.1)
    (hr : Q.foldlM (fun t e => t.rebuildSlot e) u = .ok u') :
    u'.storage.policy = u.storage.policy ∧ u'.array = u.array ∧ ∀ k w, k.isValidTableKey = true →
      ((.live k, w) ∈ u'.storage.slots ↔ (.live k, w) ∈ u.storage.slots ∨ (k, w) ∈ Q) := by
  induction Q generalizing u with
  | nil =>
    rw [List.foldlM_nil] at hr
    cases hr
    exact ⟨rfl, rfl, fun k w _ => by simp⟩
  | cons e Q ih =>
    obtain ⟨key, v⟩ := e
    rw [List.foldlM_cons] at hr
    cases hstep : u.rebuildSlot (key, v) with
    | error e =>
      rw [hstep] at hr
      cases hr
    | ok u₁ =>
      rw [hstep] at hr
      obtain ⟨hok₁, hpolicy, harray, c, hslots, hc⟩ :=
        rebuildSlot_slots hstep (habs (key, v) List.mem_cons_self) h
      obtain ⟨hhead, htail⟩ := List.pairwise_cons.1 hd
      have habs₁ : ∀ e ∈ Q, e.1 ≠ .nil → SlotsAbsent u₁.storage.slots e.1 := by
        intro e he hne s hm
        rw [hslots] at hm
        rcases List.mem_append.1 hm with hm | hm
        · exact habs e (List.mem_cons_of_mem _ he) hne s hm
        · rw [List.mem_singleton.1 hm]
          rcases hc with rfl | ⟨-, j, rfl⟩
          · by_cases hnil : key = .nil
            · rw [hnil]
              cases he' : e.1 with
              | nil => exact absurd he' hne
              | _ => rfl
            · exact hhead e he hnil
          · rfl
      obtain ⟨hpolicy', harray', hmem⟩ := ih hok₁ htail habs₁ hr
      refine ⟨hpolicy'.trans hpolicy, harray'.trans harray, fun k w hk => ?_⟩
      rw [hmem k w hk, hslots, List.mem_append, List.mem_singleton, List.mem_cons, or_assoc]
      refine or_congr_right (or_congr_left ?_)
      rcases hc with rfl | ⟨hinvalid, j, rfl⟩
      · simp
      · constructor
        · rintro ⟨⟩
        · rintro ⟨⟩
          rw [hk] at hinvalid
          cases hinvalid

theorem plain_withCapacity (capacity : Nat) : (withCapacity capacity).Plain := by
  rw [Plain, withCapacity]
  split <;> rfl

/-- The key of an array slot is no field. -/
theorem not_isField_of_isArrayKeyAt {vlen slot : Nat} (h : isArrayKeyAt vlen slot key = true) :
    ¬key.IsField := by
  intro hk
  cases key with
  | num n =>
    rw [isArrayKeyAt, beq_iff_eq, arrayIndex, integerIndex] at h
    have hout : ∀ m, n.exactNat = some m → m = 0 := fun m hm => hk.outside m hm
    cases hn : n.exactNat with
    | none => simp [hn] at h
    | some m =>
      rw [hout m hn] at hn
      simp [hn] at h
  | _ => cases h

/-- A table rebuilt from slots with different keys is in order, and has the fields and only values
    of the snapshot. -/
theorem rebuilt_spec {vlen n : Nat} {entries : List (Val × Val)} (hd : KeysDiffer (entries.drop n))
    (hr : empty.rebuildFromSnapshot vlen n entries = (.ok (), t)) :
    t.Ok ∧ t.Plain ∧ (∀ k w, k.IsField → ((.live k, w) ∈ t.storage.slots ↔ (k, w) ∈ entries)) ∧
      ∀ k, t.get k ≠ .nil → ∃ k', (k', t.get k) ∈ entries := by
  have hok : t.Ok := by
    have := (rebuildFromSnapshot_ok empty_ok vlen n entries hd).1
    rwa [hr] at this
  refine ⟨hok, ?_⟩
  by_cases hlen : entries.length < n
  · rw [rebuildFromSnapshot, if_pos hlen] at hr
    cases hr
  by_cases hv : maxArrayLen < vlen
  · rw [rebuildFromSnapshot, if_neg hlen, if_pos hv] at hr
    cases hr
  cases hb : snapshotBase vlen n entries with
  | error e =>
    rw [rebuildFromSnapshot, if_neg hlen, if_neg hv, hb] at hr
    cases hr
  | ok base =>
    have hsplit : entries.take n ++ entries.drop n = entries := List.take_append_drop _ _
    have htake : (entries.take n).length = n := by
      rw [List.length_take]
      omega
    by_cases hk : ((entries.take n).zipIdx.all fun e => isArrayKeyAt vlen (base + e.2) e.1.1) = true
    · have heq := rebuildFromSnapshot_eq empty (entries.take n) (entries.drop n) (by omega)
        (by rw [hsplit, htake]; exact hb) hk
      rw [hsplit, htake] at heq
      rw [heq] at hr
      have hbase : base + n ≤ vlen := snapshotBase_le hb
      obtain ⟨-, hnone, -⟩ := rebuildShell_ok vlen base ((entries.take n).map Prod.snd)
        (entries.drop n) (by rw [List.length_map, htake]; exact hbase) (by omega)
      have hplain : (rebuildShell vlen base ((entries.take n).map Prod.snd)
          (entries.drop n)).storage.policy.reviveInPlace = false := by
        exact plain_withCapacity _
      have hfield : ∀ k w, k.IsField → ((k, w) ∈ entries ↔
          (k, w) ∈ if (entries.drop n).head? = some (.nil, .bool true) then (entries.drop n).tail
            else entries.drop n) := by
        intro k w hfield
        have harray : (k, w) ∉ entries.take n := by
          intro hm
          obtain ⟨i, hi⟩ := List.mem_iff_getElem?.1 hm
          have hidx : ((k, w), i) ∈ (entries.take n).zipIdx := List.mk_mem_zipIdx_iff_getElem?.2 hi
          exact not_isField_of_isArrayKeyAt (List.all_eq_true.1 hk _ hidx) hfield
        have hnil : k ≠ .nil := by
          rintro rfl
          exact absurd hfield.valid Bool.false_ne_true
        have hrest : (k, w) ∈ entries ↔ (k, w) ∈ entries.drop n := by
          conv_lhs => rw [← hsplit, List.mem_append]
          exact or_iff_right harray
        rw [hrest]
        split
        · rename_i hhead
          cases hl : entries.drop n with
          | nil => rfl
          | cons e rest =>
            rw [hl, List.head?_cons, Option.some.injEq] at hhead
            rw [hhead, List.mem_cons, List.tail_cons, Prod.mk.injEq]
            exact or_iff_right fun h => hnil h.1
        · rfl
      have hd' : KeysDiffer (if (entries.drop n).head? = some (.nil, .bool true) then
          (entries.drop n).tail else entries.drop n) := by
        split
        · exact List.Pairwise.sublist (List.tail_sublist _) hd
        · exact hd
      cases hf : (if (entries.drop n).head? = some (.nil, .bool true) then (entries.drop n).tail
          else entries.drop n).foldlM (fun t e => t.rebuildSlot e)
          (rebuildShell vlen base ((entries.take n).map Prod.snd) (entries.drop n)) with
      | error e =>
        rw [hf] at hr
        cases hr
      | ok rebuilt =>
        rw [hf] at hr
        cases hr
        obtain ⟨hpolicy, harray, hslots⟩ := rebuildSlots_slots (by rw [hnone]; exact slotsOk_nil) hd'
          (fun e _ _ s hs => by rw [hnone] at hs; cases hs) hf
        refine ⟨?_, fun k w hfk => ?_, fun k hne => ?_⟩
        · show rebuilt.storage.policy.reviveInPlace = false
          rw [hpolicy]
          exact hplain
        · show (TableKey.live k, w) ∈ rebuilt.storage.slots ↔ _
          rw [hslots k w hfk.valid, hnone, hfield k w hfk]
          simp
        · rcases stored_of_get hok hne with hm | ⟨k', hm⟩
          · have hvalues : ∀ w ∈ rebuilt.array, ∃ e ∈ entries, e.2 = w := by
              intro w hw
              rw [harray] at hw
              obtain ⟨e, he, hval⟩ := List.mem_map.1 hw
              exact ⟨e, List.mem_of_mem_take he, hval⟩
            obtain ⟨e, he, hval⟩ := hvalues _ hm
            rw [← hval]
            exact ⟨e.1, he⟩
          · have hvalid : k'.isValidTableKey = true := hok.flat.hash.slots_ok.valid k' _ hm
            have hm' := (hslots k' _ hvalid).1 hm
            rw [hnone] at hm'
            have hq := hm'.resolve_left List.not_mem_nil
            refine ⟨k', List.drop_subset n entries ?_⟩
            split at hq
            · exact List.mem_of_mem_tail hq
            · exact hq
    · rw [rebuildFromSnapshot, if_neg hlen, if_neg hv, hb] at hr
      simp only [Bool.not_eq_true] at hk
      simp only [hk, Bool.not_false, if_true] at hr
      cases hr

end Table

end Dellingr
