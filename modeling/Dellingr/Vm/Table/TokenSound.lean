import Dellingr.Vm.Table.Shape
import Dellingr.Vm.Table.Token

/-!
# Tokens are sound

A token for a string key that is still current answers as a lookup by key, and a
store through it is the assignment of the key. The keys of the slots a token was
minted among are a prefix of the current ones (`Dellingr.Vm.Table.Shape`), so the
slot still has the key, and no other slot has it.

* `insert_eq_writeSlot`: a write in place is the assignment of the key of the slot,
  for a live slot and for a tombstone that revives in place;
* `slot_token_sound`, `hash_probe_exact`: tokens and probes along a run;
* `slot_token_after_round`, `hash_probe_after_round`: the version wraps after
  `2 ^ 64` moves, and a token that old names whatever slot is there.
-/

namespace Dellingr

open Val

namespace Table

variable {t t' : Table} {A : Allocator} {s : StringPtr} {key v w k : Val} {i n : Nat}

/-! ## String keys -/

theorem arraySlot_str : t.arraySlot (.str s) = none := rfl

theorem get_str : t.get (.str s) = t.hashGet (.str s) := rfl

/-- Only the same handle is equal to a string. -/
theorem eq_str (h : k.eq (.str s) = true) : k = .str s := by
  cases k <;> simp_all [Val.eq]

/-- Assigning a string key is an operation on the hash part. -/
theorem insert_str : t.insert A (.str s) v =
    if v = .nil then some (.ok (), (t.hashRemove (.str s)).2)
    else (t.hashInsert (.str s) v).map fun t => (.ok (), t) := rfl

/-- A string key has the value of the slot that has it. -/
theorem get_of_slot (h : SlotsOk t.storage.slots) (hi : t.storage.slots[i]? = some (.live (.str s), w)) :
    t.get (.str s) = w := by
  obtain ⟨B, C, hS, rfl⟩ := exists_split hi
  have hB := ((hS ▸ h : SlotsOk (B ++ (.live (.str s), w) :: C)).absent_split
    (eq_self (v := .str s) rfl)).1
  have hfind : (B ++ (.live (.str s), w) :: C).find? (fun e => TableKey.lookup (.str s) e.1) =
      some (.live (.str s), w) := by
    rw [List.find?_append, List.find?_eq_none.2 fun e he => by simpa using hB e he]
    simp [TableKey.lookup, Val.eq]
  rw [get_str, hashGet_eq, hS, hfind]
  rfl

/-- A string key without a slot is nil. -/
theorem get_of_absent (h : SlotsAbsent t.storage.slots (.str s)) : t.get (.str s) = .nil := by
  rw [get_str, hashGet_eq, List.find?_eq_none.2 fun e he => by simpa using h e he]
  rfl

theorem position_of_slot (h : SlotsOk t.storage.slots)
    (hi : t.storage.slots[i]? = some (.live (.str s), w)) : t.storage.position (.str s) = some i := by
  rw [TableStorage.position_eq]
  exact h.findIdx?_eq_some.2 ⟨_, _, hi, eq_self rfl⟩

/-! ## A write in place is the assignment of the key -/

/-- Writing back the value of a slot changes nothing. -/
theorem setAt_self {st : TableStorage} {c : TableKey} (h : st.slots[i]? = some (c, w)) :
    st.setAt i w = st := by
  cases st with
  | inline entries =>
    simp only [TableStorage.setAt, TableStorage.inline.injEq]
    apply List.ext_getElem?
    intro j
    rw [List.getElem?_modify]
    split
    · subst i
      simp only [TableStorage.slots, List.getElem?_map, Option.map_eq_some_iff] at h
      obtain ⟨e, he, heq⟩ := h
      cases heq
      rw [he]
      rfl
    · simp
  | map m policy =>
    simp only [TableStorage.setAt, IndexMap.setIndex, TableStorage.map.injEq, and_true]
    congr 1
    apply List.ext_getElem?
    intro j
    rw [List.getElem?_modify]
    split
    · subst i
      have hj : m.slots[j]? = some (c, w) := h
      rw [hj]
      rfl
    · simp

/-- A tombstone of a table that revives in place is brought back to life there. -/
theorem hashInsert_of_dead (h : t.Ok) (hi : t.storage.slots[i]? = some (.live (.str s), .nil))
    (hp : t.storage.policy.reviveInPlace = true) :
    t.hashInsert (.str s) v =
      some { t with storage := t.storage.setAt i v, deadCount := t.deadCount - 1 } := by
  have hd := deadCount_pos h hi
  have hpos := position_of_slot h.flat.hash.slots_ok hi
  rw [hashInsert, if_neg (by omega)]
  cases hs : t.storage with
  | inline entries =>
    -- Inline storage has the default policy.
    rw [hs] at hp
    cases hp
  | map m policy =>
    rw [hs] at hi hpos hp
    have hfull : m.getFull (TableKey.lookup (.str s)) = some (i, .live (.str s), .nil) := by
      rw [IndexMap.getFull, show m.getIndexOf (TableKey.lookup (.str s)) = some i from hpos]
      simpa using hi
    have hpol : policy.reviveInPlace = true := hp
    simp only [insertIntoMapWithTombstones, hfull, isLive_nil, Bool.false_eq_true, if_false, hpol,
      if_true, checkedSub_of_le hd]
    rfl

/-- Writing the slot of a string key in place is the assignment of the key, if the
    slot is live or the table revives keys in place. -/
theorem insert_eq_writeSlot (h : t.Ok) (hi : t.storage.slots[i]? = some (.live (.str s), w))
    (hc : w.isLive = true ∨ t.storage.policy.reviveInPlace = true) :
    ∃ u, t.writeSlot i v = some (true, u) ∧ t.insert A (.str s) v = some (.ok (), u) := by
  have hpos := position_of_slot h.flat.hash.slots_ok hi
  rw [insert_str, writeSlot, TableStorage.slotAt_eq, hi]
  by_cases hv : v = .nil
  · subst hv
    rw [if_pos rfl, hashRemove, hpos]
    simp only [TableStorage.slotAt_eq, hi]
    cases hw : w.isLive with
    | true =>
      refine ⟨_, ?_, rfl⟩
      simp [liveBit, hw, checkedSub_of_le]
    | false =>
      obtain rfl := isLive_eq_false.1 hw
      refine ⟨_, ?_, rfl⟩
      simp [liveBit, checkedSub_of_le, setAt_self hi]
  · have hlive := isLive_iff.2 hv
    rw [if_neg hv]
    cases hw : w.isLive with
    | true =>
      rw [hashInsert_of_live h.flat.hash.slots_ok hi (eq_self rfl) hw]
      refine ⟨_, ?_, rfl⟩
      simp [liveBit, hw, hlive, checkedSub_of_le]
    | false =>
      obtain rfl := isLive_eq_false.1 hw
      rw [hashInsert_of_dead h hi (hc.resolve_left (by simp))]
      refine ⟨_, ?_, rfl⟩
      simp [liveBit, hlive, checkedSub_of_le (deadCount_pos h hi)]

/-- Overwriting a live slot is the assignment of its key. -/
theorem insert_eq_setAtIndex (h : t.Ok) (hi : t.storage.slots[i]? = some (.live (.str s), w))
    (hw : w.isLive = true) (hv : v.isLive = true) :
    ∃ u, t.setAtIndex (.hash i) v = (true, u) ∧ t.insert A (.str s) v = some (.ok (), u) := by
  rw [insert_str, if_neg (isLive_iff.1 hv), hashInsert_of_live h.flat.hash.slots_ok hi (eq_self rfl) hw]
  refine ⟨_, ?_, rfl⟩
  simp [setAtIndex, hi, hw]

/-! ## Slots along a run -/

theorem getElem?_shape : t.shape[i]? = t.storage.slots[i]?.map Prod.fst := by
  rw [shape, List.getElem?_map]

/-- The slot a string key has keeps it while the version is unchanged. -/
theorem VersionRun.slot (h : VersionRun t n t') (ht : t.Ok) (hn : n < 2 ^ 64)
    (hv : t'.version = t.version) {c : TableKey} (hi : t.storage.slots[i]? = some (c, w)) :
    ∃ w', t'.storage.slots[i]? = some (c, w') := by
  obtain ⟨rest, hrest⟩ := (h.moves ht).prefix_of_eq hn hv
  have hkey : t.shape[i]? = some c := by rw [getElem?_shape, hi]; rfl
  have hkey' : t'.shape[i]? = some c := by
    rw [← hrest, List.getElem?_append_left (List.getElem?_eq_some_iff.1 hkey).1, hkey]
  rw [getElem?_shape, Option.map_eq_some_iff] at hkey'
  obtain ⟨⟨c', w'⟩, hi', rfl⟩ := hkey'
  exact ⟨w', hi'⟩

/-! ## Slot tokens -/

/-- The token of a string key names the slot that has it. -/
theorem slot_of_findSlot {slot : SlotRef} (h : SlotsOk t.storage.slots)
    (hf : t.findSlot (.str s) = some (slot, v)) :
    slot.version = t.version ∧
      ∃ i, slot.index = .hash i ∧ t.storage.slots[i]? = some (.live (.str s), v) := by
  rw [findSlot, Option.map_eq_some_iff] at hf
  obtain ⟨⟨index, value⟩, hget, heq⟩ := hf
  cases heq
  refine ⟨rfl, ?_⟩
  rw [getWithIndex, arraySlot_str] at hget
  simp only [isValidTableKey, Bool.not_true, Bool.false_eq_true, if_false,
    TableStorage.position_eq] at hget
  cases hpos : t.storage.slots.findIdx? fun e => TableKey.lookup (.str s) e.1 with
  | none => simp [hpos] at hget
  | some i =>
    obtain ⟨k, w, hi, hk⟩ := h.findIdx?_eq_some.1 hpos
    obtain rfl := eq_str hk
    simp only [hpos, TableStorage.slotAt_eq, hi] at hget
    split at hget
    · cases hget
      exact ⟨i, rfl, hi⟩
    · cases hget

/-- A token that names a hash slot names one of the table, whatever its key. -/
theorem lt_of_findSlot {slot : SlotRef} (hf : t.findSlot key = some (slot, v))
    (hidx : slot.index = .hash i) : slot.version = t.version ∧ i < t.shape.length := by
  rw [findSlot, Option.map_eq_some_iff] at hf
  obtain ⟨⟨index, value⟩, hget, heq⟩ := hf
  cases heq
  refine ⟨rfl, ?_⟩
  rw [getWithIndex] at hget
  split at hget
  · simp only at hget
    split at hget <;> cases hget
    cases hidx
  · split at hget
    · cases hget
    · split at hget
      · split at hget
        · rename_i j _ _ _ hj
          split at hget <;> cases hget
          cases hidx
          rw [TableStorage.slotAt_eq] at hj
          simpa [shape] using (List.getElem?_eq_some_iff.1 hj).1
        · cases hget
      · cases hget

/-- What a current token of a string key is good for. -/
structure SlotAnswers (A : Allocator) (t : Table) (s : StringPtr) (slot : SlotRef) : Prop where
  /-- It reads the value of the key; a key that is nil is a slot that died. -/
  read : ∃ o, t.slotValue? slot = some o ∧ o.getD .nil = t.get (.str s)
  /-- It writes the value of the key, as long as the table revives keys in place or
      the slot did not die. -/
  write : ∃ i, slot.index = .hash i ∧
    ∀ v, t.storage.policy.reviveInPlace = true ∨ (t.get (.str s)).isLive = true →
      ∃ u, t.writeSlot i v = some (true, u) ∧ t.insert A (.str s) v = some (.ok (), u)
  /-- It stores a value other than nil over a live one, and declines a dead slot. -/
  store : ∀ v, v.isLive = true →
    if (t.get (.str s)).isLive then
      ∃ u, t.storeSlot slot v = (true, u) ∧ t.insert A (.str s) v = some (.ok (), u)
    else t.storeSlot slot v = (false, t)

theorem slotAnswers_of_slot {slot : SlotRef} (h : t.Ok) (hv : slot.version = t.version)
    (hidx : slot.index = .hash i) (hi : t.storage.slots[i]? = some (.live (.str s), w)) :
    SlotAnswers A t s slot := by
  have hget := get_of_slot h.flat.hash.slots_ok hi
  refine ⟨?_, ⟨i, hidx, fun v hc => ?_⟩, fun v hv => ?_⟩
  · refine ⟨if w.isLive then some w else none, ?_, ?_⟩
    · simp [slotValue?, hv, getIndexValue, hidx, hi]
    · rw [hget]
      cases hw : w.isLive with
      | true => rfl
      | false => exact (isLive_eq_false.1 hw).symm
  · rw [hget] at hc
    exact insert_eq_writeSlot h hi hc.symm
  · rw [hget, storeSlot, hidx]
    cases hw : w.isLive with
    | true => exact insert_eq_setAtIndex h hi hw hv
    | false => simp [setAtIndex, hi, hw]

/-- A token for a string key, however the table changed since, as long as the version
    did not move all the way round: if it is accepted, it answers for its key. And
    an operation that moves, drops or renames the slot of a token, whatever its key,
    makes it rejected from then on. -/
theorem slot_token_sound (A : Allocator) {t t' : Table} {n : Nat} (ht : Reachable t)
    (hrun : VersionRun t n t') (hn : n < 2 ^ 64) :
    (∀ s slot v, t.findSlot (.str s) = some (slot, v) → t'.slotIsCurrent slot = true →
      SlotAnswers A t' s slot) ∧
    ∀ key slot v i, t.findSlot key = some (slot, v) → slot.index = .hash i →
      ∀ B op r u, t'.Admits op → op.Fits → t'.apply B op = some (r, u) →
        u.shape[i]? ≠ t'.shape[i]? → ∀ m u', VersionRun u m u' →
          n + op.versionMoves t' u + m < 2 ^ 64 →
            u'.slotIsCurrent slot = false ∧ u'.slotValue? slot = none := by
  have hok := ht.ok
  refine ⟨fun s slot v hf hcur => ?_, fun key slot v i hf hidx B op r u ha hfits hs hne m u' hrun' hlt => ?_⟩
  · obtain ⟨hver, i, hidx, hi⟩ := slot_of_findSlot hok.flat.hash.slots_ok hf
    have hv : slot.version = t'.version := by simpa [slotIsCurrent] using hcur
    obtain ⟨w, hi'⟩ := hrun.slot hok hn (hv.symm.trans hver) hi
    exact slotAnswers_of_slot (hrun.ok hok) hv hidx hi'
  · obtain ⟨hver, hi⟩ := lt_of_findSlot hf hidx
    have hok' := hrun.ok hok
    have hok'' : u.Ok := (VersionRun.apply B op hrun ha hfits hs).ok hok
    have hm₁ := hrun.moves hok
    have hm₂ := apply_moves hok' hfits hs
    have hm := (hm₁.trans hm₂).trans (hrun'.moves hok'')
    -- Had the version not moved, the slot would have its key.
    have hpos : n + op.versionMoves t' u ≠ 0 := fun hz => hne <| by
      obtain ⟨rest₁, h₁⟩ := hm₁.grows (by omega)
      obtain ⟨rest₂, h₂⟩ := hm₂.grows (by omega)
      have hlt : i < t'.shape.length := by
        rw [← h₁, List.length_append]
        omega
      rw [← h₂, List.getElem?_append_left hlt]
    have hstale : ¬slot.version = u'.version := fun he =>
      hpos (by have := hm.eq_zero_of_eq hlt (he.symm.trans hver); omega)
    exact ⟨by simpa [slotIsCurrent] using hstale, by simp [slotValue?, hstale]⟩

/-- A key keeps its token while another one is added. -/
theorem slot_token_sound_str : ∃ t t' n slot, Reachable t ∧ VersionRun t n t' ∧ t ≠ t' ∧
    t.findSlot (.str ⟨0, 0⟩) = some (slot, .bool true) ∧ SlotAnswers .exact t' ⟨0, 0⟩ slot := by
  have ht : Reachable { empty with storage := .inline [(.str ⟨0, 0⟩, .bool true)] } :=
    .apply .exact (.insert (.str ⟨0, 0⟩) (.bool true)) (.withCapacity 0) trivial rfl
  have hs : apply .exact { empty with storage := .inline [(.str ⟨0, 0⟩, .bool true)] }
      (.insert (.str ⟨1, 0⟩) (.bool false)) = some (.ok .nil, { empty with
        storage := .inline [(.str ⟨0, 0⟩, .bool true), (.str ⟨1, 0⟩, .bool false)] }) := rfl
  have hrun := VersionRun.apply .exact (.insert (.str ⟨1, 0⟩) (.bool false)) .refl trivial trivial hs
  exact ⟨_, _, _, _, ht, hrun, by decide, rfl,
    (slot_token_sound .exact ht hrun (by decide)).1 _ _ _ rfl rfl⟩

/-! ## Probes -/

/-- What a probe found for a string key: the slot that has it, or a number of slots
    none of which has it. -/
def Names (t : Table) (s : StringPtr) (probe : HashProbe) : Prop :=
  if probe.present then t.shape[probe.position]? = some (.live (.str s))
  else probe.position ≤ t.shape.length ∧
    ∀ k ∈ t.shape.take probe.position, TableKey.lookup (.str s) k = false

theorem probeHash_version : (t.probeHash key).1.version = t.version := by
  rw [probeHash]
  split <;> rfl

/-- Probing finds the value of the key, and names its slot if it has one. -/
theorem probeHash_spec (h : t.Ok) (s : StringPtr) :
    t.Names s (t.probeHash (.str s)).1 ∧ (t.probeHash (.str s)).2 = t.get (.str s) := by
  cases hpos : t.storage.slots.findIdx? fun e => TableKey.lookup (.str s) e.1 with
  | none =>
    have hprobe : t.probeHash (.str s) = (⟨t.version, t.shape.length, false⟩, .nil) := by
      simp [probeHash, hashSlotOf, hpos, isValidTableKey, hashSlotCount, shape]
    have habs := absent_of_findIdx? hpos
    rw [hprobe, get_of_absent habs]
    refine ⟨⟨Nat.le_refl _, fun k hk => ?_⟩, rfl⟩
    obtain ⟨e, he, rfl⟩ := List.mem_map.1 (List.mem_of_mem_take hk)
    exact habs e he
  | some i =>
    have hslots : SlotsOk t.storage.slots := h.flat.hash.slots_ok
    obtain ⟨k, w, hi, hk⟩ := hslots.findIdx?_eq_some.1 hpos
    obtain rfl := eq_str hk
    have hprobe : t.probeHash (.str s) = (⟨t.version, i, true⟩, w) := by
      simp [probeHash, hashSlotOf, hpos, hi, isValidTableKey]
    rw [hprobe, get_of_slot hslots hi]
    exact ⟨by simp [Names, getElem?_shape, hi], rfl⟩

namespace Names

variable {probe : HashProbe}

/-- A shape that only grows keeps what a probe found. -/
theorem mono (hn : t.Names s probe) (hg : t.shape <+: t'.shape) : t'.Names s probe := by
  obtain ⟨rest, hrest⟩ := hg
  by_cases hp : probe.present = true
  · rw [Names, if_pos hp] at hn ⊢
    rw [← hrest, List.getElem?_append_left (List.getElem?_eq_some_iff.1 hn).1]
    exact hn
  · rw [Names, if_neg hp] at hn ⊢
    rw [← hrest, List.take_append_of_le_length hn.1, List.length_append]
    exact ⟨by omega, hn.2⟩

theorem slot (hn : t.Names s probe) (hp : probe.present = true) :
    ∃ w, t.storage.slots[probe.position]? = some (.live (.str s), w) := by
  rw [Names, if_pos hp, getElem?_shape, Option.map_eq_some_iff] at hn
  obtain ⟨⟨c, w⟩, hi, rfl⟩ := hn
  exact ⟨w, hi⟩

/-- A probe that is accepted reads the value of its key. -/
theorem read (hn : t.Names s probe) (h : t.Ok) (hr : t.readProbe probe = some v) :
    v = t.get (.str s) := by
  rw [readProbe] at hr
  split at hr
  · cases hr
  · split at hr
    · rename_i hp
      obtain ⟨w, hi⟩ := hn.slot hp
      simp only [hashSlotValue, TableStorage.slotAt_eq, hi, Option.map_some, Option.some.injEq] at hr
      rw [get_of_slot h.flat.hash.slots_ok hi, hr]
    · rename_i hp
      split at hr
      · rename_i hlen
        cases hr
        rw [Names, if_neg hp, hlen, hashSlotCount, TableStorage.len_eq] at hn
        have habs : SlotsAbsent t.storage.slots (.str s) := fun e he =>
          hn.2 e.1 (by
            rw [List.take_of_length_le (by simp [shape])]
            exact List.mem_map_of_mem he)
        exact (get_of_absent habs).symm
      · cases hr

/-- A store into the slot a current probe found is the assignment of the key. -/
theorem store_present (hn : t.Names s probe) (h : t.Ok) (hp : probe.present = true)
    (hv : probe.version = t.version) (hrev : t.storage.policy.reviveInPlace = true) (A : Allocator)
    (v : Val) : ∃ u, t.storeProbe probe v = some (true, u) ∧ t.insert A (.str s) v = some (.ok (), u) := by
  obtain ⟨w, hi⟩ := hn.slot hp
  have hwrite := insert_eq_writeSlot (A := A) (v := v) h hi (.inr hrev)
  rw [storeProbe, if_neg (by simp [hv, hp])]
  split
  · exact hwrite
  · rename_i hv
    cases hw : w.isLive with
    | true =>
      obtain ⟨u, hu, hins⟩ := insert_eq_setAtIndex (A := A) h hi hw (isLive_iff.2 hv)
      rw [hu]
      exact ⟨u, rfl, hins⟩
    | false =>
      have hdead : t.setAtIndex (.hash probe.position) v = (false, t) := by simp [setAtIndex, hi, hw]
      rw [hdead]
      exact hwrite

/-- A store through a probe is the assignment of the key, or it is declined. -/
theorem store (hn : t.Names s probe) (h : t.Ok) (hrev : t.storage.policy.reviveInPlace = true)
    (A : Allocator) (v : Val) :
    ∃ b u, t.storeProbe probe v = some (b, u) ∧
      (b = true → t.insert A (.str s) v = some (.ok (), u)) ∧ (b = false → u = t) := by
  by_cases hc : probe.version ≠ t.version ∨ (!probe.present) = true
  · exact ⟨false, t, by rw [storeProbe, if_pos hc], by simp, fun _ => rfl⟩
  · simp only [ne_eq, Bool.not_eq_true', not_or, not_not, Bool.not_eq_false] at hc
    obtain ⟨u, hu, hins⟩ := hn.store_present h hc.2 hc.1 hrev A v
    exact ⟨true, u, hu, fun _ => hins, by simp⟩

end Names

/-- A store through a probe keeps the shape. -/
theorem storeProbe_edits {probe : HashProbe} {b : Bool} (h : t.storeProbe probe v = some (b, t')) :
    Edits 0 t t' := by
  rw [storeProbe] at h
  split at h
  · cases h
    exact Edits.refl _
  · split at h
    · exact writeSlot_edits h
    · have hset : Edits 0 t (t.setAtIndex (.hash probe.position) v).2 := setAtIndex_edits
      split at h
      · rename_i u hu
        cases h
        rwa [hu] at hset
      · rename_i u hu
        rw [hu] at hset
        exact hset.trans (c := 0) (writeSlot_edits h)

/-- A probe that is accepted, however the table changed since, as long as the version
    did not move all the way round: it reads the value of its key, nil for a key that
    has no slot, and a store through it is the assignment of the key. A store that
    is declined changes nothing. -/
theorem hash_probe_exact (A : Allocator) {t t' : Table} {n : Nat} (ht : Reachable t)
    (hrun : VersionRun t n t') (hn : n < 2 ^ 64) (s : StringPtr) :
    (∀ v, t'.readProbe (t.probeHash (.str s)).1 = some v → v = t'.get (.str s)) ∧
    ∀ v, t'.storage.policy.reviveInPlace = true →
      ∃ b u, t'.storeProbe (t.probeHash (.str s)).1 v = some (b, u) ∧
        (b = true → t'.insert A (.str s) v = some (.ok (), u)) ∧ (b = false → u = t') := by
  have hok := ht.ok
  have hok' := hrun.ok hok
  obtain ⟨hnames, -⟩ := probeHash_spec hok s
  -- A current probe names what it found: the shape has only grown since.
  have hcur : (t.probeHash (.str s)).1.version = t'.version → t'.Names s (t.probeHash (.str s)).1 :=
    fun hv => hnames.mono ((hrun.moves hok).prefix_of_eq hn (hv.symm.trans probeHash_version))
  by_cases hv : (t.probeHash (.str s)).1.version = t'.version
  · exact ⟨fun v hr => (hcur hv).read hok' hr, fun v hp => (hcur hv).store hok' hp A v⟩
  · refine ⟨fun v hr => ?_, fun v _ => ⟨false, t', ?_, by simp, fun _ => rfl⟩⟩
    · rw [readProbe, if_pos hv] at hr
      cases hr
    · rw [storeProbe, if_pos (.inl hv)]

/-- A probe for an absent key outlives a write. -/
theorem hash_probe_exact_absent : ∃ t t' n, Reachable t ∧ VersionRun t n t' ∧ t ≠ t' ∧
    t'.readProbe (t.probeHash (.str ⟨1, 0⟩)).1 = some .nil ∧
    ∀ v, t'.readProbe (t.probeHash (.str ⟨1, 0⟩)).1 = some v → v = t'.get (.str ⟨1, 0⟩) := by
  have ht : Reachable { empty with storage := .inline [(.str ⟨0, 0⟩, .bool true)] } :=
    .apply .exact (.insert (.str ⟨0, 0⟩) (.bool true)) (.withCapacity 0) trivial rfl
  have hs : apply .exact { empty with storage := .inline [(.str ⟨0, 0⟩, .bool true)] }
      (.insert (.str ⟨0, 0⟩) (.bool false)) = some (.ok .nil, { empty with
        storage := .inline [(.str ⟨0, 0⟩, .bool false)] }) := rfl
  have hrun := VersionRun.apply .exact (.insert (.str ⟨0, 0⟩) (.bool false)) .refl trivial trivial hs
  exact ⟨_, _, _, ht, hrun, by decide, rfl, (hash_probe_exact .exact ht hrun (by decide) _).1⟩

/-! ## A whole round of the version -/

/-- A table with one string key, as rebuilt from a snapshot. -/
def rebuilt (s : StringPtr) (v : Val) (policy : SlotPolicy) (version : UInt64) : Table :=
  { empty with storage := .map ⟨[(.live (.str s), v)]⟩ policy, version := version }

/-- Rebuilding again and again moves the version as far as one likes. -/
theorem reachable_rebuilt (s : StringPtr) (policy : SlotPolicy) (n : Nat) :
    Reachable (rebuilt s (.bool true) policy (.ofNat (n + 1))) := by
  have hdiff : KeysDiffer ([(.nil, .bool true), (.str s, .bool true)] : List (Val × Val)) := by
    simp [KeysDiffer]
  have hstep : ∀ {t : Table}, Reachable t → Reachable (rebuilt s (.bool true) {} (t.version + 1)) :=
    fun ht => .apply .exact (.rebuildFromSnapshot 0 0 [(.nil, .bool true), (.str s, .bool true)]) ht
      hdiff rfl
  have hall : Reachable (rebuilt s (.bool true) {} (.ofNat (n + 1))) := by
    induction n with
    | zero => exact hstep (.withCapacity 0)
    | succ n ih =>
      have := hstep ih
      rwa [show (rebuilt s (.bool true) {} (.ofNat (n + 1))).version + 1 = .ofNat (n + 1 + 1) from
        (UInt64.ofNat_add _ _).symm] at this
  exact .apply .exact (.setSlotPolicy policy) hall trivial rfl

/-- The contents swapped in bring a version of their own. After the last one comes
    that of a table whose version never moved. -/
theorem swapContents_rebuilt (s s' : StringPtr) (policy : SlotPolicy) :
    ((rebuilt s (.bool true) policy 0).swapContents
      (rebuilt s' (.bool true) policy (.ofNat (2 ^ 64 - 2 + 1)))).1 =
      rebuilt s' (.bool true) policy 0 := by
  have hround : max (UInt64.ofNat (2 ^ 64 - 2 + 1)) 0 + 1 = 0 := by decide
  exact congrArg (rebuilt s' (.bool true) policy) hround

/-- A table with one string key, made by an assignment. -/
theorem reachable_rebuilt_zero (s : StringPtr) (policy : SlotPolicy) :
    Reachable (rebuilt s (.bool true) policy 0) :=
  .apply .exact (.insert (.str s) (.bool true))
    (.apply .exact (.setSlotPolicy policy) (.withCapacity 0) trivial rfl) trivial rfl

/-- A token is sound for a whole round of the version only: after `2 ^ 64` moves it is
    accepted again, and names the slot of another key. A number that migrates into
    the array leaves its slot a tombstone, under an unchanged version. And where keys
    do not revive in place, a tombstone written in place is not where an assignment
    puts the key. -/
theorem slot_token_after_round :
    (∃ t t' incoming slot v, Reachable t ∧ Reachable incoming ∧
      t.findSlot (.str ⟨0, 0⟩) = some (slot, v) ∧ (t.swapContents incoming).1 = t' ∧
      t'.slotIsCurrent slot = true ∧ t'.slotValue? slot = some (some (.bool true)) ∧
      t'.get (.str ⟨0, 0⟩) = .nil) ∧
    (∃ t t' slot v, Reachable t ∧ t.findSlot (.ofNat 2) = some (slot, v) ∧
      t.append .exact (.bool true) = some (.ok (), t') ∧ t'.slotIsCurrent slot = true ∧
      t'.slotValue? slot = some none ∧ t'.get (.ofNat 2) = .bool true) ∧
    ∃ t t' slot v u u', Reachable t ∧ t.findSlot (.str ⟨0, 0⟩) = some (slot, v) ∧
      t.insert .exact (.str ⟨0, 0⟩) .nil = some (.ok (), t') ∧ t'.slotIsCurrent slot = true ∧
      slot.index = .hash 0 ∧ t'.writeSlot 0 (.bool true) = some (true, u) ∧
      t'.insert .exact (.str ⟨0, 0⟩) (.bool true) = some (.ok (), u') ∧
      u.next .nil = some (.pair (.str ⟨0, 0⟩) (.bool true)) ∧
      u'.next .nil = some (.pair (.str ⟨1, 0⟩) (.bool true)) := by
  refine ⟨?_, ?_, ?_⟩
  · exact ⟨_, _, _, _, _, reachable_rebuilt_zero ⟨0, 0⟩ {}, reachable_rebuilt ⟨1, 0⟩ {} (2 ^ 64 - 2),
      rfl, swapContents_rebuilt ⟨0, 0⟩ ⟨1, 0⟩ {}, rfl, rfl, rfl⟩
  · have h₁ : Reachable _ := .apply .exact (.insert (.ofNat 2) (.bool true)) (.withCapacity 0) trivial rfl
    have h₂ : Reachable _ := .apply .exact (.insert (.str ⟨0, 0⟩) (.bool true)) h₁ trivial rfl
    have h₃ : Reachable _ := .apply .exact (.insert (.str ⟨1, 0⟩) (.bool true)) h₂ trivial rfl
    exact ⟨_, _, _, _, h₃, rfl, rfl, rfl, rfl, rfl⟩
  · have h₁ : Reachable _ := .apply .exact (.insert (.str ⟨0, 0⟩) (.bool true)) (.withCapacity 0) trivial rfl
    have h₂ : Reachable _ := .apply .exact (.insert (.str ⟨1, 0⟩) (.bool true)) h₁ trivial rfl
    exact ⟨_, _, _, _, _, _, h₂, rfl, rfl, rfl, rfl, rfl, rfl, rfl, rfl⟩

/-- A probe is exact for a whole round of the version only. -/
theorem hash_probe_after_round : ∃ t t' incoming, Reachable t ∧ Reachable incoming ∧
    t.storage.policy.reviveInPlace = true ∧ incoming.storage.policy.reviveInPlace = true ∧
    (t.swapContents incoming).1 = t' ∧
    t'.readProbe (t.probeHash (.str ⟨0, 0⟩)).1 = some (.bool true) ∧ t'.get (.str ⟨0, 0⟩) = .nil :=
  ⟨_, _, _, reachable_rebuilt_zero ⟨0, 0⟩ ⟨true, true⟩,
    reachable_rebuilt ⟨1, 0⟩ ⟨true, true⟩ (2 ^ 64 - 2), rfl, rfl,
    swapContents_rebuilt ⟨0, 0⟩ ⟨1, 0⟩ ⟨true, true⟩, rfl, rfl⟩

end Table

end Dellingr
