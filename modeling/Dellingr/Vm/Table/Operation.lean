import Dellingr.Vm.Table.Index
import Dellingr.Vm.Table.Sequence
import Dellingr.Vm.Table.Snapshot
import Dellingr.Vm.Table.Traversal

/-!
# Operations and reachable tables

All the operations that change a table, as one type (`TableOp`), so that a run of
a table is a sequence of operations. `Table.Admits` collects what the operations
rely on and their callers promise:

* a slot is set, by its index, to a value other than nil (clearing goes through
  `removeAtIndex`);
* a hash slot is written in place, or initialized, for a key outside the array;
* the position of an insertion lies in the sequence, or just behind it;
* the saved hash slots of a snapshot have different keys;
* the contents swapped in are those of a table.

An operation that is admitted returns, and keeps the invariant (`apply_ok`): none
of the counters underflows. The tables reachable from the constructors by such
operations (`Table.Reachable`) satisfy the invariant.
-/

namespace Dellingr

open AssocList Val

/-- An operation that changes a table. -/
inductive TableOp
  | insert (key value : Val)
  | append (value : Val)
  | writeSlot (index : Nat) (value : Val)
  | setAtIndex (index : SlotIndex) (value : Val)
  | removeAtIndex (index : SlotIndex)
  | initAtIndex (index : SlotIndex) (key value : Val)
  | setList (first : Nat) (values : List Val)
  | arrayInsert (pos : Nat) (value : Val)
  | arrayRemove (pos : Nat)
  | compactDead
  | rebuildFromSnapshot (vlen arraySlots : Nat) (entries : List (Val × Val))
  | swapContents (incoming : Table)
  | setSlotPolicy (policy : SlotPolicy)

namespace Table

variable {A : Allocator} {t t' : Table} {op : TableOp} {r : Except TableError Val}

/-- An outcome without a result, as one that returns nil. -/
def returnNil (o : Outcome Unit) : Outcome Val := (o.1.map fun _ => .nil, o.2)

/-- The outcome of an operation that returns a flag. -/
def returnFlag (o : Bool × Table) : Outcome Val := (.ok (.bool o.1), o.2)

/-- Apply an operation. -/
def apply (A : Allocator) (t : Table) : TableOp → Option (Outcome Val)
  | .insert key value => (t.insert A key value).map returnNil
  | .append value => (t.append A value).map returnNil
  | .writeSlot index value => (t.writeSlot index value).map returnFlag
  | .setAtIndex index value => some (returnFlag (t.setAtIndex index value))
  | .removeAtIndex index => (t.removeAtIndex index).map returnFlag
  | .initAtIndex index key value => (t.initAtIndex index key value).map returnFlag
  | .setList first values => (t.setList A first values).map returnNil
  | .arrayInsert pos value => (t.arrayInsert A pos value).map returnNil
  | .arrayRemove pos => t.arrayRemove A pos
  | .compactDead => some (.ok .nil, t.compactDead)
  | .rebuildFromSnapshot vlen arraySlots entries =>
    some (returnNil (t.rebuildFromSnapshot vlen arraySlots entries))
  | .swapContents incoming => some (.ok .nil, (t.swapContents incoming).1)
  | .setSlotPolicy policy => some (.ok .nil, t.setSlotPolicy policy)

/-- What an operation relies on. -/
def Admits (t : Table) : TableOp → Prop
  | .writeSlot index value => ∀ k w, t.storage.slots[index]? = some (.live k, w) →
      value.isLive = true → t.KeyOutside k
  | .setAtIndex _ value => value.isLive = true
  | .initAtIndex _ key value => value.isLive = true → t.KeyOutside key
  | .arrayInsert pos _ => 1 ≤ pos ∧ pos ≤ t.arrayLen + 1
  | .rebuildFromSnapshot _ arraySlots entries => KeysDiffer (entries.drop arraySlots)
  | .swapContents incoming => incoming.Ok
  | _ => True

/-! ## The constructors and the slot policy -/

theorem empty_ok : empty.Ok where
  window := ⟨Nat.le_refl 0, Nat.le_refl 0, fun _ hi => absurd hi (Nat.not_lt_zero _), rfl⟩
  flat := ⟨Nat.zero_le _, rfl, fun _ he => by cases he; exact Nat.zero_le _, slotsOk_nil,
    fun _ _ _ hm => by cases hm⟩

/-- A map without live slots. -/
theorem ok_of_dead {m : IndexMap TableKey Val} {policy : SlotPolicy} (hok : SlotsOk m.slots)
    (hdead : ∀ s ∈ m.slots, s.2 = .nil) :
    ({ empty with storage := .map m policy, deadCount := m.len } : Table).Ok where
  window := empty_ok.window
  flat := by
    refine ⟨Nat.zero_le _, ?_, (by rintro _ ⟨⟩), hok, fun k w n hm => ?_⟩
    · have hall : (m.slots.countP fun e => !e.2.isLive) = m.slots.length :=
        List.countP_eq_length.2 fun s hs => by rw [hdead s hs]; rfl
      exact hall.symm
    · obtain ⟨hm, hw⟩ := mem_liveEntries.1 hm
      obtain rfl := hdead _ hm
      cases hw

theorem withCapacity_ok (capacity : Nat) : (withCapacity capacity).Ok := by
  rw [withCapacity]
  split
  · exact empty_ok
  · exact ok_of_dead slotsOk_nil fun s hs => by cases hs

/-- The slots of template keys are tombstones. -/
theorem slots_templateKeys {keys : List Val} {m : IndexMap TableKey Val}
    (hk : ∀ k ∈ keys, k.isValidTableKey = true) (hok : SlotsOk m.slots)
    (hdead : ∀ s ∈ m.slots, s.2 = .nil) :
    SlotsOk (keys.foldl (fun m k => m.insert (TableKey.live k) Val.nil) m).slots ∧
      ∀ s ∈ (keys.foldl (fun m k => m.insert (TableKey.live k) Val.nil) m).slots, s.2 = .nil := by
  induction keys generalizing m with
  | nil => exact ⟨hok, hdead⟩
  | cons k keys ih =>
    have hval := hk k List.mem_cons_self
    have hstep : SlotsOk (m.insert (.live k) .nil).slots ∧
        ∀ s ∈ (m.insert (.live k) .nil).slots, s.2 = .nil := by
      cases hf : m.slots.findIdx? fun e => TableKey.lookup k e.1 with
      | none =>
        have habs := absent_of_findIdx? hf
        rw [slots_insert_of_absent habs]
        refine ⟨hok.push hval habs, fun s hs => ?_⟩
        rcases List.mem_append.1 hs with hs | hs
        · exact hdead s hs
        · rw [List.mem_singleton.1 hs]
      | some i =>
        obtain ⟨A, l, w, B, hs, rfl, hl, hA⟩ := exists_split_of_findIdx? hf
        obtain rfl : w = .nil := hdead (.live l, w) (by simp [hs])
        have hslots : (m.insert (.live k) .nil).slots = m.slots := by
          rw [insert_of_split hs hA hl, IndexMap.setIndex, hs]
          simp only
          rw [modify_split]
        rw [hslots]
        exact ⟨hok, hdead⟩
    exact ih (fun k hm => hk k (List.mem_cons_of_mem _ hm)) hstep.1 hstep.2

theorem withTemplateKeys_ok {keys : List Val} (hk : ∀ k ∈ keys, k.isValidTableKey = true) :
    (withTemplateKeys keys).Ok := by
  obtain ⟨hok, hdead⟩ := slots_templateKeys (m := ⟨[]⟩) hk slotsOk_nil fun s hs => by cases hs
  exact ok_of_dead hok hdead

/-- A slot policy changes no slot. -/
theorem setSlotPolicy_slots (h : t.Ok) (policy : SlotPolicy) :
    (t.setSlotPolicy policy).storage.slots = t.storage.slots := by
  cases hs : t.storage with
  | inline entries =>
    have hok := h.flat.hash.slots_ok
    rw [show t.flat.storage = t.storage from rfl, hs] at hok
    rw [setSlotPolicy, hs]
    exact (slots_foldl_insert (m := ⟨[]⟩) hok).trans (List.nil_append _)
  | map m old =>
    rw [setSlotPolicy, hs]
    rfl

theorem setSlotPolicy_ok (h : t.Ok) (policy : SlotPolicy) : (t.setSlotPolicy policy).Ok := by
  have hslots := setSlotPolicy_slots h policy
  have hrest : (t.setSlotPolicy policy).WindowOk ∧ (t.setSlotPolicy policy).vlen = t.vlen ∧
      (t.setSlotPolicy policy).deadCount = t.deadCount ∧
      ∀ entries, (t.setSlotPolicy policy).storage ≠ .inline entries := by
    cases hs : t.storage <;> rw [setSlotPolicy, hs] <;>
      exact ⟨h.window, rfl, rfl, fun entries he => by cases he⟩
  obtain ⟨hw, hv, hd, hmap⟩ := hrest
  have hhash := h.flat.hash
  refine ⟨hw, ?_, ?_, fun entries he => absurd he (hmap entries), ?_, ?_⟩
  · rw [flat_arr_length, hv]
    exact h.vlen_le
  · simp only [flat, hslots, hd]
    exact hhash.dead_eq
  · simp only [flat, hslots]
    exact hhash.slots_ok
  · simp only [flat, hslots, hv]
    exact hhash.outside

/-! ## Every operation keeps the invariant -/

/-- An operation that refines one of flat tables keeps the invariant. -/
theorem Refines.ok {α : Type} {o : Option (Outcome α)} {q : Except TableError α × Flat}
    (h : Refines A Flat.Ok o q) (hq : q.2.Ok) : ∃ res t', o = some (res, t') ∧ t'.Ok := by
  obtain ⟨res, t', he, hw, hr⟩ := h
  refine ⟨res, t', he, ok_iff.2 ⟨hw, ?_⟩⟩
  rcases hr with ⟨-, hf⟩ | ⟨-, -, hf⟩
  · exact hf ▸ hq
  · exact hf

theorem compactDead_ok (h : t.Ok) : t.compactDead.Ok := by
  obtain ⟨s, dead, version, he, hok, -⟩ := compactDead_spec h.flat.hash
  rw [he]
  exact ⟨h.window, h.flat.len_le, hok⟩

/-- An admitted operation returns, and keeps the invariant. -/
theorem apply_ok (h : t.Ok) (ha : t.Admits op) :
    ∃ r t', t.apply A op = some (r, t') ∧ t'.Ok := by
  have hflat := (ok_iff.1 h).2
  have hsame : ∀ f, f = t.flat → f.Ok := fun f hf => hf ▸ hflat
  have hmap : ∀ {α : Type} {o : Option (Outcome α)} (g : Outcome α → Outcome Val),
      (∀ p, (g p).2 = p.2) → (∃ res t', o = some (res, t') ∧ t'.Ok) →
      ∃ r t', o.map g = some (r, t') ∧ t'.Ok := by
    rintro α _ g hg ⟨res, t', rfl, hok⟩
    exact ⟨_, _, rfl, by rw [hg]; exact hok⟩
  have hflag : ∀ {o : Option (Bool × Table)}, (∃ b t', o = some (b, t') ∧ t'.Ok) →
      ∃ r t', o.map returnFlag = some (r, t') ∧ t'.Ok := by
    rintro _ ⟨b, t', rfl, hok⟩
    exact ⟨_, _, rfl, hok⟩
  cases op with
  | insert key value =>
    exact hmap _ (fun _ => rfl) (((insert_refines h).mono hsame).ok (Flat.insert_does hflat key value).ok)
  | append value =>
    exact hmap _ (fun _ => rfl) (((append_refines h).mono hsame).ok (Flat.append_does hflat).ok)
  | writeSlot index value => exact hflag (writeSlot_ok h ha)
  | setAtIndex index value =>
    obtain ⟨e, -, -, hok, -⟩ := setAtIndex_spec h ha index
    exact ⟨_, _, rfl, hok⟩
  | removeAtIndex index =>
    obtain ⟨e, b, t', -, he, -, hok, -⟩ := removeAtIndex_spec h index
    exact hflag ⟨b, t', he, hok⟩
  | initAtIndex index key value => exact hflag (initAtIndex_ok h ha index)
  | setList first values =>
    obtain ⟨res, t', he, hs⟩ := setList_spec (A := A) h first values
    exact hmap _ (fun _ => rfl) ⟨res, t', he, hs.ok⟩
  | arrayInsert pos value =>
    have hle : pos ≤ Contents.border ⟨t.flat.arr, []⟩ + 1 := arrayLen_flat h.window ▸ ha.2
    exact hmap _ (fun _ => rfl)
      ((arrayInsert_refines h ha.1 ha.2).ok (Flat.arrayInsert_does hflat ha.1 hle).ok)
  | arrayRemove pos => exact (arrayRemove_refines h).ok (Flat.arrayRemove_spec hflat pos).1
  | compactDead => exact ⟨_, _, rfl, compactDead_ok h⟩
  | rebuildFromSnapshot vlen arraySlots entries =>
    exact ⟨_, _, rfl, (rebuildFromSnapshot_ok h vlen arraySlots entries ha).1⟩
  | swapContents incoming =>
    have hok : incoming.Ok := ha
    exact ⟨_, _, rfl, hok.window, hok.flat⟩
  | setSlotPolicy policy => exact ⟨_, _, rfl, setSlotPolicy_ok h policy⟩

/-- The position of a key is the one slot that has it. -/
theorem position_eq_some_iff (h : t.Ok) {key : Val} {i : Nat} :
    t.storage.position key = some i ↔
      ∃ k v, t.storage.slots[i]? = some (.live k, v) ∧ k.eq key = true := by
  rw [TableStorage.position_eq]
  exact h.flat.hash.slots_ok.findIdx?_eq_some

/-- Every operation, from every table that satisfies the invariant, returns and
    leaves a table that satisfies it: no index is out of bounds and no counter
    underflows. In what is left each key names exactly the slot that has it. -/
theorem apply_keeps_invariant (A : Allocator) (t : Table) (op : TableOp) (h : t.Ok)
    (ha : t.Admits op) :
    ∃ r t', t.apply A op = some (r, t') ∧ t'.Ok ∧
      ∀ key i, t'.storage.position key = some i ↔
        ∃ k v, t'.storage.slots[i]? = some (.live k, v) ∧ k.eq key = true := by
  obtain ⟨r, t', he, hok⟩ := apply_ok (A := A) h ha
  exact ⟨r, t', he, hok, fun key i => position_eq_some_iff hok⟩

theorem apply_keeps_invariant_template :
    ∃ r t', (withTemplateKeys [.bool true]).apply .exact (.writeSlot 0 (.bool false)) = some (r, t') ∧
      t'.Ok ∧ ∀ key i, t'.storage.position key = some i ↔
        ∃ k v, t'.storage.slots[i]? = some (.live k, v) ∧ k.eq key = true := by
  refine apply_keeps_invariant .exact _ _ (withTemplateKeys_ok fun k hk => ?_) fun k w hs _ n hn => ?_
  · rw [List.mem_singleton.1 hk]
    rfl
  · obtain ⟨rfl, rfl⟩ : .bool true = k ∧ .nil = w := by
      simpa [withTemplateKeys, IndexMap.insert, IndexMap.getIndexOf] using hs
    cases hn

/-! ## Reachable tables -/

/-- The tables that arise from the constructors by admitted operations, the storage
    granted or refused in any way. -/
inductive Reachable : Table → Prop
  | withCapacity (capacity : Nat) : Reachable (withCapacity capacity)
  | withTemplateKeys {keys : List Val} (h : ∀ k ∈ keys, k.isValidTableKey = true) :
    Reachable (withTemplateKeys keys)
  | apply (A : Allocator) (op : TableOp) {t t' : Table} {r : Except TableError Val}
    (h : Reachable t) (ha : t.Admits op) (hs : t.apply A op = some (r, t')) : Reachable t'

theorem Reachable.ok (h : Reachable t) : t.Ok := by
  induction h with
  | withCapacity capacity => exact withCapacity_ok capacity
  | withTemplateKeys hk => exact withTemplateKeys_ok hk
  | apply A op _ ha hs ih =>
    obtain ⟨_, _, he, hok⟩ := apply_ok (A := A) ih ha
    rw [hs] at he
    cases he
    exact hok

/-! ## The length operator -/

theorem get_ofNat (h : t.Ok) {s : Nat} (hs : s < t.vlen) :
    t.get (Val.ofNat (s + 1)) = t.flat.arr.getD s .nil := by
  have hlen : t.flat.arr.length ≤ 2 ^ 53 := by
    rw [flat_arr_length]
    exact h.vlen_le.trans (by decide)
  rw [get_flat h (Nat.le_succ _), Flat.get, Flat.slot,
    slotBelow_ofNat (by rw [flat_arr_length]; exact hs) hlen]

/-- The key after the array is absent: it would be in the array. -/
theorem get_append_key (h : t.Ok) : t.get (Val.ofNat (t.vlen + 1)) = .nil := by
  have hmax : t.vlen + 1 ≤ 2 ^ 53 := (Nat.succ_le_succ h.vlen_le).trans (by decide)
  have hslot : t.flat.slot (Val.ofNat (t.vlen + 1)) = none := by
    rw [Flat.slot, slotBelow, toNat?_ofNat hmax, flat_arr_length]
    exact if_neg (Nat.lt_irrefl _)
  rw [get_flat h (Nat.le_succ _), Flat.get, hslot, Flat.hashGet_eq (ok_iff.1 h).2, Contents.hashGet]
  have habsent : Absent Val.eq t.flat.contents.hash (Val.ofNat (t.vlen + 1)) := by
    rintro ⟨k, w⟩ hm
    by_contra hne
    rw [Bool.not_eq_false, eq_ofNat_iff hmax] at hne
    have := h.flat.hash.outside k w _ hm hne
    omega
  rw [lookup_of_absent habsent]
  rfl

/-- The length of a table is a border, and only the length of its array and the values of its
    keys determine it. -/
theorem arrayLen_border (h : t.Reachable) :
    (t.arrayLen = 0 ∨ t.get (Val.ofNat t.arrayLen) ≠ .nil) ∧
      t.get (Val.ofNat (t.arrayLen + 1)) = .nil ∧
      ∀ u : Table, u.Reachable → u.vlen = t.vlen → (∀ key, u.get key = t.get key) →
        u.arrayLen = t.arrayLen := by
  have hok := h.ok
  have hb := Contents.border_isBorder (c := ⟨t.flat.arr, []⟩)
  rw [← arrayLen_flat hok.window] at hb
  have hle : t.arrayLen ≤ t.vlen := flat_arr_length (t := t) ▸ hb.le
  refine ⟨?_, ?_, fun u hu hv hget => ?_⟩
  · rcases Nat.eq_zero_or_pos t.arrayLen with hz | hpos
    · exact .inl hz
    · refine .inr ?_
      obtain ⟨n, hn⟩ := Nat.exists_eq_succ_of_ne_zero hpos.ne'
      have hlive := hb.live.resolve_left hpos.ne'
      rw [hn] at hlive hle ⊢
      rw [get_ofNat hok (by omega)]
      exact hlive
  · rcases Nat.lt_or_eq_of_le hle with hlt | heq
    · rw [get_ofNat hok hlt]
      exact hb.dead
    · rw [heq]
      exact get_append_key hok
  · -- The slots of the two arrays are the values of their keys.
    have harr : u.flat.arr = t.flat.arr := by
      refine List.ext_getElem? fun s => ?_
      rcases Nat.lt_or_ge s t.vlen with hs | hs
      · have ht : s < t.flat.arr.length := by rwa [flat_arr_length]
        have hu' : s < u.flat.arr.length := by rwa [flat_arr_length, hv]
        have heq := get_ofNat hu.ok (hv ▸ hs)
        rw [hget, get_ofNat hok hs, List.getD_eq_getElem?_getD, List.getD_eq_getElem?_getD,
          List.getElem?_eq_getElem ht, List.getElem?_eq_getElem hu'] at heq
        rw [List.getElem?_eq_getElem ht, List.getElem?_eq_getElem hu']
        exact congrArg some heq.symm
      · rw [List.getElem?_eq_none (by rw [flat_arr_length]; omega),
          List.getElem?_eq_none (by rw [flat_arr_length]; omega)]
    rw [arrayLen_flat hu.ok.window, arrayLen_flat hok.window, harr]

/-- A table whose window starts after its first key. -/
theorem arrayLen_border_window : ∃ t : Table, t.base = 1 ∧ t.vlen = 3 ∧ t.arrayLen = 3 ∧
    t.get (Val.ofNat (t.arrayLen + 1)) = .nil := by
  have h₀ : Reachable _ := .withCapacity 0
  have h₁ : Reachable _ := .apply .exact (.setList 1 [.nil, .bool true]) h₀ trivial rfl
  have h₂ : Reachable _ := .apply .exact (.append (.bool true)) h₁ trivial rfl
  exact ⟨_, by decide, by decide, by decide, (arrayLen_border h₂).2.1⟩

end Table

end Dellingr
