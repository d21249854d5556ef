import Dellingr.Lib.AssocList
import Dellingr.Vm.Table

/-!
# The slots of the hash part

Whatever its storage, the hash part is a list of slots (`TableStorage.slots`):
keys with their values, where a nil value makes a slot dead. This module reads
the operations of both storages as operations on that list, and gives its
*live entries*, the insertion-ordered association list a script can observe.

* `SlotsOk`: the keys are valid and pairwise different, and a vacant slot names
  its own position and is dead;
* `position_eq_some`: the index of a map finds exactly the slot of a key;
* `lookup_liveEntries`: a read of the hash part is a lookup in the live entries;
* `liveEntries_modify`, …: what writing, adding, removing and compacting slots
  do to the live entries.
-/

namespace Dellingr

open AssocList

/-- The entry of a slot, if it is live. -/
def liveEntry (s : TableKey × Val) : Option (Val × Val) :=
  if s.2.isLive then s.1.asLive.map (·, s.2) else none

/-- The live entries of the hash part, in order. -/
def liveEntries (S : List (TableKey × Val)) : List (Val × Val) := S.filterMap liveEntry

/-- Two slots do not share a key. -/
def SlotKeysDiffer (a b : TableKey × Val) : Prop :=
  ∀ k l, a.1 = .live k → b.1 = .live l → k.eq l = false

/-- The slots of a well-formed hash part. -/
structure SlotsOk (S : List (TableKey × Val)) : Prop where
  valid : ∀ k v, (.live k, v) ∈ S → k.isValidTableKey = true
  distinct : S.Pairwise SlotKeysDiffer
  vacant : ∀ (i j : Nat) (v : Val), S[i]? = some (.vacant j, v) → j = i ∧ v = .nil

/-! ## Both storages as lists -/

namespace TableStorage

variable (s : TableStorage)

@[simp] theorem slots_map (m : IndexMap TableKey Val) (policy : SlotPolicy) :
    (map m policy).slots = m.slots := rfl

@[simp] theorem slotAt_eq (i : Nat) : s.slotAt i = s.slots[i]? := by
  cases s <;> simp [slotAt, slots, IndexMap.getIndex]

@[simp] theorem position_eq (key : Val) :
    s.position key = s.slots.findIdx? fun e => TableKey.lookup key e.1 := by
  cases s with
  | inline entries => simp [position, slots, List.findIdx?_map, Function.comp_def, TableKey.lookup]
  | map m policy => rfl

@[simp] theorem slots_setAt (i : Nat) (v : Val) :
    (s.setAt i v).slots = s.slots.modify i fun e => (e.1, v) := by
  cases s with
  | inline entries =>
    apply List.ext_getElem?
    intro j
    simp only [setAt, slots, List.getElem?_map, List.getElem?_modify]
    cases entries[j]? with
    | none => rfl
    | some e => by_cases h : i = j <;> simp [h]
  | map m policy => rfl

@[simp] theorem len_eq : s.len = s.slots.length := by
  cases s <;> simp [len, slots, IndexMap.len]

end TableStorage

/-- A read of the hash part looks a slot up. -/
theorem Table.hashGet_eq (t : Table) (key : Val) : t.hashGet key =
    if key.isValidTableKey then
      ((t.storage.slots.find? fun e => TableKey.lookup key e.1).map Prod.snd).getD .nil
    else .nil := by
  rw [hashGet]
  cases h : key.isValidTableKey with
  | false => rfl
  | true =>
    cases hs : t.storage with
    | inline entries =>
      simp [TableStorage.slots, List.find?_map, Function.comp_def, TableKey.lookup]
    | map m policy => rfl

/-! ## Splitting at a slot -/

section Lists

variable {α : Type*} {A B : List α} {a : α}

theorem exists_split {S : List α} {i : Nat} (h : S[i]? = some a) :
    ∃ A B, S = A ++ a :: B ∧ A.length = i := by
  obtain ⟨hi, rfl⟩ := List.getElem?_eq_some_iff.1 h
  exact ⟨S.take i, S.drop (i + 1), by simp, by simp [hi.le]⟩

theorem modify_split (f : α → α) : (A ++ a :: B).modify A.length f = A ++ f a :: B := by
  rw [List.modify_eq_take_cons_drop (by simp)]
  simp

theorem eraseIdx_split : (A ++ a :: B).eraseIdx A.length = A ++ B := by
  simp [List.eraseIdx_append_of_length_le]

end Lists

variable {S A B : List (TableKey × Val)} {k key v w : Val} {i : Nat}

@[simp] theorem liveEntries_append : liveEntries (A ++ B) = liveEntries A ++ liveEntries B :=
  List.filterMap_append

@[simp] theorem liveEntries_nil : liveEntries [] = [] := rfl

theorem liveEntries_cons_live (h : v.isLive = true) :
    liveEntries ((.live k, v) :: S) = (k, v) :: liveEntries S := by
  simp [liveEntries, liveEntry, h, TableKey.asLive]

theorem liveEntries_cons_dead {s : TableKey × Val} (h : s.2.isLive = false) :
    liveEntries (s :: S) = liveEntries S := by
  simp [liveEntries, liveEntry, h]

theorem mem_liveEntries : (k, v) ∈ liveEntries S ↔ (.live k, v) ∈ S ∧ v.isLive = true := by
  simp only [liveEntries, List.mem_filterMap, liveEntry, Option.ite_none_right_eq_some,
    Option.map_eq_some_iff]
  constructor
  · rintro ⟨⟨key, w⟩, hm, hw, k', hk, he⟩
    obtain ⟨rfl, rfl⟩ := Prod.mk.inj he
    cases key <;> simp only [TableKey.asLive, Option.some.injEq, reduceCtorEq] at hk
    exact ⟨hk ▸ hm, hw⟩
  · rintro ⟨hm, hv⟩
    exact ⟨_, hm, hv, k, rfl, rfl⟩

/-- No slot has the key. -/
def SlotsAbsent (S : List (TableKey × Val)) (key : Val) : Prop :=
  ∀ s ∈ S, TableKey.lookup key s.1 = false

theorem SlotsAbsent.liveEntries (h : SlotsAbsent S key) : Absent Val.eq (liveEntries S) key := by
  rintro ⟨k, v⟩ he
  exact h _ (mem_liveEntries.1 he).1

theorem lookup_congr {key' : Val} (h : key.eq key' = true) (c : TableKey) :
    TableKey.lookup key c = TableKey.lookup key' c := by
  cases c with
  | live l => exact Val.eq_congr_right h l
  | vacant j => rfl

/-- The other slots do not have the key of a slot. -/
theorem SlotsOk.absent_split (h : SlotsOk (A ++ (.live k, w) :: B)) (hk : k.eq key = true) :
    SlotsAbsent A key ∧ SlotsAbsent B key := by
  have hd := List.pairwise_append.1 h.distinct
  constructor
  · rintro ⟨c, x⟩ hs
    rw [← lookup_congr hk]
    cases c with
    | live l => exact hd.2.2 _ hs _ List.mem_cons_self l k rfl rfl
    | vacant j => rfl
  · rintro ⟨c, x⟩ hs
    rw [← lookup_congr hk]
    cases c with
    | live l => exact (Val.eq_comm l k).trans ((List.pairwise_cons.1 hd.2.1).1 _ hs k l rfl rfl)
    | vacant j => rfl

/-- A slot found by its key. -/
theorem exists_split_of_findIdx?
    (h : (S.findIdx? fun e => TableKey.lookup key e.1) = some i) :
    ∃ A k w B, S = A ++ (.live k, w) :: B ∧ A.length = i ∧ k.eq key = true ∧
      SlotsAbsent A key := by
  obtain ⟨hi, hl, hlt⟩ := List.findIdx?_eq_some_iff_getElem.1 h
  obtain ⟨A, B, hS, rfl⟩ := exists_split (List.getElem?_eq_getElem hi)
  cases hs : S[A.length] with
  | mk c w =>
    rw [hs] at hl hS
    cases c with
    | vacant j => simp [TableKey.lookup] at hl
    | live k =>
      refine ⟨A, k, w, B, hS, rfl, hl, fun s hmem => ?_⟩
      obtain ⟨j, hj, rfl⟩ := List.getElem_of_mem hmem
      have := hlt j hj
      simpa [hS, List.getElem_append_left hj] using this

theorem absent_of_findIdx? (h : (S.findIdx? fun e => TableKey.lookup key e.1) = none) :
    SlotsAbsent S key := fun s hs => by
  simpa using List.findIdx?_eq_none_iff.1 h s hs

theorem findIdx?_of_absent (h : SlotsAbsent S key) :
    (S.findIdx? fun e => TableKey.lookup key e.1) = none :=
  List.findIdx?_eq_none_iff.2 fun s hs => by simp [h s hs]

theorem findIdx?_split (hA : SlotsAbsent A key) (hk : k.eq key = true) :
    ((A ++ (.live k, w) :: B).findIdx? fun e => TableKey.lookup key e.1) = some A.length := by
  rw [List.findIdx?_append, findIdx?_of_absent hA]
  simp [List.findIdx?_cons, TableKey.lookup, hk]

/-- The index finds exactly the slot that holds the key. -/
theorem SlotsOk.findIdx?_eq_some (h : SlotsOk S) :
    (S.findIdx? fun e => TableKey.lookup key e.1) = some i ↔
      ∃ k w, S[i]? = some (.live k, w) ∧ k.eq key = true := by
  constructor
  · intro hf
    obtain ⟨A, k, w, B, rfl, rfl, hk, _⟩ := exists_split_of_findIdx? hf
    exact ⟨k, w, by simp, hk⟩
  · rintro ⟨k, w, hs, hk⟩
    obtain ⟨A, B, rfl, rfl⟩ := exists_split hs
    exact findIdx?_split (h.absent_split hk).1 hk

/-! ## Live entries -/

/-- A read of the slots is a lookup in the live entries. -/
theorem lookup_liveEntries (h : SlotsOk S) :
    ((S.find? fun e => TableKey.lookup key e.1).map Prod.snd).getD .nil =
      (lookup Val.eq (liveEntries S) key).getD .nil := by
  cases hf : S.findIdx? fun e => TableKey.lookup key e.1 with
  | none =>
    have habs := absent_of_findIdx? hf
    rw [lookup_of_absent habs.liveEntries, List.find?_eq_none.2 fun s hs => by simp [habs s hs]]
    rfl
  | some i =>
    obtain ⟨A, k, w, B, rfl, -, hk, hA⟩ := exists_split_of_findIdx? hf
    have hB := (h.absent_split hk).2
    have hfind : ((A ++ (.live k, w) :: B).find? fun e => TableKey.lookup key e.1) =
        some (.live k, w) := by
      rw [List.find?_append, List.find?_eq_none.2 fun s hs => by simp [hA s hs]]
      simp [TableKey.lookup, hk]
    rw [hfind, liveEntries_append]
    cases hw : w.isLive with
    | true =>
      rw [liveEntries_cons_live hw, lookup_split hA.liveEntries hk]
      rfl
    | false =>
      rw [liveEntries_cons_dead hw, lookup_of_absent]
      · simpa using Val.isLive_eq_false.1 hw
      · intro e he
        rcases List.mem_append.1 he with he | he
        · exact hA.liveEntries e he
        · exact hB.liveEntries e he

/-- Live entries have valid, pairwise different keys. -/
theorem SlotsOk.distinct_liveEntries (h : SlotsOk S) : Distinct Val.eq (liveEntries S) := by
  refine List.Pairwise.filterMap _ (fun a b hab a' ha b' hb => ?_) h.distinct
  simp only [liveEntry, Option.ite_none_right_eq_some, Option.map_eq_some_iff] at ha hb
  obtain ⟨_, k, hk, rfl⟩ := ha
  obtain ⟨_, l, hl, rfl⟩ := hb
  refine hab k l ?_ ?_
  · cases ha : a.1 <;> simp_all [TableKey.asLive]
  · cases hb : b.1 <;> simp_all [TableKey.asLive]

/-- Overwriting a live slot with a live value. -/
theorem liveEntries_overwrite (h : SlotsOk (A ++ (.live k, w) :: B)) (hk : k.eq key = true)
    (hw : w.isLive = true) (hv : v.isLive = true) :
    liveEntries (A ++ (.live k, v) :: B) =
      assign Val.eq (liveEntries (A ++ (.live k, w) :: B)) key v := by
  obtain ⟨hA, hB⟩ := h.absent_split hk
  rw [liveEntries_append, liveEntries_append, liveEntries_cons_live hw, liveEntries_cons_live hv,
    assign_split hA.liveEntries hB.liveEntries hk]

/-- Clearing a slot, live or dead. -/
theorem liveEntries_clear (h : SlotsOk (A ++ (.live k, w) :: B)) (hk : k.eq key = true) :
    liveEntries (A ++ (.live k, .nil) :: B) =
      erase Val.eq (liveEntries (A ++ (.live k, w) :: B)) key := by
  obtain ⟨hA, hB⟩ := h.absent_split hk
  rw [liveEntries_append, liveEntries_append, liveEntries_cons_dead rfl]
  cases hw : w.isLive with
  | true => rw [liveEntries_cons_live hw, erase_split hA.liveEntries hB.liveEntries hk]
  | false =>
    rw [liveEntries_cons_dead hw, erase, List.filter_append]
    exact (congrArg₂ _ (erase_of_absent hA.liveEntries) (erase_of_absent hB.liveEntries)).symm

/-- A key without a live slot is absent from the live entries. -/
theorem absent_liveEntries_of_dead (h : SlotsOk (A ++ (.live k, w) :: B)) (hk : k.eq key = true)
    (hw : w.isLive = false) : Absent Val.eq (liveEntries (A ++ (.live k, w) :: B)) key := by
  obtain ⟨hA, hB⟩ := h.absent_split hk
  rw [liveEntries_append, liveEntries_cons_dead hw]
  intro e he
  rcases List.mem_append.1 he with he | he
  · exact hA.liveEntries e he
  · exact hB.liveEntries e he

/-- Compaction keeps the live entries. -/
theorem liveEntries_filter : liveEntries (S.filter fun s => s.2.isLive) = liveEntries S := by
  induction S with
  | nil => rfl
  | cons s S ih =>
    cases hs : s.2.isLive with
    | true =>
      rw [List.filter_cons, if_pos hs]
      simp only [liveEntries, List.filterMap_cons] at ih ⊢
      rw [ih]
    | false => rw [List.filter_cons, if_neg (by simp [hs]), liveEntries_cons_dead hs, ih]

/-! ## Well-formed slots -/

theorem slotsOk_nil : SlotsOk [] := ⟨by simp, List.Pairwise.nil, by simp⟩

/-- Writing the value of a keyed slot. -/
theorem SlotsOk.write (h : SlotsOk (A ++ (.live k, w) :: B)) :
    SlotsOk (A ++ (.live k, v) :: B) where
  valid k' v' hm := by
    simp only [List.mem_append, List.mem_cons, Prod.mk.injEq, TableKey.live.injEq] at hm
    rcases hm with hm | ⟨rfl, _⟩ | hm
    · exact h.valid k' v' (by simp [hm])
    · exact h.valid k' w (by simp)
    · exact h.valid k' v' (by simp [hm])
  distinct := by
    have hd := List.pairwise_append.1 h.distinct
    have hc := List.pairwise_cons.1 hd.2.1
    refine List.pairwise_append.2 ⟨hd.1, List.pairwise_cons.2 ⟨hc.1, hc.2⟩, ?_⟩
    intro a ha b hb
    rcases List.mem_cons.1 hb with rfl | hb
    · exact hd.2.2 a ha (.live k, w) List.mem_cons_self
    · exact hd.2.2 a ha b (List.mem_cons_of_mem _ hb)
  vacant i j v' hs := by
    by_cases hi : i = A.length
    · subst hi
      simp at hs
    · refine h.vacant i j v' ?_
      rw [← hs]
      rcases Nat.lt_or_gt_of_ne hi with hlt | hlt
      · rw [List.getElem?_append_left hlt, List.getElem?_append_left hlt]
      · rw [List.getElem?_append_right hlt.le, List.getElem?_append_right hlt.le]
        obtain ⟨d, hd⟩ := Nat.exists_eq_succ_of_ne_zero (Nat.sub_ne_zero_of_lt hlt)
        rw [hd, List.getElem?_cons_succ, List.getElem?_cons_succ]

/-- Adding a slot with a new key. -/
theorem SlotsOk.push (h : SlotsOk S) (hv : key.isValidTableKey = true) (ha : SlotsAbsent S key) :
    SlotsOk (S ++ [(.live key, v)]) where
  valid k w hm := by
    simp only [List.mem_append, List.mem_singleton, Prod.mk.injEq, TableKey.live.injEq] at hm
    rcases hm with hm | ⟨rfl, _⟩
    · exact h.valid k w hm
    · exact hv
  distinct := by
    refine List.pairwise_append.2 ⟨h.distinct, List.pairwise_singleton _ _, fun a ha' b hb => ?_⟩
    obtain rfl := List.mem_singleton.1 hb
    rintro k l hk ⟨rfl⟩
    simpa [hk, TableKey.lookup] using ha a ha'
  vacant i j w hs := by
    rcases Nat.lt_or_ge i S.length with hi | hi
    · rw [List.getElem?_append_left hi] at hs
      exact h.vacant i j w hs
    · rw [List.getElem?_append_right hi] at hs
      obtain ⟨_, he⟩ := List.getElem?_eq_some_iff.1 hs
      simp at he

/-- Adding a vacant slot. -/
theorem SlotsOk.pushVacant (h : SlotsOk S) : SlotsOk (S ++ [(.vacant S.length, .nil)]) where
  valid k w hm := by
    simp only [List.mem_append, List.mem_singleton, Prod.mk.injEq, reduceCtorEq, false_and,
      or_false] at hm
    exact h.valid k w hm
  distinct := by
    refine List.pairwise_append.2 ⟨h.distinct, List.pairwise_singleton _ _, fun a ha' b hb => ?_⟩
    obtain rfl := List.mem_singleton.1 hb
    rintro k l hk ⟨⟩
  vacant i j w hs := by
    rcases Nat.lt_or_ge i S.length with hi | hi
    · rw [List.getElem?_append_left hi] at hs
      exact h.vacant i j w hs
    · rw [List.getElem?_append_right hi] at hs
      obtain ⟨hlt, he⟩ := List.getElem?_eq_some_iff.1 hs
      simp only [List.length_singleton] at hlt
      have : i = S.length := by omega
      subst this
      simpa [eq_comm] using he

/-- Compaction leaves no vacant slot. -/
theorem SlotsOk.filter (h : SlotsOk S) : SlotsOk (S.filter fun s => s.2.isLive) where
  valid k v hm := h.valid k v (List.mem_of_mem_filter hm)
  distinct := h.distinct.sublist List.filter_sublist
  vacant i j v hs := by
    have hm := List.mem_filter.1 (List.mem_of_getElem? hs)
    obtain ⟨i', hi'⟩ := List.mem_iff_getElem?.1 hm.1
    have := (h.vacant i' j v hi').2
    subst this
    simp at hm

/-- Vacating a dead slot in place. -/
theorem SlotsOk.vacate (h : SlotsOk (A ++ (.live k, .nil) :: B)) :
    SlotsOk (A ++ (.vacant A.length, .nil) :: B) where
  valid k' v' hm := by
    simp only [List.mem_append, List.mem_cons, Prod.mk.injEq, reduceCtorEq, false_and,
      false_or] at hm
    exact h.valid k' v' (by rcases hm with hm | hm <;> simp [hm])
  distinct := by
    have hd := List.pairwise_append.1 h.distinct
    have hc := List.pairwise_cons.1 hd.2.1
    refine List.pairwise_append.2 ⟨hd.1, List.pairwise_cons.2 ⟨?_, hc.2⟩, fun a ha b hb => ?_⟩
    · rintro b - k l ⟨⟩
    · rcases List.mem_cons.1 hb with rfl | hb
      · rintro k l - ⟨⟩
      · exact hd.2.2 a ha b (List.mem_cons_of_mem _ hb)
  vacant i j v' hs := by
    by_cases hi : i = A.length
    · subst hi
      simpa [eq_comm] using hs
    · refine h.vacant i j v' ?_
      rw [← hs]
      rcases Nat.lt_or_gt_of_ne hi with hlt | hlt
      · rw [List.getElem?_append_left hlt, List.getElem?_append_left hlt]
      · rw [List.getElem?_append_right hlt.le, List.getElem?_append_right hlt.le]
        obtain ⟨d, hd⟩ := Nat.exists_eq_succ_of_ne_zero (Nat.sub_ne_zero_of_lt hlt)
        rw [hd, List.getElem?_cons_succ, List.getElem?_cons_succ]

/-- Removing a slot of a hash part without vacant slots. -/
theorem SlotsOk.remove (h : SlotsOk (A ++ (.live k, w) :: B))
    (hv : ∀ j v, (.vacant j, v) ∉ A ++ (.live k, w) :: B) : SlotsOk (A ++ B) where
  valid k' v' hm := h.valid k' v' (by rcases List.mem_append.1 hm with hm | hm <;> simp [hm])
  distinct := h.distinct.sublist (by simp)
  vacant i j v' hs := by
    refine absurd (List.mem_of_getElem? hs) fun hm => hv j v' ?_
    rcases List.mem_append.1 hm with hm | hm <;> simp [hm]

end Dellingr
