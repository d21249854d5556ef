import Dellingr.Vm.Table.Operation

/-!
# The naive table

The table before the window existed, which the tests of the source drive beside
the real one: one physical slot for each array key, never shrinking, beside a
hash part that is a list of entries in the order of their insertion, tombstones
included (`Model`). There is no window, no dead-prefix hint, no compaction and no
map.

A table and a model that start empty and go through the same operations
(`CoRun`) cannot be told apart: by the value of any key, by the length operator,
or by a traversal (`corun_agrees`). Both have the same contents
(`Dellingr.Vm.Table.Contents`), which each operation changes in the same way.
-/

namespace Dellingr

open AssocList Val

/-- The naive table: the array, and the entries of the hash part. -/
structure Model where
  array : List Val
  hash : List (Val × Val)
  deriving DecidableEq, Repr

namespace Model

def empty : Model := ⟨[], []⟩

variable (m : Model)

def hashSlot (key : Val) : Option Nat := m.hash.findIdx? fun e => e.1.eq key

def arrayKey (key : Val) : Option Nat :=
  match key with
  | .num x => arrayIndex x m.array.length
  | _ => none

/-- Take the value of a hash key, leaving nil. -/
def takeHash (key : Val) : Val × Model :=
  match m.hashSlot key with
  | some i => ((m.hash.getD i (.nil, .nil)).2, { m with hash := m.hash.modify i fun e => (e.1, .nil) })
  | none => (.nil, m)

/-- The loop of `push`. Every round but the last leaves one more tombstone, so the
    number of entries is enough fuel. -/
def pushLoop : Nat → Model → Model
  | 0, m => m
  | fuel + 1, m =>
    match m.takeHash (Val.ofNat (m.array.length + 1)) with
    | (value, m) => if value = .nil then m else pushLoop fuel { m with array := m.array ++ [value] }

def push (value : Val) : Model := pushLoop (m.hash.length + 1) { m with array := m.array ++ [value] }

def insert (key value : Val) : Model :=
  match m.arrayKey key with
  | some slot => { m with array := m.array.set slot value }
  | none =>
    if value = .nil then (m.takeHash key).2
    else if key.eq (Val.ofNat (m.array.length + 1)) then m.push value
    else match m.hashSlot key with
      | some i =>
        if (m.hash.getD i (.nil, .nil)).2.isLive then
          { m with hash := m.hash.modify i fun e => (e.1, value) }
        else { m with hash := m.hash.eraseIdx i ++ [(key, value)] }
      | none => { m with hash := m.hash ++ [(key, value)] }

def get (key : Val) : Val :=
  match m.arrayKey key with
  | some slot => m.array.getD slot .nil
  | none =>
    match m.hashSlot key with
    | some i => (m.hash.getD i (.nil, .nil)).2
    | none => .nil

/-- The binary search of `border`. -/
def borderLoop : Nat → Nat → Nat → Nat
  | 0, lo, _ => lo
  | fuel + 1, lo, hi =>
    if 1 < hi - lo then
      let mid := lo + (hi - lo) / 2
      if m.array.getD (mid - 1) .nil = .nil then borderLoop fuel lo mid else borderLoop fuel mid hi
    else lo

def border : Nat :=
  match m.array.getLast? with
  | none => 0
  | some last => if last.isLive then m.array.length else m.borderLoop m.array.length 0 m.array.length

def arrayInsert (pos : Nat) (value : Val) : Model :=
  let len := m.border
  if len < m.array.length then
    -- Rotate the slots `pos - 1..=len` right by one.
    let rotated := m.array.take (pos - 1) ++
      m.array.getD len .nil :: (m.array.take len).drop (pos - 1) ++ m.array.drop (len + 1)
    { m with array := rotated.set (pos - 1) value }
  else if pos = len + 1 then m.insert (Val.ofNat pos) value
  else
    let inserted := m.array.insertIdx (pos - 1) value
    { m with array := inserted.dropLast }.push (inserted.getLastD .nil)

def arrayRemove (pos : Nat) : Val × Model :=
  let len := m.border
  if 1 ≤ pos ∧ pos ≤ len then
    -- Copy the slots `pos..len` down by one, and clear the last.
    let copied := m.array.take (pos - 1) ++ (m.array.take len).drop pos ++ m.array.drop (len - 1)
    (m.array.getD (pos - 1) .nil, { m with array := copied.set (len - 1) .nil })
  else (m.get (Val.ofNat pos), m.insert (Val.ofNat pos) .nil)

/-- The positional fields of a constructor, key by key: at the key after the array
    nil still occupies its slot. -/
def setList (m : Model) (first : Nat) : List Val → Model
  | [] => m
  | v :: vs =>
    setList (if first = m.array.length + 1 then m.push v else m.insert (Val.ofNat first) v)
      (first + 1) vs

def pairs : List (Val × Val) :=
  ((m.array.zipIdx.map fun e => (Val.ofNat (e.2 + 1), e.1)) ++ m.hash).filter fun e => e.2.isLive

/-! ## Contents -/

/-- The entries of the hash part, as slots. -/
def slots : List (TableKey × Val) := (TableStorage.inline m.hash).slots

def contents : Contents := ⟨m.array, liveEntries m.slots⟩

/-- The keys of the hash part are valid and different. -/
def Ok : Prop := SlotsOk m.slots

variable {m} {key v : Val} {i : Nat}

theorem arrayKey_eq : m.arrayKey key = key.slotBelow m.array.length := by
  cases key <;> simp only [arrayKey, slotBelow, toNat?]
  case num x =>
    rw [arrayIndex, integerIndex]
    rcases x.exactNat with _ | _ | n
    · rfl
    · simp
    · by_cases h : n < m.array.length
      · simp [h, Nat.succ_le_of_lt h]
      · simp [h, Nat.not_le.2 (Nat.lt_succ_of_le (Nat.le_of_not_lt h))]

/-- The entry of a key of the hash part. -/
theorem hashSlot_split (h : m.hashSlot key = some i) :
    ∃ A k w B, m.hash = A ++ (k, w) :: B ∧ i = A.length ∧ k.eq key = true := by
  obtain ⟨hi, hk, -⟩ := List.findIdx?_eq_some_iff_getElem.1 h
  obtain ⟨A, B, hs, hl⟩ := exists_split (List.getElem?_eq_getElem hi)
  exact ⟨A, _, _, B, hs, hl.symm, hk⟩

theorem slots_split {A B : List (Val × Val)} {k w : Val} (h : m.hash = A ++ (k, w) :: B) :
    m.slots = (TableStorage.inline A).slots ++ (.live k, w) :: (TableStorage.inline B).slots := by
  rw [slots, h]
  simp [TableStorage.slots]

theorem slots_absent (h : m.hashSlot key = none) : SlotsAbsent m.slots key := by
  rintro s hs
  obtain ⟨e, he, rfl⟩ := List.mem_map.1 hs
  exact List.findIdx?_eq_none_iff.1 h e he

theorem hashGet_eq (h : m.Ok) :
    (match m.hashSlot key with
      | some i => (m.hash.getD i (.nil, .nil)).2
      | none => .nil) = m.contents.hashGet key := by
  rw [Contents.hashGet, contents]
  cases hs : m.hashSlot key with
  | none => rw [lookup_of_absent (slots_absent hs).liveEntries]; rfl
  | some i =>
    obtain ⟨A, k, w, B, hh, rfl, hk⟩ := hashSlot_split hs
    have hok := h
    rw [Ok, slots_split hh] at hok
    simp only [hh, List.getD_eq_getElem?_getD, List.getElem?_append_right (Nat.le_refl _),
      Nat.sub_self, List.getElem?_cons_zero, Option.getD_some]
    cases hw : w.isLive with
    | true =>
      rw [slots_split hh, liveEntries_append, liveEntries_cons_live hw,
        lookup_split (hok.absent_split hk).1.liveEntries hk, Option.getD_some]
    | false =>
      rw [slots_split hh, lookup_of_absent (absent_liveEntries_of_dead hok hk hw), Option.getD_none]
      exact isLive_eq_false.1 hw

theorem get_contents (h : m.Ok) (key : Val) : m.get key = m.contents.get key := by
  rw [get, Contents.get, arrayKey_eq]
  change _ = match key.slotBelow m.array.length with
    | some i => m.array.getD i .nil
    | none => m.contents.hashGet key
  cases key.slotBelow m.array.length with
  | some i => rfl
  | none => exact hashGet_eq h

theorem border_contents : m.border = m.contents.border := by
  have hloop : ∀ fuel lo hi, m.borderLoop fuel lo hi = Contents.borderLoop m.array fuel lo hi := by
    intro fuel
    induction fuel with
    | zero => exact fun _ _ => rfl
    | succ fuel ih =>
      intro lo hi
      simp only [borderLoop, Contents.borderLoop, ih]
  have harr : m.contents.arr = m.array := rfl
  rw [border, Contents.border, harr, hloop]
  rcases List.eq_nil_or_concat m.array with hnil | ⟨init, last, hc⟩
  · simp [hnil, Contents.borderLoop]
  · simp [hc]

theorem pairs_contents : m.pairs = m.contents.pairs := by
  rw [pairs, Contents.pairs, List.filter_append]
  congr 1
  simp only [contents, slots, TableStorage.slots, liveEntries, List.filterMap_map]
  rw [← List.filterMap_eq_filter]
  refine List.filterMap_congr fun e _ => ?_
  simp only [Function.comp_apply, liveEntry, Option.guard_apply, TableKey.asLive, Option.map_some]

/-! ## Operations and contents -/

/-- Taking a hash key erases it from the contents. -/
theorem takeHash_spec (h : m.Ok) (key : Val) :
    (m.takeHash key).2.Ok ∧ (m.takeHash key).1 = m.contents.hashGet key ∧
      (m.takeHash key).2.array = m.array ∧
      (m.takeHash key).2.contents = { m.contents with hash := erase Val.eq m.contents.hash key } := by
  rw [← hashGet_eq h, takeHash]
  cases hs : m.hashSlot key with
  | none =>
    have habs := (slots_absent hs).liveEntries
    refine ⟨h, rfl, rfl, ?_⟩
    simp only [contents, erase_of_absent habs]
  | some i =>
    obtain ⟨A, k, w, B, hh, rfl, hk⟩ := hashSlot_split hs
    have hok := h
    rw [Ok, slots_split hh] at hok
    have hh' : m.hash.modify A.length (fun e => (e.1, .nil)) = A ++ (k, .nil) :: B := by
      rw [hh, modify_split]
    refine ⟨?_, rfl, rfl, ?_⟩
    · rw [Ok, slots_split hh']
      exact hok.write
    · simp only [contents]
      rw [slots_split hh', slots_split hh, liveEntries_clear hok hk]

theorem pushLoop_spec (h : m.Ok) (fuel : Nat) :
    (pushLoop fuel m).Ok ∧ (pushLoop fuel m).contents = Contents.migrateLoop fuel m.contents := by
  induction fuel generalizing m with
  | zero => exact ⟨h, rfl⟩
  | succ fuel ih =>
    obtain ⟨h₁, h₂, h₃, h₄⟩ := takeHash_spec h (Val.ofNat (m.array.length + 1))
    rw [pushLoop, Contents.migrateLoop]
    generalize m.takeHash (Val.ofNat (m.array.length + 1)) = r at h₁ h₂ h₃ h₄
    obtain ⟨value, m'⟩ := r
    simp only at h₁ h₂ h₃ h₄ ⊢
    rw [Contents.hashGet] at h₂
    have harr : m.contents.arr = m.array := rfl
    rw [harr]
    cases hl : lookup Val.eq m.contents.hash (Val.ofNat (m.array.length + 1)) with
    | none =>
      rw [hl, Option.getD_none] at h₂
      rw [if_pos h₂]
      refine ⟨h₁, h₄.trans ?_⟩
      simp only [erase_of_absent (absent_of_lookup_eq_none hl)]
    | some v =>
      rw [hl, Option.getD_some] at h₂
      subst h₂
      obtain ⟨A, k, B, hs, -, -⟩ := exists_split_of_lookup hl
      have hmem : (k, value) ∈ liveEntries m.slots := by
        rw [show liveEntries m.slots = m.contents.hash from rfl, hs]
        simp
      rw [if_neg (isLive_iff.1 (mem_liveEntries.1 hmem).2)]
      have hc : ({ m' with array := m'.array ++ [value] } : Model).contents =
          ⟨m.array ++ [value], erase Val.eq m.contents.hash (Val.ofNat (m.array.length + 1))⟩ := by
        have hh : m'.contents.hash = erase Val.eq m.contents.hash (Val.ofNat (m.array.length + 1)) :=
          congrArg Contents.hash h₄
        exact congrArg₂ Contents.mk (by rw [h₃]) hh
      simp only
      rw [← hc]
      exact ih (m := { m' with array := m'.array ++ [value] }) h₁

theorem push_spec (h : m.Ok) : (m.push v).Ok ∧ (m.push v).contents = m.contents.push v := by
  obtain ⟨h₁, h₂⟩ := pushLoop_spec (m := { m with array := m.array ++ [v] }) h (m.hash.length + 1)
  refine ⟨h₁, h₂.trans ?_⟩
  refine Contents.migrateLoop_of_le ?_
  refine Nat.le_succ_of_le ((List.length_filterMap_le _ _).trans (Nat.le_of_eq ?_))
  simp [slots, TableStorage.slots]

theorem insert_spec (h : m.Ok) (hk : key.isValidTableKey = true ∨ v = .nil)
    (hlen : m.array.length + 1 ≤ 2 ^ 53) :
    (m.insert key v).Ok ∧ (m.insert key v).contents = m.contents.insert key v := by
  have hslot : m.contents.slot key = key.slotBelow m.array.length := rfl
  rw [insert, Contents.insert, arrayKey_eq, hslot]
  cases key.slotBelow m.array.length with
  | some i => exact ⟨h, rfl⟩
  | none =>
    simp only
    by_cases hv : v = .nil
    · rw [if_pos hv, if_pos hv]
      obtain ⟨h₁, -, -, h₄⟩ := takeHash_spec h key
      exact ⟨h₁, h₄⟩
    rw [if_neg hv, if_neg hv]
    have hval := hk.resolve_right hv
    have hlive := isLive_iff.2 hv
    by_cases ha : key.eq (Val.ofNat (m.array.length + 1)) = true
    · rw [if_pos ha, if_pos (by exact (eq_ofNat_iff hlen).1 ha)]
      exact push_spec h
    · rw [if_neg ha, if_neg (by exact fun hn => ha ((eq_ofNat_iff hlen).2 hn))]
      cases hs : m.hashSlot key with
      | none =>
        have habs := slots_absent hs
        have hslots : ({ m with hash := m.hash ++ [(key, v)] } : Model).slots =
            m.slots ++ [(.live key, v)] := by simp [slots, TableStorage.slots]
        refine ⟨?_, ?_⟩
        · rw [Ok, hslots]
          exact SlotsOk.push h hval habs
        · simp only [contents, hslots, liveEntries_append, liveEntries_cons_live hlive]
          rw [assign_of_absent habs.liveEntries]
          rfl
      | some i =>
        obtain ⟨A, k, w, B, hh, rfl, hk⟩ := hashSlot_split hs
        have hok := h
        rw [Ok, slots_split hh] at hok
        have hget : m.hash.getD A.length (.nil, .nil) = (k, w) := by simp [hh]
        simp only [hget]
        cases hw : w.isLive with
        | true =>
          have hh' : m.hash.modify A.length (fun e => (e.1, v)) = A ++ (k, v) :: B := by
            rw [hh, modify_split]
          simp only [if_true, hh']
          refine ⟨?_, ?_⟩
          · rw [Ok, slots_split rfl]
            exact hok.write
          · simp only [contents]
            rw [slots_split rfl, slots_split hh, liveEntries_overwrite hok hk hw hlive]
        | false =>
          -- A tombstoned key is removed and added last.
          have hslots : ({ m with hash := m.hash.eraseIdx A.length ++ [(key, v)] } : Model).slots =
              ((TableStorage.inline A).slots ++ (TableStorage.inline B).slots) ++
                [(.live key, v)] := by
            rw [slots, hh, eraseIdx_split]
            simp [TableStorage.slots]
          obtain ⟨hA, hB⟩ := hok.absent_split hk
          have habs : SlotsAbsent
              ((TableStorage.inline A).slots ++ (TableStorage.inline B).slots) key := by
            intro s hm
            rcases List.mem_append.1 hm with hm | hm
            · exact hA s hm
            · exact hB s hm
          have hrest : SlotsOk ((TableStorage.inline A).slots ++ (TableStorage.inline B).slots) :=
            hok.remove fun j w hm => by
              simp [TableStorage.slots] at hm
          simp only [Bool.false_eq_true, if_false]
          refine ⟨?_, ?_⟩
          · rw [Ok, hslots]
            exact hrest.push hval habs
          · simp only [contents, hslots, slots_split hh]
            rw [assign_of_absent (absent_liveEntries_of_dead hok hk hw)]
            have hdead : liveEntries ((.live k, w) :: (TableStorage.inline B).slots) =
                liveEntries (TableStorage.inline B).slots := liveEntries_cons_dead hw
            rw [liveEntries_append, liveEntries_append, liveEntries_append, hdead,
              liveEntries_cons_live hlive]
            rfl

theorem arrayInsert_spec {pos : Nat} (h : m.Ok) (h₁ : 1 ≤ pos) (h₂ : pos ≤ m.border + 1)
    (hlen : m.array.length + 1 ≤ 2 ^ 53) :
    (m.arrayInsert pos v).Ok ∧ (m.arrayInsert pos v).contents = m.contents.insertAt pos v := by
  have hb := Contents.border_isBorder (c := m.contents)
  have harr : m.contents.arr = m.array := rfl
  rw [harr] at hb
  rw [arrayInsert, Contents.insertAt, harr]
  rw [border_contents] at h₂ ⊢
  generalize m.contents.border = len at hb h₂
  have hle := hb.le
  have hvalid : (Val.ofNat pos).isValidTableKey = true :=
    isValidTableKey_of_toNat? (toNat?_ofNat (by omega))
  by_cases hin : len < m.array.length
  · simp only [hin, if_true]
    refine ⟨h, ?_⟩
    -- Rotating and writing the slot is shifting up.
    have hrot : (m.array.take (pos - 1) ++ m.array.getD len .nil :: (m.array.take len).drop (pos - 1) ++
        m.array.drop (len + 1)).set (pos - 1) v = Shift.up m.array (pos - 1) len v :=
      Shift.set_up (by omega) hle
    have hc : ({ m with array := Shift.up m.array (pos - 1) len v } : Model).contents =
        { m.contents with arr := Shift.up m.array (pos - 1) len v } := rfl
    rw [hrot, hc]
    by_cases hpos : pos = len + 1
    · subst hpos
      have hslot : m.contents.slot (Val.ofNat (len + 1)) = some len :=
        slotBelow_ofNat hin (Nat.le_of_succ_le hlen)
      rw [if_pos rfl, Contents.insert, hslot, Nat.add_sub_cancel, Shift.up_self hin]
      rfl
    · rw [if_neg hpos]
  · obtain rfl : len = m.array.length := by omega
    simp only [hin, if_false]
    by_cases hpos : pos = m.array.length + 1
    · rw [if_pos hpos, if_pos hpos]
      exact insert_spec h (.inl hvalid) hlen
    · rw [if_neg hpos, if_neg hpos]
      have hins : m.array.insertIdx (pos - 1) v = Shift.up m.array (pos - 1) m.array.length v :=
        Shift.insertIdx_eq_up (by omega)
      have hne : Shift.up m.array (pos - 1) m.array.length v ≠ [] := by simp [Shift.up]
      obtain ⟨p₁, p₂⟩ := push_spec (m := { m with array :=
          (Shift.up m.array (pos - 1) m.array.length v).dropLast })
        (v := (Shift.up m.array (pos - 1) m.array.length v).getLastD .nil) h
      rw [hins]
      refine ⟨p₁, p₂.trans ?_⟩
      rw [Contents.push]
      congr 1
      refine congrArg₂ Contents.mk ?_ rfl
      rw [List.getLastD_eq_getLast?, List.getLast?_eq_getLast_of_ne_nil hne, Option.getD_some]
      exact List.dropLast_append_getLast hne

theorem arrayRemove_spec (h : m.Ok) (hlen : m.array.length + 1 ≤ 2 ^ 53) (pos : Nat) :
    (m.arrayRemove pos).2.Ok ∧ (m.arrayRemove pos).2.contents = (m.contents.removeAt pos).2 := by
  have hb := Contents.border_isBorder (c := m.contents)
  have harr : m.contents.arr = m.array := rfl
  rw [harr] at hb
  rw [arrayRemove, Contents.removeAt, border_contents, harr]
  generalize m.contents.border = len at hb
  have hle := hb.le
  by_cases hpos : 1 ≤ pos ∧ pos ≤ len
  · simp only [hpos, and_self, if_true]
    have hcopy : (m.array.take (pos - 1) ++ (m.array.take len).drop pos ++
        m.array.drop (len - 1)).set (len - 1) .nil = Shift.down m.array (pos - 1) len .nil := by
      rw [← Shift.set_down (by omega) hle, Nat.sub_add_cancel hpos.1]
    rw [hcopy]
    exact ⟨h, rfl⟩
  · simp only [hpos, if_false]
    exact insert_spec h (.inr rfl) hlen

/-! ## A model beside a flat table -/

/-- The model has the contents of a flat table. -/
structure Tracks (m : Model) (f : Flat) : Prop where
  ok : m.Ok
  contents : m.contents = f.contents

variable {f : Flat}

theorem Tracks.length_eq (h : m.Tracks f) : m.array.length = f.arr.length :=
  congrArg (List.length ∘ Contents.arr) h.contents

/-- The array of a flat table is short enough for its keys to be exact. -/
theorem Tracks.length_le (h : m.Tracks f) (hf : f.Ok) : m.array.length + 1 ≤ 2 ^ 53 := by
  have hmax : maxArrayLen + 1 ≤ 2 ^ 53 := by decide
  have := hf.len_le
  rw [h.length_eq]
  omega

/-- An operation that succeeds leaves the model with the contents, if it does the
    same to the contents of the model. -/
theorem Tracks.does {m' : Model} {r : Except TableError Unit × Flat} {c : Contents} (hd : f.Does r c)
    (hp : f.storage.policy.reviveInPlace = false) (hr : r.1 = .ok ()) (hm : m'.Ok ∧ m'.contents = c) :
    m'.Tracks r.2 := ⟨hm.1, hm.2.trans (hd.contents hp hr).symm⟩

/-- A key that is assigned with success is valid. -/
theorem isValidTableKey_of_insert (h : (f.insert key v).1 = .ok ()) :
    key.isValidTableKey = true := by
  rw [Flat.insert] at h
  cases hs : f.slot key with
  | some i => exact isValidTableKey_of_toNat? (slotBelow_eq_some.1 hs).1
  | none =>
    cases hk : TableKey.new key with
    | ok k => exact Flat.isValidTableKey_of_new hk
    | error e => simp [hs, hk] at h

theorem Tracks.insert (h : m.Tracks f) (hf : f.Ok) (hp : f.storage.policy.reviveInPlace = false)
    (hr : (f.insert key v).1 = .ok ()) : (m.insert key v).Tracks (f.insert key v).2 := by
  refine .does (Flat.insert_does hf key v) hp hr ?_
  rw [← h.contents]
  exact insert_spec h.ok (.inl (isValidTableKey_of_insert hr)) (h.length_le hf)

theorem Tracks.push (h : m.Tracks f) (hf : f.Ok) (hp : f.storage.policy.reviveInPlace = false)
    (hr : (f.append v).1 = .ok ()) : (m.push v).Tracks (f.append v).2 := by
  refine .does (Flat.append_does hf) hp hr ?_
  rw [← h.contents]
  exact push_spec h.ok

theorem Tracks.arrayInsert {pos : Nat} (h : m.Tracks f) (hf : f.Ok)
    (hp : f.storage.policy.reviveInPlace = false) (h₁ : 1 ≤ pos)
    (h₂ : pos ≤ Contents.border ⟨f.arr, []⟩ + 1) (hr : (f.arrayInsert pos v).1 = .ok ()) :
    (m.arrayInsert pos v).Tracks (f.arrayInsert pos v).2 := by
  refine .does (Flat.arrayInsert_does hf h₁ h₂) hp hr ?_
  have hb : m.border = f.contents.border := by rw [border_contents, h.contents]
  rw [← h.contents]
  exact arrayInsert_spec h.ok h₁ (hb ▸ h₂) (h.length_le hf)

theorem Tracks.arrayRemove {pos : Nat} (h : m.Tracks f) (hf : f.Ok) :
    (m.arrayRemove pos).2.Tracks (f.arrayRemove pos).2 := by
  obtain ⟨-, -, -, hc⟩ := Flat.arrayRemove_spec hf pos
  obtain ⟨hok, hm⟩ := arrayRemove_spec h.ok (h.length_le hf) pos
  exact ⟨hok, by rw [hm, hc, h.contents]⟩

theorem Tracks.setList {vs : List Val} {first : Nat} (h : m.Tracks f) (hf : f.Ok)
    (hp : f.storage.policy.reviveInPlace = false) (hr : (f.setList first vs).1 = .ok ()) :
    (m.setList first vs).Tracks (f.setList first vs).2 := by
  induction vs generalizing m f first with
  | nil => exact h
  | cons v vs ih =>
    have hd := Flat.storeElement_does hf first v
    have hstep : (f.storeElement first v).1 = .ok () →
        (if first = m.array.length + 1 then m.push v else m.insert (Val.ofNat first) v).Tracks
          (f.storeElement first v).2 := by
      intro hr
      rw [h.length_eq]
      rw [Flat.storeElement] at hr ⊢
      by_cases hfirst : first = f.arr.length + 1
      · rw [if_pos hfirst] at hr ⊢
        rw [if_pos hfirst]
        exact h.push hf hp hr
      · rw [if_neg hfirst] at hr ⊢
        rw [if_neg hfirst]
        exact h.insert hf hp hr
    rw [Flat.setList] at hr ⊢
    rw [Model.setList]
    generalize f.storeElement first v = q at hr hstep hd
    obtain ⟨res, f'⟩ := q
    cases res with
    | error e => simp at hr
    | ok _ => exact ih (hstep rfl) hd.ok (by rw [hd.policy]; exact hp) hr

end Model

/-! ## Runs -/

/-- What an operation of a table does to the model beside it. A slot index is
    resolved by the table: it stands for the key of its slot. An invalid key is
    refused. -/
def Model.apply (m : Model) (t : Table) : TableOp → Option Model
  | .insert key value => some (if key.isValidTableKey then m.insert key value else m)
  | .append value => some (m.push value)
  | .setAtIndex index value =>
    match t.getIndex index with
    | some (some (key, _)) => some (m.insert key value)
    | _ => some m
  | .removeAtIndex index =>
    match t.getIndex index with
    | some (some (key, _)) => some (m.insert key .nil)
    | _ => some m
  | .setList first values => some (m.setList first values)
  | .arrayInsert pos value => some (m.arrayInsert pos value)
  | .arrayRemove pos => some (m.arrayRemove pos).2
  | _ => none

namespace Table

variable {t t' : Table} {m m' : Model}

/-- A table and a model that went through the same operations from the empty table
    on, none of them refused for want of room. -/
inductive CoRun : Table → Model → Prop
  | empty : CoRun empty .empty
  | apply (A : Allocator) (op : TableOp) {t t' : Table} {m m' : Model} {r : Except TableError Val}
    (h : CoRun t m) (ha : t.Admits op) (hm : m.apply t op = some m')
    (hs : t.apply A op = some (r, t'))
    (hr : ∀ e, r = .error e → ∃ key v, op = .insert key v ∧ key.isValidTableKey = false) :
    CoRun t' m'

/-- What a run keeps: the table and the model have the same contents. -/
structure Beside (t : Table) (m : Model) : Prop where
  ok : t.Ok
  tracks : m.Tracks t.flat
  policy : t.storage.policy = {}

theorem Beside.revive (h : Beside t m) : t.flat.storage.policy.reviveInPlace = false := by
  rw [show t.flat.storage = t.storage from rfl, h.policy]

/-- Where an operation left the flat table of another that succeeded. -/
theorem Beside.of_does {r : Except TableError Unit × Flat} {c : Contents} (h : Beside t m)
    (hd : t.flat.Does r c) (hw : t'.WindowOk) (hf : t'.flat = r.2) (hm : m'.Tracks r.2) :
    Beside t' m' where
  ok := ok_iff.2 ⟨hw, hf ▸ hd.ok⟩
  tracks := hf ▸ hm
  policy := by
    have := hd.policy
    rw [← hf] at this
    exact this.trans h.policy

/-- An assignment that leaves the flat table of another. -/
theorem Beside.insert {key v : Val} (h : Beside t m) (hok : t'.Ok)
    (hins : t.flat.insert key v = (.ok (), t'.flat)) : Beside t' (m.insert key v) := by
  have hflat := (ok_iff.1 h.ok).2
  refine h.of_does (Flat.insert_does hflat key v) hok.window (by rw [hins]) ?_
  exact h.tracks.insert hflat h.revive (by rw [hins])

/-- A step of a run. -/
theorem Beside.apply {A : Allocator} {op : TableOp} {r : Except TableError Val} (h : Beside t m)
    (ha : t.Admits op) (hm : m.apply t op = some m') (hs : t.apply A op = some (r, t'))
    (hr : ∀ e, r = .error e → ∃ key v, op = .insert key v ∧ key.isValidTableKey = false) :
    Beside t' m' := by
  have hflat := (ok_iff.1 h.ok).2
  have hp := h.revive
  -- An operation without a result that must not fail succeeded.
  have hdone : ∀ {o : Option (Outcome Unit)}, o.map returnNil = some (r, t') →
      (∀ e, r ≠ .error e) → o = some (.ok (), t') := by
    rintro (_ | ⟨res, u⟩) ho hne
    · cases ho
    · cases ho
      cases res with
      | ok _ => rfl
      | error e => exact absurd rfl (hne e)
  cases op with
  | insert key v =>
    rw [Model.apply, Option.some.injEq] at hm
    have hins : Refines A (· = t.flat) (t.insert A key v) (t.flat.insert key v) := insert_refines h.ok
    obtain ⟨res, u, he, hw, hcase⟩ := hins
    simp only [Table.apply, he, Option.map_some, returnNil, Option.some.injEq, Prod.mk.injEq] at hs
    obtain ⟨rfl, rfl⟩ := hs
    cases hk : key.isValidTableKey with
    | false =>
      -- An invalid key changes nothing.
      have hsame : (t.flat.insert key v).2 = t.flat := by
        have hslot : t.flat.slot key = none := by
          cases hs : t.flat.slot key with
          | none => rfl
          | some s =>
            have := isValidTableKey_of_toNat? (slotBelow_eq_some.1 hs).1
            rw [hk] at this
            cases this
        rw [Flat.insert, hslot]
        cases hn : TableKey.new key with
        | error e => rfl
        | ok k =>
          have := Flat.isValidTableKey_of_new hn
          rw [hk] at this
          cases this
      have hf : u.flat = t.flat := by
        rcases hcase with ⟨-, hf⟩ | ⟨-, -, hf⟩
        · rw [hf, hsame]
        · exact hf
      rw [hk] at hm
      obtain rfl : m = m' := hm
      exact ⟨ok_iff.2 ⟨hw, hf ▸ hflat⟩, hf ▸ h.tracks,
        (congrArg (TableStorage.policy ∘ Flat.storage) hf).trans h.policy⟩
    | true =>
      rw [hk, if_pos rfl] at hm
      subst hm
      have hok : res = .ok () := by
        cases res with
        | ok _ => rfl
        | error e =>
          obtain ⟨key', v', heq, hinv⟩ := hr e rfl
          cases heq
          rw [hk] at hinv
          cases hinv
      subst hok
      obtain ⟨h₁, h₂⟩ | ⟨h₁, -⟩ := hcase
      · exact h.insert (ok_iff.2 ⟨hw, h₂ ▸ (Flat.insert_does hflat key v).ok⟩)
          (Prod.ext h₁.symm h₂.symm)
      · cases h₁
  | append v =>
    rw [Model.apply, Option.some.injEq] at hm
    subst hm
    obtain ⟨hw, h₁, h₂⟩ := (append_refines h.ok).of_ok
      (hdone hs fun e he => by obtain ⟨_, _, heq, -⟩ := hr e he; cases heq)
    exact h.of_does (Flat.append_does hflat) hw h₂ (h.tracks.push hflat hp h₁)
  | setAtIndex index v =>
    obtain ⟨e, hget, -, hok, heff⟩ := setAtIndex_spec h.ok ha index
    simp only [Table.apply, Option.some.injEq] at hs
    cases hs
    rw [Model.apply, hget] at hm
    cases e with
    | none =>
      simp only [Option.some.injEq] at hm
      subst hm
      simp only at heff
      rw [heff]
      exact h
    | some e =>
      simp only [Option.some.injEq] at hm
      subst hm
      exact h.insert hok heff
  | removeAtIndex index =>
    obtain ⟨e, b, u, hget, he, -, hok, heff⟩ := removeAtIndex_spec h.ok index
    simp only [Table.apply, he, Option.map_some, Option.some.injEq] at hs
    cases hs
    rw [Model.apply, hget] at hm
    cases e with
    | none =>
      simp only [Option.some.injEq] at hm
      subst hm
      simp only at heff
      rw [heff]
      exact h
    | some e =>
      simp only [Option.some.injEq] at hm
      subst hm
      exact h.insert hok heff
  | setList first vs =>
    rw [Model.apply, Option.some.injEq] at hm
    subst hm
    have hlist := hdone hs fun e he => by obtain ⟨_, _, heq, -⟩ := hr e he; cases heq
    obtain ⟨res, u, he, hset⟩ := setList_spec (A := A) h.ok first vs
    rw [he] at hlist
    cases hlist
    have hst := hset.stored rfl
    exact h.of_does (Flat.setList_does hflat first vs) hset.ok.window (by rw [hst])
      (h.tracks.setList hflat hp (by rw [hst]))
  | arrayInsert pos v =>
    rw [Model.apply, Option.some.injEq] at hm
    subst hm
    have hle : pos ≤ Contents.border ⟨t.flat.arr, []⟩ + 1 := arrayLen_flat h.ok.window ▸ ha.2
    obtain ⟨hw, h₁, h₂⟩ := (arrayInsert_refines h.ok ha.1 ha.2).of_ok
      (hdone hs fun e he => by obtain ⟨_, _, heq, -⟩ := hr e he; cases heq)
    exact h.of_does (Flat.arrayInsert_does hflat ha.1 hle) hw h₂
      (h.tracks.arrayInsert hflat hp ha.1 hle h₁)
  | arrayRemove pos =>
    rw [Model.apply, Option.some.injEq] at hm
    subst hm
    cases r with
    | error e =>
      obtain ⟨_, _, heq, -⟩ := hr e rfl
      cases heq
    | ok removed =>
      obtain ⟨hw, -, h₂⟩ := (arrayRemove_refines h.ok).of_ok hs
      obtain ⟨hok, hpol, -⟩ := Flat.arrayRemove_spec hflat pos
      refine ⟨ok_iff.2 ⟨hw, h₂ ▸ hok⟩, h₂ ▸ h.tracks.arrayRemove hflat, ?_⟩
      rw [← show t'.flat.storage = t'.storage from rfl, h₂]
      exact hpol.trans h.policy
  | _ => cases hm

theorem CoRun.beside (h : CoRun t m) : Beside t m := by
  induction h with
  | empty => exact ⟨empty_ok, ⟨slotsOk_nil, rfl⟩, rfl⟩
  | apply A op _ ha hm hs hr ih => exact ih.apply ha hm hs hr

/-- However a run goes, the table cannot be told apart from the naive one: every key
    has the same value, the length operator gives the same border and a traversal
    from nil to the end meets the same pairs. And the run can go on: no admitted
    operation fails to return. -/
theorem corun_agrees (h : CoRun t m) :
    (∀ key, t.get key = m.get key) ∧ t.arrayLen = m.border ∧ t.Traverses .nil m.pairs ∧
      ∀ A op, t.Admits op → ∃ r t', t.apply A op = some (r, t') := by
  have hb := h.beside
  have hc := hb.tracks.contents
  have hflat := (ok_iff.1 hb.ok).2
  refine ⟨fun key => ?_, ?_, ?_, fun A op ha => ?_⟩
  · rw [get_flat hb.ok (Nat.le_succ _) key, Flat.get_eq hflat, Model.get_contents hb.tracks.ok, hc]
  · rw [arrayLen_flat hb.ok.window, Model.border_contents, hc]
    rfl
  · rw [Model.pairs_contents, hc]
    exact traverses_pairs hb.ok
  · obtain ⟨r, t', he, -⟩ := apply_ok (A := A) hb.ok ha
    exact ⟨r, t', he⟩

/-- A run that fills the array from the hash part, and clears the front. -/
theorem corun_agrees_migrate : ∃ t m, CoRun t m ∧ t.arrayLen = 3 ∧
    (∀ key, t.get key = m.get key) ∧ t.arrayLen = m.border ∧ t.Traverses .nil m.pairs ∧
      ∀ A op, t.Admits op → ∃ r t', t.apply A op = some (r, t') := by
  have h₁ : CoRun _ _ := .apply .exact (.insert (.ofNat 2) (.bool true)) .empty trivial rfl rfl
    (by rintro e ⟨⟩)
  have h₂ : CoRun _ _ := .apply .exact (.setList 1 [.bool false]) h₁ trivial rfl rfl
    (by rintro e ⟨⟩)
  have h₃ : CoRun _ _ := .apply .exact (.append (.bool true)) h₂ trivial rfl rfl
    (by rintro e ⟨⟩)
  have h₄ : CoRun _ _ := .apply .exact (.removeAtIndex (.array 0)) h₃ trivial rfl rfl
    (by rintro e ⟨⟩)
  exact ⟨_, _, h₄, by decide, corun_agrees h₄⟩

end Table

end Dellingr
