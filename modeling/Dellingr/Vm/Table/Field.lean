import Dellingr.Vm.Table.Operation

/-!
# Fields

Assigning to a key that no array can hold, such as a string: afterwards that key has
the value and every other key what it had (`insert_field`). A table that was filled
so, with nothing deleted, has no dead slots, and its snapshot lists its contents
(`snapshotEntries_of_clean`).
-/

namespace Dellingr

open AssocList Val

/-- A key that is valid and no array key. -/
structure Val.IsField (key : Val) : Prop where
  valid : key.isValidTableKey = true
  outside : ∀ n, key.toNat? = some n → n = 0

theorem Val.isField_str (s : StringPtr) : (Val.str s).IsField := ⟨rfl, by simp [toNat?]⟩

theorem Val.isField_zero : (Val.num (F64.ofNat 0)).IsField :=
  ⟨by decide, fun n hn => (Option.some.inj ((F64.exactNat_ofNat (Nat.zero_le _)).symm.trans hn)).symm⟩

namespace Table

variable {t t' : Table} {A : Allocator} {key v : Val}

/-- Deleted keys are added anew. -/
def Plain (t : Table) : Prop := t.storage.policy.reviveInPlace = false

theorem slotBelow_field (hk : key.IsField) (len : Nat) : key.slotBelow len = none := by
  cases h : key.slotBelow len with
  | none => rfl
  | some s =>
    have := hk.outside _ (slotBelow_eq_some.1 h).1
    omega

/-- Assigning to a field is an operation on the hash part. -/
theorem insert_eq_hashInsert (h : t.Ok) (hk : key.IsField) (hv : v ≠ .nil) :
    t.insert A key v = (t.hashInsert key v).map fun t => (.ok (), t) := by
  have hslot : t.arraySlot key = none := by
    cases hs : t.arraySlot key with
    | none => rfl
    | some p =>
      have hflat := slot_of_arraySlot h.window hs
      rw [Flat.slot, slotBelow_field hk] at hflat
      cases hflat
  have happend : t.isArrayAppendKey key = false := by
    rw [← Bool.not_eq_true, isArrayAppendKey_iff h.vlen_le]
    intro hn
    have := hk.outside _ hn
    omega
  have harray : t.arrayKey key = none := by rw [arrayKey_eq, slotBelow_field hk]; rfl
  obtain ⟨c, hc⟩ := isValidTableKey_iff.1 hk.valid
  have hnew : TableKey.new key = .ok (.live key) := by rw [TableKey.new, hc]; rfl
  simp only [insert, hslot, hnew, hv, if_false, happend, Bool.false_eq_true, harray]

/-- A table and its contents agree on every key. -/
theorem get_contents (h : t.Ok) (k : Val) : t.get k = t.flat.contents.get k := by
  rw [get_flat h (Nat.le_succ _), Flat.get_eq h.flat]

theorem get_empty (k : Val) : empty.get k = .nil := by
  rw [get_contents empty_ok]
  have hslot : empty.flat.contents.slot k = none := by
    cases hs : empty.flat.contents.slot k with
    | none => rfl
    | some i => exact absurd (slotBelow_eq_some.1 hs).2 (Nat.not_lt_zero i)
  rw [Contents.get, hslot]
  rfl

/-- A table with nothing deleted and no array part. -/
structure Clean (t : Table) : Prop where
  dead : t.deadCount = 0
  array : t.array = []
  vlen : t.vlen = 0

theorem clean_empty : empty.Clean := ⟨rfl, rfl, rfl⟩

/-- Assigning to a field leaves a table clean. -/
theorem clean_insert (h : t.Ok) (hc : t.Clean) (hk : key.IsField) (hv : v ≠ .nil)
    (ho : t.insert A key v = some (.ok (), t')) : t'.Clean := by
  rw [insert_eq_hashInsert h hk hv, hashInsert, if_pos hc.dead, Option.map_some,
    Option.some.injEq, Prod.mk.injEq] at ho
  obtain ⟨s, he, -⟩ := insertWithoutTombstones_spec h.flat.hash hk.valid (isLive_iff.2 hv)
    (fun n hn => .inl (hk.outside n hn)) hc.dead
  rw [← ho.2, he]
  exact ⟨hc.dead, hc.array, hc.vlen⟩

/-- What assigning to a field does. -/
structure Assigns (t : Table) (key v : Val) (t' : Table) : Prop where
  ok : t'.Ok
  plain : t'.Plain
  clean : t.Clean → t'.Clean
  get_eq : ∀ k, key.eq k = true → t'.get k = v
  get_other : ∀ k, key.eq k = false → t'.get k = t.get k
  contents : t'.flat.contents = { t.flat.contents with
    hash := assign Val.eq t.flat.contents.hash key v }

theorem Assigns.get_key (h : t.Assigns key v t') (hk : key.IsField) : t'.get key = v :=
  h.get_eq key (eq_self hk.valid)

/-- A field is assigned. -/
theorem insert_field (h : t.Ok) (hp : t.Plain) (hk : key.IsField) (hv : v ≠ .nil) (A : Allocator) :
    ∃ t', t.insert A key v = some (.ok (), t') ∧ t.Assigns key v t' := by
  have href : Refines A (· = t.flat) (t.insert A key v) (t.flat.insert key v) := insert_refines h
  obtain ⟨res, t', ho, hw, -⟩ := href
  have hok : res = .ok () := by
    rw [insert_eq_hashInsert h hk hv, Option.map_eq_some_iff] at ho
    obtain ⟨u, -, hu⟩ := ho
    exact (Prod.mk.inj hu).1.symm
  subst hok
  obtain ⟨-, hres, hflat⟩ := (insert_refines h).of_ok ho
  have hdoes := Flat.insert_does (ok_iff.1 h).2 key v
  have hc := hdoes.contents hp hres
  have hslot : ∀ {c : Contents}, c.slot key = none := slotBelow_field hk _
  have hcontents : t'.flat.contents = { t.flat.contents with
      hash := assign Val.eq t.flat.contents.hash key v } := by
    rw [hflat, hc, Contents.insert, hslot]
    have hne : key.toNat? ≠ some (t.flat.contents.arr.length + 1) := fun hn => by
      have := hk.outside _ hn
      omega
    simp only [hv, if_false, if_neg hne]
  have hok' : t'.Ok := ok_iff.2 ⟨hw, hflat ▸ hdoes.ok⟩
  refine ⟨t', ho, hok', ?_, fun hc => clean_insert h hc hk hv ho, fun k hk' => ?_, fun k hk' => ?_,
    hcontents⟩
  · show t'.flat.storage.policy.reviveInPlace = false
    rw [hflat, hdoes.policy]
    exact hp
  · have hslot' : ∀ {c : Contents}, c.slot k = none :=
      slotBelow_field ⟨isValidTableKey_congr hk' hk.valid, fun n hn =>
        hk.outside n ((toNat?_congr hk').trans hn)⟩ _
    rw [get_contents hok', Contents.get, hslot', Contents.hashGet, hcontents,
      lookup_assign_of_eq hk' fun x => eq_congr_right hk' x]
    rfl
  · rw [get_contents hok', get_contents h, hcontents, Contents.get, Contents.get]
    have hne : ∀ x, Val.eq x key = true → Val.eq x k = false := fun x hx => by
      rw [eq_congr_left hx]
      exact hk'
    simp only [Contents.slot, Contents.hashGet, lookup_assign_of_ne hk' hne]

/-! ## Snapshots of clean tables -/

/-- Slots that are all live are their live entries. -/
theorem slots_eq_of_live {S : List (TableKey × Val)} (hall : ∀ e ∈ S, e.2.isLive = true)
    (hkey : ∀ e ∈ S, ∃ k, e.1 = .live k) : S = (liveEntries S).map fun e => (.live e.1, e.2) := by
  induction S with
  | nil => rfl
  | cons e S ih =>
    obtain ⟨k, hk⟩ := hkey e List.mem_cons_self
    have hentry : liveEntry e = some (k, e.2) := by
      rw [liveEntry, if_pos (hall e List.mem_cons_self), hk]
      rfl
    have htail := ih (fun e he => hall e (List.mem_cons_of_mem _ he))
      fun e he => hkey e (List.mem_cons_of_mem _ he)
    rw [liveEntries, List.filterMap_cons_some hentry, List.map_cons]
    exact congrArg₂ _ (Prod.ext hk rfl) htail

/-- Without dead slots, the slots of a table are its contents. -/
theorem slots_of_clean (h : t.Ok) (hc : t.Clean) :
    t.storage.slots = t.flat.contents.hash.map fun e => (.live e.1, e.2) := by
  have hok : SlotsOk t.storage.slots := h.flat.hash.slots_ok
  have hall : ∀ e ∈ t.storage.slots, e.2.isLive = true := by
    have hz : t.deadCount = t.storage.slots.countP fun e => !e.2.isLive := h.flat.hash.dead_eq
    have hz' := List.countP_eq_zero.1 (hz.symm.trans hc.dead)
    intro e he
    simpa using hz' e he
  refine slots_eq_of_live hall ?_
  rintro ⟨c, w⟩ he
  cases c with
  | live k => exact ⟨k, rfl⟩
  | vacant j =>
    -- A vacant slot is dead.
    obtain ⟨i, hi⟩ := List.mem_iff_getElem?.1 he
    have := hall _ he
    rw [(hok.vacant i j w hi).2] at this
    cases this

/-- The snapshot of a clean table lists its contents, after the marker of a map. -/
theorem snapshotEntries_of_clean (h : t.Ok) (hc : t.Clean) :
    ∃ marker, (marker = [] ∨ marker = [(.nil, .bool true)]) ∧
      t.snapshotEntries = (0, 0, marker ++ t.flat.contents.hash) := by
  have hslots := slots_of_clean h hc
  have hspan : t.snapshotEntries = (0, 0, t.snapshotHashSlots) := by
    simp [snapshotEntries, hc.array, hc.vlen]
  rw [hspan, snapshotHashSlots]
  cases hs : t.storage with
  | inline entries =>
    rw [hs] at hslots
    refine ⟨[], .inl rfl, ?_⟩
    have hinj : entries = t.flat.contents.hash :=
      List.map_injective_iff.2 (fun a b hab => by
        obtain ⟨h₁, h₂⟩ := Prod.mk.inj hab
        exact Prod.ext (TableKey.live.inj h₁) h₂) hslots
    rw [hinj, List.nil_append]
  | map m policy =>
    rw [hs, TableStorage.slots_map] at hslots
    refine ⟨[(.nil, .bool true)], .inr rfl, ?_⟩
    simp only [hslots, List.map_map, List.singleton_append]
    congr 3
    conv_rhs => rw [← List.map_id t.flat.contents.hash]
    rfl

end Table

end Dellingr
