import Mathlib.Data.List.Forall2
import Mathlib.Data.List.Perm.Subperm
import Dellingr.Vm.Table.Operation

/-!
# Traversals that overwrite

A traversal that overwrites keys of the table on its way, clearing them too, in
any order with its own steps (`Walk`). Its position is only a key, which has to be
found again. Overwriting a key that is there moves no slot: the keys of the slots
stay what they were, and so does the position of each key (`insert_of_get`). The
traversal therefore passes the slots in order, visits those that are live when it
comes to them, and ends.

The invariant of a walk (`WalkOk`) counts the slots it has passed: those it has
visited are in order, and a slot that has been live all the time is one of them.
-/

namespace Dellingr

open AssocList Val

namespace Flat

variable {f g : Flat} {key : Val}

/-- The keys of the slots, in the order of a traversal. -/
def keys (f : Flat) : List TableKey := f.entries.map Prod.fst

/-- The keys of the slots determine the position of a key. -/
theorem position_congr (hl : f.arr.length = g.arr.length) (hk : f.keys = g.keys) (key : Val) :
    f.position key = g.position key := by
  have hdrop : ∀ f : Flat, f.storage.slots.map Prod.fst = f.keys.drop f.arr.length := by
    intro f
    rw [keys, ← List.map_drop, entries, List.drop_left' (by simp)]
  have hpos : ∀ f : Flat, f.storage.position key =
      (f.keys.drop f.arr.length).findIdx? (TableKey.lookup key) := by
    intro f
    rw [TableStorage.position_eq, ← hdrop, List.findIdx?_map]
    rfl
  rw [position, position, slot, slot, hpos f, hpos g, hl, hk]

/-- A key that is present has a live slot. -/
theorem live_of_get (h : f.Ok) (hg : f.get key ≠ .nil) :
    ∃ p k w, f.position key = some p ∧ f.entries[p]? = some (.live k, w) ∧ w.isLive = true ∧
      k.eq key = true := by
  rw [get_eq h, Contents.get] at hg
  rw [position]
  have hslot : f.contents.slot key = f.slot key := rfl
  rw [hslot] at hg
  cases hs : f.slot key with
  | some s =>
    obtain ⟨hn, hlt⟩ := slotBelow_eq_some.1 hs
    rw [hs] at hg
    have hmax : maxArrayLen ≤ 2 ^ 53 := by decide
    have hlen := h.len_le
    refine ⟨s, _, _, rfl, entries_array hlt, isLive_iff.2 ?_, ?_⟩
    · simpa [contents, List.getD_eq_getElem?_getD, List.getElem?_eq_getElem hlt] using hg
    · rw [Val.eq_comm]
      exact (eq_ofNat_iff (by omega)).2 hn
  | none =>
    rw [hs] at hg
    simp only [Contents.hashGet] at hg
    cases hl : lookup Val.eq f.contents.hash key with
    | none => simp [hl] at hg
    | some w =>
      obtain ⟨A, k, B, hsplit, -, hk⟩ := exists_split_of_lookup hl
      have hmem : (k, w) ∈ liveEntries f.storage.slots := by
        rw [show liveEntries f.storage.slots = f.contents.hash from rfl, hsplit]
        simp
      obtain ⟨hm, hw⟩ := mem_liveEntries.1 hmem
      obtain ⟨i, hi⟩ := List.mem_iff_getElem?.1 hm
      have hpos : f.storage.position key = some i := by
        rw [TableStorage.position_eq]
        exact h.hash.slots_ok.findIdx?_eq_some.2 ⟨k, w, hi, hk⟩
      exact ⟨_, k, w, by rw [hpos]; rfl, by rw [entries_hash]; exact hi, hw, hk⟩

/-- The key of an array slot. -/
theorem keys_array {p : Nat} (hp : p < f.arr.length) : f.keys[p]? = some (.live (Val.ofNat (p + 1))) := by
  rw [keys, List.getElem?_map, entries_array hp]
  rfl

/-- Different slots have different keys, apart from tombstones of array keys. -/
theorem keys_differ {p q : Nat} {k l : Val} (h : f.Ok) (hpq : p < q) (hp : f.keys[p]? = some (.live k))
    (hq : f.keys[q]? = some (.live l))
    (hout : q < f.arr.length ∨ ∀ n, l.toNat? = some n → n = 0 ∨ f.arr.length + 1 < n) :
    k.eq l = false := by
  have hlen : f.arr.length + 1 ≤ 2 ^ 53 := by
    have hmax : maxArrayLen + 1 ≤ 2 ^ 53 := by decide
    have := h.len_le
    omega
  by_contra hne
  rw [Bool.not_eq_false] at hne
  have hnat := toNat?_congr hne
  by_cases hp' : p < f.arr.length
  · rw [keys_array hp'] at hp
    cases hp
    rw [toNat?_ofNat (by omega)] at hnat
    rcases Nat.lt_or_ge q f.arr.length with hq' | hq'
    · rw [keys_array hq'] at hq
      cases hq
      rw [toNat?_ofNat (by omega), Option.some.injEq] at hnat
      omega
    · have := (hout.resolve_left (by omega)) _ hnat.symm
      omega
  · -- Both are slots of the hash part.
    obtain ⟨i, rfl⟩ := Nat.exists_eq_add_of_le (Nat.le_of_not_lt hp')
    obtain ⟨j, rfl⟩ := Nat.exists_eq_add_of_le (show f.arr.length ≤ q by omega)
    rw [keys, List.getElem?_map, entries_hash, Option.map_eq_some_iff] at hp hq
    obtain ⟨⟨_, v⟩, hi, rfl⟩ := hp
    obtain ⟨⟨_, w⟩, hj, rfl⟩ := hq
    obtain ⟨hi', hie⟩ := List.getElem?_eq_some_iff.1 hi
    obtain ⟨hj', hje⟩ := List.getElem?_eq_some_iff.1 hj
    have := List.pairwise_iff_getElem.1 h.hash.slots_ok.distinct i j hi' hj' (by omega)
    rw [hie, hje] at this
    rw [this k l rfl rfl] at hne
    cases hne

end Flat

namespace Table

variable {A : Allocator} {t t₀ t' : Table} {key v : Val}

/-- Assigning a live hash key succeeds and asks for no storage. -/
theorem insert_live_hash {i : Nat} {k w : Val} (h : t.Ok)
    (hi : t.storage.slots[i]? = some (.live k, w)) (hk : k.eq key = true) (hw : w.isLive = true)
    (A : Allocator) (v : Val) : ∃ t', t.insert A key v = some (.ok (), t') := by
  have hval := h.flat.hash.slots_ok.valid k w (List.mem_of_getElem? hi)
  have hslot := slot_of_live h hi hk hw
  have harr : t.arraySlot key = none := by
    cases ha : t.arraySlot key with
    | none => rfl
    | some q =>
      rw [slot_of_arraySlot h.window ha] at hslot
      cases hslot
  have hkey : t.arrayKey key = none := by
    rw [arrayKey_eq, ← flat_arr_length (t := t)]
    rw [Flat.slot] at hslot
    rw [hslot]
    rfl
  have happ : t.isArrayAppendKey key = false := by
    rw [← Bool.not_eq_true, isArrayAppendKey_iff h.vlen_le]
    intro hn
    have := outside_of_live h hi hw _ ((toNat?_congr hk).trans hn)
    omega
  obtain ⟨c, hc⟩ := isValidTableKey_iff.1 (isValidTableKey_congr hk hval)
  have hnew : TableKey.new key = .ok (.live key) := by rw [TableKey.new, hc]; rfl
  simp only [insert, harr, hnew, happ, hkey, Bool.false_eq_true, if_false,
    hashInsert_of_live h.flat.hash.slots_ok hi hk hw, Option.map_some]
  split
  · exact ⟨_, rfl⟩
  · exact ⟨_, rfl⟩

/-- Overwriting a key that is present succeeds, asks for no storage and keeps the
    keys of the slots. -/
theorem insert_of_get (h : t.Ok) (hg : t.get key ≠ .nil) (A : Allocator) (v : Val) :
    ∃ t', t.insert A key v = some (.ok (), t') ∧ t'.Ok ∧ t'.vlen = t.vlen ∧
      t'.flat.keys = t.flat.keys := by
  have hflat := (ok_iff.1 h).2
  have href : Refines A (· = t.flat) (t.insert A key v) (t.flat.insert key v) := insert_refines h
  have hdoes := Flat.insert_does hflat key v
  rw [get_flat h (Nat.le_succ _) key] at hg
  obtain ⟨p, k, w, hpos, he, hw, hk⟩ := Flat.live_of_get hflat hg
  rcases Nat.lt_or_ge p t.flat.arr.length with hp | hp
  · -- An array key that is live is stored in the window.
    have hpv : p < t.vlen := flat_arr_length (t := t) ▸ hp
    rw [entries_array_flat hpv] at he
    simp only [Option.some.injEq, Prod.mk.injEq, TableKey.live.injEq] at he
    obtain ⟨rfl, rfl⟩ := he
    have hn : key.toNat? = some (p + 1) := by
      rw [Val.eq_comm, eq_ofNat_iff] at hk
      · exact hk
      · have hmax : maxArrayLen ≤ 2 ^ 53 := by decide
        have := h.vlen_le
        omega
    have hin : ∃ q, t.arraySlot key = some q := by
      cases ha : t.arraySlot key with
      | some q => exact ⟨q, rfl⟩
      | none =>
        rw [slotValue_of_arraySlot_none ha hn] at hw
        cases hw
    obtain ⟨q, ha⟩ := hin
    obtain ⟨t', hwr, hok, hf⟩ := writeWindow_flat (v := v) h.window (arraySlot_eq_some.1 ha).2
    have hins : t.insert A key v = some (.ok (), t') := by
      simp only [insert, ha, hwr, Option.map_some]
    obtain ⟨-, -, hfl⟩ := href.of_ok hins
    have hvlen : t'.vlen = t.vlen := by
      rw [← flat_arr_length (t := t'), hf, List.length_set, flat_arr_length]
    refine ⟨t', hins, ok_iff.2 ⟨hok, hfl ▸ hdoes.ok⟩, hvlen, ?_⟩
    rw [Flat.keys, Flat.keys, hf, Flat.entries, Flat.entries, List.map_append, List.map_append]
    congr 1
    refine List.ext_getElem? fun i => ?_
    simp only [List.getElem?_map, List.getElem?_zipIdx, List.getElem?_set]
    split_ifs <;> simp_all
  · -- A live hash key is written in its slot.
    obtain ⟨i, rfl⟩ := Nat.exists_eq_add_of_le hp
    rw [Flat.entries_hash] at he
    have hlive := insert_of_live (v := v) h he hk hw
    obtain ⟨t', hins⟩ := insert_live_hash h he hk hw A v
    obtain ⟨hwin, -, hfl⟩ := href.of_ok hins
    have hf := hfl
    rw [hlive] at hf
    have hvlen : t'.vlen = t.vlen := by
      rw [← flat_arr_length (t := t'), hf]
      exact flat_arr_length
    refine ⟨t', hins, ok_iff.2 ⟨hwin, hfl ▸ hdoes.ok⟩, hvlen, ?_⟩
    rw [Flat.keys, Flat.keys, hf, Flat.entries, Flat.entries, List.map_append, List.map_append]
    congr 1
    rw [TableStorage.slots_setAt]
    refine List.ext_getElem? fun j => ?_
    simp only [List.getElem?_map, List.getElem?_modify]
    split_ifs <;> simp [Option.map_map, Function.comp_def, flat]

/-! ## Walks -/

/-- A traversal of `t₀` under way. It has passed through the tables `past` and has now
    come to `t`, the keys `seen` visited, the last of them in `control`. -/
inductive Walk (t₀ : Table) : (past : List Table) → (t : Table) → (control : Val) →
    (seen : List Val) → Prop
  | start : Walk t₀ [t₀] t₀ .nil []
  | next {past : List Table} {t : Table} {control k v : Val} {seen : List Val}
    (hw : Walk t₀ past t control seen) (hn : t.next control = some (.pair k v)) :
    Walk t₀ past t k (seen ++ [k])
  | overwrite (A : Allocator) (key v : Val) {past : List Table} {t t' : Table} {control : Val}
    {seen : List Val} {r : Except TableError Unit} (hw : Walk t₀ past t control seen)
    (hk : t.get key ≠ .nil) (hs : t.insert A key v = some (r, t')) :
    Walk t₀ (t' :: past) t' control seen

/-- The invariant of a walk that has passed `c` slots and visited the slots `ps`. -/
structure WalkOk (t₀ : Table) (past : List Table) (t : Table) (control : Val) (seen : List Val)
    (c : Nat) (ps : List Nat) : Prop where
  past_ok : ∀ u ∈ past, u.Ok ∧ u.vlen = t₀.vlen ∧ u.flat.keys = t₀.flat.keys
  current : t ∈ past
  cursor : control = .nil ∧ c = 0 ∨
    control.isValidTableKey = true ∧ ∃ p, t₀.flat.position control = some p ∧ c = p + 1
  visits : List.Forall₂ (fun p k => t₀.flat.keys[p]? = some (.live k) ∧
    (p < t₀.vlen ∨ t₀.KeyOutside k)) ps seen
  ordered : ps.Pairwise (· < ·)
  below : ∀ p ∈ ps, p < c
  complete : ∀ p < c, (∀ u ∈ past, ∃ e, u.flat.entries[p]? = some e ∧ e.2.isLive = true) → p ∈ ps

variable {past : List Table} {control k : Val} {seen : List Val} {c : Nat} {ps : List Nat}

namespace WalkOk

/-- All the tables of a walk have the same positions. -/
theorem position_eq (h : WalkOk t₀ past t control seen c ps) {u : Table} (hu : u ∈ past) (key : Val) :
    u.flat.position key = t₀.flat.position key := by
  obtain ⟨-, hv, hk⟩ := h.past_ok u hu
  exact Flat.position_congr (by rw [flat_arr_length, flat_arr_length, hv]) hk key

/-- The next step scans the slots that are left. -/
theorem next_eq (h : WalkOk t₀ past t control seen c ps) :
    t.next control = some (firstLive t.flat.entries c) := by
  rw [next_flat (h.past_ok t h.current).1]
  rcases h.cursor with ⟨rfl, rfl⟩ | ⟨hk, p, hp, rfl⟩
  · rfl
  · rw [← h.position_eq h.current] at hp
    rw [Flat.next_of_position hp hk]

/-- A step of the traversal. -/
theorem next (h : WalkOk t₀ past t control seen c ps) (hn : t.next control = some (.pair k v)) :
    ∃ i, WalkOk t₀ past t k (seen ++ [k]) (i + 1) (ps ++ [i]) := by
  obtain ⟨hok, hv, hkeys⟩ := h.past_ok t h.current
  have hflat := (ok_iff.1 hok).2
  rw [h.next_eq, Option.some.injEq] at hn
  obtain ⟨i, k', v', he, hi, hent, hlive, hdead⟩ | ⟨he, -⟩ :=
    firstLive_cases (Flat.vacant_entries hflat) c
  swap
  · rw [he] at hn
    cases hn
  rw [he] at hn
  cases hn
  obtain ⟨hpos, hval⟩ := Flat.position_of_live hflat hent hlive
  have hkey : t₀.flat.keys[i]? = some (.live k) := by
    rw [← hkeys, Flat.keys, List.getElem?_map, hent]
    rfl
  have hout : i < t₀.vlen ∨ t₀.KeyOutside k := by
    refine (Nat.lt_or_ge i t₀.vlen).imp_right fun hge n hn => ?_
    obtain ⟨d, rfl⟩ := Nat.exists_eq_add_of_le hge
    rw [← hv, ← flat_arr_length (t := t), Flat.entries_hash] at hent
    exact hv ▸ outside_of_live hok hent hlive n hn
  refine ⟨i, h.past_ok, h.current, .inr ⟨hval, i, ?_, rfl⟩, ?_, ?_, fun p hp => ?_, fun p hp hall => ?_⟩
  · rw [← h.position_eq h.current]
    exact hpos
  · exact List.rel_append h.visits (.cons ⟨hkey, hout⟩ .nil)
  · refine List.pairwise_append.2 ⟨h.ordered, List.pairwise_singleton _ _, fun p hp q hq => ?_⟩
    rw [List.mem_singleton.1 hq]
    exact (h.below p hp).trans_le hi
  · rcases List.mem_append.1 hp with hp | hp
    · have := h.below p hp
      omega
    · rw [List.mem_singleton.1 hp]
      exact Nat.lt_succ_self _
  · -- The slots passed over are dead now.
    rcases Nat.lt_or_ge p c with hlt | hge
    · exact List.mem_append_left _ (h.complete p hlt hall)
    · obtain ⟨e, he, hl⟩ := hall t h.current
      rcases Nat.lt_or_eq_of_le (Nat.le_of_lt_succ hp) with hlt | rfl
      · rw [hdead p e hge hlt he] at hl
        cases hl
      · exact List.mem_append_right _ (List.mem_singleton_self _)

/-- An overwrite on the way. -/
theorem overwrite (h : WalkOk t₀ past t control seen c ps) (hk : t.get key ≠ .nil)
    {r : Except TableError Unit} (hs : t.insert A key v = some (r, t')) :
    WalkOk t₀ (t' :: past) t' control seen c ps := by
  obtain ⟨hok, hv, hkeys⟩ := h.past_ok t h.current
  obtain ⟨t'', he, hok', hv', hkeys'⟩ := insert_of_get hok hk A v
  rw [hs] at he
  cases he
  refine ⟨fun u hu => ?_, List.mem_cons_self, h.cursor, h.visits, h.ordered, h.below,
    fun p hp hall => h.complete p hp fun u hu => hall u (List.mem_cons_of_mem _ hu)⟩
  rcases List.mem_cons.1 hu with rfl | hu
  · exact ⟨hok', hv'.trans hv, hkeys'.trans hkeys⟩
  · exact h.past_ok u hu

/-- No key is visited twice. -/
theorem pairwise_seen (h₀ : t₀.Ok) (h : WalkOk t₀ past t control seen c ps) :
    seen.Pairwise fun a b => a.eq b = false := by
  have hv := h.visits
  have hord := h.ordered
  clear h
  induction hv with
  | nil => exact .nil
  | @cons p k ps seen hp hrest ih =>
    obtain ⟨hlt, hord⟩ := List.pairwise_cons.1 hord
    refine List.pairwise_cons.2 ⟨fun l hl => ?_, ih hord⟩
    obtain ⟨i, hi⟩ := List.mem_iff_getElem?.1 hl
    obtain ⟨hi', rfl⟩ := List.getElem?_eq_some_iff.1 hi
    have hlen := hrest.length_eq
    obtain ⟨hq, hout⟩ := List.forall₂_iff_get.1 hrest |>.2 i (by omega) hi'
    refine Flat.keys_differ (ok_iff.1 h₀).2 (hlt _ (List.get_mem _ _)) hp.1 hq ?_
    rw [flat_arr_length]
    exact hout

/-- The walk visits at most one key for each slot. -/
theorem length_seen (h : WalkOk t₀ past t control seen c ps) :
    seen.length ≤ t₀.flat.entries.length := by
  rw [← h.visits.length_eq, ← List.length_range (n := t₀.flat.entries.length)]
  refine (List.subperm_of_subset (h.ordered.imp fun hlt => Nat.ne_of_lt hlt) fun p hp => ?_).length_le
  obtain ⟨i, hi, rfl⟩ := List.mem_iff_getElem.1 hp
  have hlen := h.visits.length_eq
  obtain ⟨hkey, -⟩ := (List.forall₂_iff_get.1 h.visits).2 i hi (by omega)
  obtain ⟨hlt, -⟩ := List.getElem?_eq_some_iff.1 hkey
  rw [List.mem_range]
  simpa [Flat.keys] using hlt

/-- At the end of the slots, every key that has been present all the time has been
    visited. -/
theorem mem_seen (h : WalkOk t₀ past t control seen c ps) (hn : t.next control = some .finished)
    (hall : ∀ u ∈ past, u.get key ≠ .nil) : ∃ k ∈ seen, k.eq key = true := by
  -- The slot of the key, the same in all the tables.
  have hlive : ∀ u ∈ past, ∃ p k w, t₀.flat.position key = some p ∧
      u.flat.entries[p]? = some (.live k, w) ∧ w.isLive = true ∧ k.eq key = true := by
    intro u hu
    have hok := (h.past_ok u hu).1
    have hg := hall u hu
    rw [get_flat hok (Nat.le_succ _) key] at hg
    rw [← h.position_eq hu key]
    exact Flat.live_of_get (ok_iff.1 hok).2 hg
  obtain ⟨p, k, w, hp, he, hw, hk⟩ := hlive t h.current
  have hlt : p < c := by
    obtain ⟨hok, -⟩ := h.past_ok t h.current
    rw [h.next_eq, Option.some.injEq] at hn
    obtain ⟨i, k', v', he', -⟩ | ⟨-, hdead⟩ :=
      firstLive_cases (Flat.vacant_entries (ok_iff.1 hok).2) c
    · rw [he'] at hn
      cases hn
    · by_contra hge
      obtain rfl : w = .nil := hdead p (.live k, w) (Nat.le_of_not_lt hge) he
      cases hw
  have hmem : p ∈ ps := h.complete p hlt fun u hu => by
    obtain ⟨q, l, w', hq, he', hw', -⟩ := hlive u hu
    rw [hp] at hq
    cases hq
    exact ⟨_, he', hw'⟩
  obtain ⟨i, hi, rfl⟩ := List.mem_iff_getElem.1 hmem
  have hlen := h.visits.length_eq
  obtain ⟨hkey, -⟩ := (List.forall₂_iff_get.1 h.visits).2 i hi (by omega)
  rw [← (h.past_ok t h.current).2.2, Flat.keys, List.getElem?_map] at hkey
  change (t.flat.entries[ps[i]]?).map Prod.fst = _ at hkey
  rw [he] at hkey
  cases hkey
  exact ⟨_, List.get_mem _ _, hk⟩

end WalkOk

theorem Walk.ok (h₀ : t₀.Ok) (h : Walk t₀ past t control seen) :
    ∃ c ps, WalkOk t₀ past t control seen c ps := by
  induction h with
  | start =>
    refine ⟨0, [], fun u hu => ?_, List.mem_singleton_self _, .inl ⟨rfl, rfl⟩, .nil, .nil, ?_, ?_⟩
    · rw [List.mem_singleton.1 hu]
      exact ⟨h₀, rfl, rfl⟩
    · intro p hp
      cases hp
    · intro p hp
      exact absurd hp (Nat.not_lt_zero p)
  | next _ hn ih =>
    obtain ⟨c, ps, hok⟩ := ih
    obtain ⟨i, hok⟩ := hok.next hn
    exact ⟨_, _, hok⟩
  | overwrite A key v _ hk hs ih =>
    obtain ⟨c, ps, hok⟩ := ih
    exact ⟨c, ps, hok.overwrite hk hs⟩

/-- A key is equal to one of different keys at most. -/
theorem countP_eq_one (hd : seen.Pairwise fun a b => a.eq b = false) (hk : k ∈ seen)
    (he : k.eq key = true) : (seen.countP fun l => l.eq key) = 1 := by
  obtain ⟨L, R, rfl⟩ := List.append_of_mem hk
  obtain ⟨-, hR, hL⟩ := List.pairwise_append.1 hd
  have hother : ∀ l : Val, l.eq k = false → ¬l.eq key = true := fun l hl hle => by
    rw [Val.eq_congr_right he, hle] at hl
    cases hl
  have h₁ : (L.countP fun l => l.eq key) = 0 :=
    List.countP_eq_zero.2 fun l hl => hother l (hL l hl k List.mem_cons_self)
  have h₂ : (R.countP fun l => l.eq key) = 0 :=
    List.countP_eq_zero.2 fun l hl => hother l (Val.eq_comm l k ▸ (List.pairwise_cons.1 hR).1 l hl)
  rw [List.countP_append, List.countP_cons, h₁, h₂, he]
  rfl

/-- However a traversal of a reachable table and overwrites of its keys interleave:
    the next step finds its key and every overwrite succeeds; no key is visited
    twice and there is a bound on how many are visited; and once the traversal
    ends, each key that was present all the time was visited exactly once. -/
theorem walk_visits_once (h₀ : t₀.Reachable) (h : Walk t₀ past t control seen) :
    (∃ r, t.next control = some r ∧ r ≠ .invalidKey) ∧
    (∀ A key v, t.get key ≠ .nil → ∃ t', t.insert A key v = some (.ok (), t')) ∧
    (seen.Pairwise fun a b => a.eq b = false) ∧
    seen.length ≤ t₀.vlen + t₀.hashSlotCount ∧
    (t.next control = some .finished → ∀ key, (∀ u ∈ past, u.get key ≠ .nil) →
      (seen.countP fun k => k.eq key) = 1) := by
  obtain ⟨c, ps, hok⟩ := h.ok h₀.ok
  obtain ⟨htok, -⟩ := hok.past_ok t hok.current
  have hd := hok.pairwise_seen h₀.ok
  refine ⟨⟨_, hok.next_eq, ?_⟩, fun A key v hk => ?_, hd, ?_, fun hn key hall => ?_⟩
  · obtain ⟨_, _, _, he, -⟩ | ⟨he, -⟩ :=
      firstLive_cases (Flat.vacant_entries (ok_iff.1 htok).2) c <;> rw [he] <;> rintro ⟨⟩
  · obtain ⟨t', he, -⟩ := insert_of_get htok hk A v
    exact ⟨t', he⟩
  · refine hok.length_seen.trans (Nat.le_of_eq ?_)
    rw [Flat.entries_length, flat_arr_length]
    cases hs : t₀.storage <;> simp [hashSlotCount, flat, hs, TableStorage.len, TableStorage.slots,
      IndexMap.len]
  · obtain ⟨k, hk, he⟩ := hok.mem_seen hn hall
    exact countP_eq_one hd hk he

/-- A traversal that clears the key it has just visited, and goes on to the end. -/
theorem walk_visits_once_clear :
    let t₀ : Table :=
      { empty with storage := .inline [(.bool true, .bool true), (.bool false, .bool true)] }
    let t : Table := { t₀ with
      storage := .inline [(.bool true, .nil), (.bool false, .bool true)], deadCount := 1 }
    let seen : List Val := [.bool true, .bool false]
    t₀.Reachable ∧ Walk t₀ [t, t₀] t (.bool false) seen ∧ t.next (.bool false) = some .finished ∧
      (seen.countP fun k => k.eq (.bool false)) = 1 := by
  intro t₀ t seen
  have h₁ : Reachable _ :=
    .apply .exact (.insert (.bool true) (.bool true)) (.withCapacity 0) trivial rfl
  have h₂ : t₀.Reachable := .apply .exact (.insert (.bool false) (.bool true)) h₁ trivial rfl
  have w₁ : Walk t₀ [t₀] t₀ (.bool true) [.bool true] := .next .start rfl
  have w₂ : Walk t₀ [t, t₀] t (.bool true) [.bool true] :=
    .overwrite .exact (.bool true) .nil w₁ (by decide) rfl
  have w₃ : Walk t₀ [t, t₀] t (.bool false) seen := .next w₂ rfl
  refine ⟨h₂, w₃, rfl, (walk_visits_once h₂ w₃).2.2.2.2 rfl _ fun u hu => ?_⟩
  rcases List.mem_cons.1 hu with rfl | hu
  · decide
  · rw [List.mem_singleton.1 hu]
    decide

end Table

end Dellingr
