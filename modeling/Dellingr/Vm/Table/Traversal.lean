import Dellingr.Vm.Table.Refinement

/-!
# Traversal

The slots of a flat table have one order, the array part before the hash part
(`Flat.entries`), and a traversal goes through it: `next` finds the position of
the control key and scans to the first live slot after it. The table does the
same on its window (`next_flat`).

A whole traversal visits exactly the pairs of the contents, in order
(`traverses_pairs`).
-/

namespace Dellingr

open AssocList Val

/-! ## Scans -/

/-- The first live slot from a position on. -/
def firstLive (entries : List (TableKey × Val)) (start : Nat) : TableNext :=
  match (entries.drop start).find? fun e => e.2.isLive with
  | some (.live k, v) => .pair k v
  | _ => .finished

section Scan

variable {α : Type} {value : α → Val} {slots : List α} {start i : Nat} {a : α}

/-- A scan finds the first live slot. -/
theorem findLive_eq_some (h : Table.findLive value slots start = some (i, a)) :
    start ≤ i ∧ slots[i]? = some a ∧ (value a).isLive = true ∧
      ∀ j b, start ≤ j → j < i → slots[j]? = some b → value b = .nil := by
  rw [Table.findLive] at h
  cases hf : (slots.drop start).findIdx? fun s => (value s).isLive with
  | none => simp [hf] at h
  | some d =>
    obtain ⟨hd, hlive, hbefore⟩ := List.findIdx?_eq_some_iff_getElem.1 hf
    rw [List.length_drop] at hd
    simp only [hf] at h
    rw [List.getElem?_eq_getElem (by omega)] at h
    obtain ⟨rfl, rfl⟩ := Prod.mk.inj (Option.some.inj h)
    rw [List.getElem_drop] at hlive
    refine ⟨by omega, List.getElem?_eq_getElem _, hlive, fun j b h₁ h₂ hj => ?_⟩
    obtain ⟨c, rfl⟩ := Nat.exists_eq_add_of_le h₁
    have := hbefore c (by omega)
    rw [List.getElem_drop] at this
    obtain ⟨hlt, rfl⟩ := List.getElem?_eq_some_iff.1 hj
    exact isLive_eq_false.1 (by simpa using this)

/-- A scan that finds nothing saw nils only. -/
theorem findLive_eq_none (h : Table.findLive value slots start = none) (j : Nat) (b : α)
    (hj : start ≤ j) (hb : slots[j]? = some b) : value b = .nil := by
  rw [Table.findLive] at h
  cases hf : (slots.drop start).findIdx? fun s => (value s).isLive with
  | some d =>
    obtain ⟨hd, -⟩ := List.findIdx?_eq_some_iff_getElem.1 hf
    rw [List.length_drop] at hd
    simp only [hf] at h
    rw [List.getElem?_eq_getElem (by omega)] at h
    simp at h
  | none =>
    rw [List.findIdx?_eq_none_iff] at hf
    refine isLive_eq_false.1 (hf b ?_)
    obtain ⟨c, rfl⟩ := Nat.exists_eq_add_of_le hj
    rw [← List.getElem?_drop] at hb
    exact List.mem_of_getElem? hb

end Scan

section FirstLive

variable {entries : List (TableKey × Val)} {start i : Nat} {k v : Val}

/-- The slot a scan ends at. -/
theorem firstLive_of_live (hi : start ≤ i) (he : entries[i]? = some (.live k, v))
    (hv : v.isLive = true)
    (hdead : ∀ j e, start ≤ j → j < i → entries[j]? = some e → e.2 = .nil) :
    firstLive entries start = .pair k v := by
  obtain ⟨d, rfl⟩ := Nat.exists_eq_add_of_le hi
  have hfind : ((entries.drop start).find? fun e => e.2.isLive) = some (.live k, v) := by
    rw [← List.getElem?_drop] at he
    obtain ⟨A, B, hS, rfl⟩ := exists_split he
    rw [hS, List.find?_append, List.find?_eq_none.2, Option.none_or, List.find?_cons_of_pos (by exact hv)]
    intro e hmem
    obtain ⟨j, hj, rfl⟩ := List.getElem_of_mem hmem
    rw [hdead (start + j) A[j] (by omega) (by omega)]
    · simp
    · rw [← List.getElem?_drop, hS, List.getElem?_append_left hj, List.getElem?_eq_getElem hj]
  rw [firstLive, hfind]

theorem firstLive_of_dead (hdead : ∀ j e, start ≤ j → entries[j]? = some e → e.2 = .nil) :
    firstLive entries start = .finished := by
  have hfind : ((entries.drop start).find? fun e => e.2.isLive) = none := by
    rw [List.find?_eq_none]
    intro e hmem
    obtain ⟨j, hj⟩ := List.mem_iff_getElem?.1 hmem
    rw [List.getElem?_drop] at hj
    simp [hdead _ e (Nat.le_add_right _ _) hj]
  rw [firstLive, hfind]

/-- What a scan finds: a live slot after dead ones only, or nothing live. -/
theorem firstLive_cases (hvac : ∀ j v, (.vacant j, v) ∈ entries → v = .nil) (start : Nat) :
    (∃ i k v, firstLive entries start = .pair k v ∧ start ≤ i ∧ entries[i]? = some (.live k, v) ∧
        v.isLive = true ∧ ∀ j e, start ≤ j → j < i → entries[j]? = some e → e.2 = .nil) ∨
      firstLive entries start = .finished ∧
        ∀ j e, start ≤ j → entries[j]? = some e → e.2 = .nil := by
  cases hf : Table.findLive Prod.snd entries start with
  | some r =>
    obtain ⟨i, c, v⟩ := r
    obtain ⟨h₁, h₂, h₃, h₄⟩ := findLive_eq_some hf
    cases c with
    | vacant j =>
      have := hvac j v (List.mem_of_getElem? h₂)
      subst this
      simp at h₃
    | live k => exact .inl ⟨i, k, v, firstLive_of_live h₁ h₂ h₃ h₄, h₁, h₂, h₃, h₄⟩
  | none => exact .inr ⟨firstLive_of_dead (findLive_eq_none hf), findLive_eq_none hf⟩

end FirstLive

/-! ## The order of the slots -/

namespace Flat

variable (f : Flat)

/-- The slots in the order of a traversal. -/
def entries : List (TableKey × Val) :=
  (f.arr.zipIdx.map fun e => (.live (Val.ofNat (e.2 + 1)), e.1)) ++ f.storage.slots

/-- The position of a key, dead or live; an array key is one of the array's. -/
def position (key : Val) : Option Nat :=
  match f.slot key with
  | some s => some s
  | none => (f.storage.position key).map (f.arr.length + ·)

/-- The pair that follows a key; nil asks for the first one. -/
def next (key : Val) : TableNext :=
  if key = .nil then firstLive f.entries 0
  else if !key.isValidTableKey then .invalidKey
  else match f.position key with
    | some p => firstLive f.entries (p + 1)
    | none => .invalidKey

variable {f} {i : Nat}

theorem entries_array (hi : i < f.arr.length) :
    f.entries[i]? = some (.live (Val.ofNat (i + 1)), f.arr[i]) := by
  rw [entries, List.getElem?_append_left (by simpa using hi)]
  simp [hi]

theorem entries_hash : f.entries[f.arr.length + i]? = f.storage.slots[i]? := by
  rw [entries, List.getElem?_append_right (by simp)]
  simp

theorem entries_length : f.entries.length = f.arr.length + f.storage.slots.length := by
  simp [entries]

theorem vacant_entries {limit : Nat} (h : f.OkBelow limit) (j : Nat) (v : Val)
    (hm : (.vacant j, v) ∈ f.entries) : v = .nil := by
  simp only [entries, List.mem_append, List.mem_map, Prod.mk.injEq, reduceCtorEq, false_and, and_false,
    exists_const, false_or] at hm
  obtain ⟨i, hi⟩ := List.mem_iff_getElem?.1 hm
  exact (h.hash.slots_ok.vacant i j v hi).2

/-- A live slot is found again by its key. -/
theorem position_of_live (h : f.Ok) {k v : Val} (he : f.entries[i]? = some (.live k, v))
    (hv : v.isLive = true) : f.position k = some i ∧ k.isValidTableKey = true := by
  rcases Nat.lt_or_ge i f.arr.length with hi | hi
  · rw [entries_array hi] at he
    simp only [Option.some.injEq, Prod.mk.injEq, TableKey.live.injEq] at he
    obtain ⟨rfl, -⟩ := he
    have hlen : f.arr.length ≤ 2 ^ 53 := h.len_le.trans (by decide)
    have hslot : f.slot (Val.ofNat (i + 1)) = some i := slotBelow_ofNat hi hlen
    rw [position, hslot]
    exact ⟨rfl, isValidTableKey_of_toNat? (toNat?_ofNat (by omega))⟩
  · obtain ⟨d, rfl⟩ := Nat.exists_eq_add_of_le hi
    rw [entries_hash] at he
    have hval := h.hash.slots_ok.valid k v (List.mem_of_getElem? he)
    have hslot : f.slot k = none := by
      cases hs : f.slot k with
      | none => rfl
      | some s =>
        obtain ⟨hn, hlt⟩ := slotBelow_eq_some.1 hs
        have := h.hash.outside k v (s + 1) (mem_liveEntries.2 ⟨List.mem_of_getElem? he, hv⟩) hn
        omega
    have hpos : f.storage.position k = some d := by
      rw [TableStorage.position_eq]
      exact h.hash.slots_ok.findIdx?_eq_some.2 ⟨k, v, he, eq_self hval⟩
    rw [position, hslot, hpos]
    exact ⟨rfl, hval⟩

/-- Advancing from the key of a slot. -/
theorem next_of_position {key : Val} (hp : f.position key = some i)
    (hk : key.isValidTableKey = true) : f.next key = firstLive f.entries (i + 1) := by
  have hnil : key ≠ .nil := by
    rintro rfl
    simp [isValidTableKey] at hk
  rw [next, if_neg hnil, hk, hp]
  rfl

/-- The pairs of the contents are the live slots. -/
theorem pairs_eq : f.contents.pairs = liveEntries f.entries := by
  rw [entries, liveEntries_append, Contents.pairs]
  congr 1
  rw [liveEntries, List.filterMap_map, ← List.filterMap_eq_filter, List.filterMap_map]
  refine List.filterMap_congr fun e _ => ?_
  simp only [Function.comp_apply, liveEntry, Option.guard_apply, TableKey.asLive, Option.map_some]

end Flat

namespace Table

variable {t : Table} {start : Nat}

/-- The scan of the hash part. -/
theorem nextHash_eq (h : t.Ok) (start : Nat) : ∃ r, t.nextHash start = some r ∧
    r.toNext = firstLive t.flat.entries (t.vlen + start) := by
  rw [nextHash]
  have hent : ∀ j, t.flat.entries[t.vlen + j]? = t.storage.slots[j]? := by
    intro j
    rw [← flat_arr_length (t := t)]
    exact Flat.entries_hash
  cases hf : findLive Prod.snd t.storage.slots start with
  | none =>
    refine ⟨_, rfl, (firstLive_of_dead fun j e hj he => ?_).symm⟩
    obtain ⟨d, rfl⟩ := Nat.exists_eq_add_of_le hj
    rw [Nat.add_assoc, hent] at he
    exact findLive_eq_none hf _ e (Nat.le_add_right _ _) he
  | some r =>
    obtain ⟨i, c, v⟩ := r
    obtain ⟨h₁, h₂, h₃, h₄⟩ := findLive_eq_some hf
    cases c with
    | vacant j =>
      have := (h.flat.hash.slots_ok.vacant i j v h₂).2
      subst this
      simp at h₃
    | live k =>
      refine ⟨_, rfl, (firstLive_of_live (i := t.vlen + i) (by omega) ((hent i).trans h₂) h₃
        fun j e hj hji he => ?_).symm⟩
      obtain ⟨d, rfl⟩ := Nat.exists_eq_add_of_le hj
      rw [Nat.add_assoc, hent] at he
      exact h₄ _ e (by omega) (by omega) he

theorem entries_array_flat {s : Nat} (hs : s < t.vlen) :
    t.flat.entries[s]? = some (.live (Val.ofNat (s + 1)), slotValue t.array t.base s) := by
  rw [Flat.entries_array (by rw [flat_arr_length]; exact hs)]
  simp [flat]

/-- The scan of the array part skips the slots below the window and its dead
    prefix. -/
theorem nextLiveFrom_array (h : t.Ok) (hs : start ≤ t.vlen) :
    ∃ r, t.nextLiveFrom (.array start) = some r ∧ r.toNext = firstLive t.flat.entries start := by
  have hw := h.window.window_le
  -- What the scan skips is nil.
  have hskip : ∀ s, start ≤ s → s < t.base + max (start - t.base) t.lead →
      slotValue t.array t.base s = .nil := by
    intro s h₁ h₂
    rw [slotValue]
    split
    · rw [h.window.prefix_nil (s - t.base) (by omega)]
      rfl
    · rfl
  rw [nextLiveFrom]
  cases hf : findLive id t.array (max (start - t.base) t.lead) with
  | some r =>
    obtain ⟨p, v⟩ := r
    obtain ⟨h₁, h₂, h₃, h₄⟩ := findLive_eq_some hf
    have hp : p < t.array.length := (List.getElem?_eq_some_iff.1 h₂).1
    have hval : slotValue t.array t.base (t.base + p) = v := by
      rw [slotValue, if_pos (Nat.le_add_right _ _), Nat.add_sub_cancel_left, h₂]
      rfl
    refine ⟨_, rfl, (firstLive_of_live (i := t.base + p) (by omega) ?_ h₃ fun j e hj hji he => ?_).symm⟩
    · rw [entries_array_flat (by omega), hval]
      rfl
    · rw [entries_array_flat (by omega)] at he
      obtain rfl := Option.some.inj he
      by_cases hlt : j < t.base + max (start - t.base) t.lead
      · exact hskip j hj hlt
      · have hget : t.array[j - t.base]? = some (slotValue t.array t.base j) := by
          rw [slotValue, if_pos (by omega), List.getElem?_eq_getElem (by omega)]
          rfl
        exact h₄ (j - t.base) _ (by omega) (by omega) hget
  | none =>
    -- Nothing live is left in the array part.
    have hnil : ∀ j, start ≤ j → slotValue t.array t.base j = .nil := by
      intro j hj
      by_cases hlt : j < t.base + max (start - t.base) t.lead
      · exact hskip j hj hlt
      · rw [slotValue, if_pos (by omega)]
        cases hg : t.array[j - t.base]? with
        | none => rfl
        | some b => exact findLive_eq_none hf (j - t.base) b (by omega) hg
    obtain ⟨r, hr, hrr⟩ := nextHash_eq h 0
    refine ⟨r, hr, hrr.trans ?_⟩
    rw [Nat.add_zero]
    have hdead : ∀ j e, start ≤ j → j < t.vlen → t.flat.entries[j]? = some e → e.2 = .nil := by
      intro j e hj hlt he
      rw [entries_array_flat hlt] at he
      obtain rfl := Option.some.inj he
      exact hnil j hj
    obtain ⟨i, k, v, hp, hi, he, hv, hbefore⟩ | ⟨hp, hbefore⟩ :=
      firstLive_cases (Flat.vacant_entries h.flat) t.vlen
    · rw [hp, firstLive_of_live (hs.trans hi) he hv fun j e hj hji hje => ?_]
      by_cases hlt : j < t.vlen
      · exact hdead j e hj hlt hje
      · exact hbefore j e (by omega) hji hje
    · rw [hp, firstLive_of_dead fun j e hj hje => ?_]
      by_cases hlt : j < t.vlen
      · exact hdead j e hj hlt hje
      · exact hbefore j e (by omega) hje

/-- A traversal step does not depend on the window. -/
theorem next_flat (h : t.Ok) (key : Val) : t.next key = some (t.flat.next key) := by
  have hdone : ∀ {o : Option TableNextWithIndex} {n : TableNext},
      (∃ r, o = some r ∧ r.toNext = n) → o.map TableNextWithIndex.toNext = some n := by
    rintro o n ⟨r, rfl, rfl⟩
    rfl
  rw [next, nextWithIndex, Flat.next]
  by_cases hnil : key = .nil
  · rw [if_pos hnil, if_pos hnil]
    exact hdone (nextLiveFrom_array h (Nat.zero_le _))
  rw [if_neg hnil, if_neg hnil]
  cases hv : key.isValidTableKey with
  | false => rfl
  | true =>
    simp only [Bool.not_true, Bool.false_eq_true, if_false, Flat.position]
    have hslot : t.flat.slot key = key.slotBelow t.vlen := by rw [Flat.slot, flat_arr_length]
    rw [arrayKey_eq, hslot]
    cases hs : key.slotBelow t.vlen with
    | some s => exact hdone (nextLiveFrom_array h (slotBelow_eq_some.1 hs).2)
    | none =>
      have hst : t.flat.storage = t.storage := rfl
      simp only [Option.map_none, hst, flat_arr_length]
      cases t.storage.position key with
      | none => rfl
      | some i => exact hdone (nextHash_eq h _)

/-! ## Whole traversals -/

/-- A traversal from a control key to the end, and the pairs it returns. -/
inductive Traverses (t : Table) : Val → List (Val × Val) → Prop
  | finished {control : Val} (h : t.next control = some .finished) : Traverses t control []
  | pair {control k v : Val} {rest : List (Val × Val)} (h : t.next control = some (.pair k v))
    (hr : Traverses t k rest) : Traverses t control ((k, v) :: rest)

/-- A table is traversed in one way. -/
theorem Traverses.unique {control : Val} {out out' : List (Val × Val)} (h : t.Traverses control out)
    (h' : t.Traverses control out') : out = out' := by
  induction h generalizing out' with
  | finished h =>
    cases h' with
    | finished => rfl
    | pair h₁ => simp [h] at h₁
  | pair h _ ih =>
    cases h' with
    | finished h₁ => simp [h] at h₁
    | pair h₁ hr =>
      obtain ⟨rfl, rfl⟩ : _ ∧ _ := by simpa [h] using h₁
      rw [ih hr]

/-- A traversal from a position returns the live slots from there on. -/
theorem traverses_from (h : t.Ok) {control : Val} (start : Nat)
    (hc : t.flat.next control = firstLive t.flat.entries start) :
    t.Traverses control (liveEntries (t.flat.entries.drop start)) := by
  generalize hn : t.flat.entries.length - start = n
  induction n using Nat.strongRecOn generalizing control start with
  | ind n ih =>
    have hok := (ok_iff.1 h).2
    obtain ⟨i, k, v, hp, hi, he, hv, hbefore⟩ | ⟨hp, hbefore⟩ :=
      firstLive_cases (Flat.vacant_entries hok) start
    · have hlt : i < t.flat.entries.length := (List.getElem?_eq_some_iff.1 he).1
      obtain ⟨hpos, hkey⟩ := Flat.position_of_live hok he hv
      have hrest := ih (t.flat.entries.length - (i + 1)) (by omega) (i + 1)
        (Flat.next_of_position hpos hkey) rfl
      -- The slots in between are dead.
      obtain ⟨d, rfl⟩ := Nat.exists_eq_add_of_le hi
      have hsplit : t.flat.entries.drop start = (t.flat.entries.drop start).take d ++
          (.live k, v) :: t.flat.entries.drop (start + d + 1) := by
        conv_lhs => rw [← List.take_append_drop d (t.flat.entries.drop start), List.drop_drop]
        rw [List.drop_eq_getElem_cons hlt, (List.getElem?_eq_some_iff.1 he).2]
      have hdead : liveEntries ((t.flat.entries.drop start).take d) = [] := by
        rw [liveEntries, List.filterMap_eq_nil_iff]
        intro e hmem
        obtain ⟨j, hj, rfl⟩ := List.getElem_of_mem hmem
        rw [List.length_take] at hj
        rw [List.getElem_take, List.getElem_drop, liveEntry,
          hbefore (start + j) _ (by omega) (by omega) (List.getElem?_eq_getElem _)]
        rfl
      rw [hsplit, liveEntries_append, hdead, liveEntries_cons_live hv]
      exact .pair (by rw [next_flat h, hc, hp]) hrest
    · have hdead : liveEntries (t.flat.entries.drop start) = [] := by
        rw [liveEntries, List.filterMap_eq_nil_iff]
        intro e hmem
        obtain ⟨j, hj⟩ := List.mem_iff_getElem?.1 hmem
        rw [List.getElem?_drop] at hj
        rw [liveEntry, hbefore _ e (Nat.le_add_right _ _) hj]
        rfl
      rw [hdead]
      exact .finished (by rw [next_flat h, hc, hp])

/-- A whole traversal returns the pairs of the contents, in order. -/
theorem traverses_pairs (h : t.Ok) : t.Traverses .nil t.flat.contents.pairs := by
  rw [Flat.pairs_eq]
  exact traverses_from h 0 rfl

end Table

end Dellingr
