import Mathlib.Data.List.Nodup
import Mathlib.Tactic.Common

/-!
# Slot maps

A map that gives out the keys of its values itself: an insertion answers the handle of
the new value. A handle is not given out twice, so one whose value was removed never
names another value. The map numbers its handles (`Handle`), and keeps the count.

* `get`, `contains`: the value of a handle, if it is still there;
* `insert`: add a value under a new handle;
* `modify`: change the value of a handle;
* `remove`, `filterMap`: remove values, or change those that stay.
-/

/-- A type of handles: they are numbered. -/
class Handle (K : Type*) where
  ofNat : Nat → K
  toNat : K → Nat
  toNat_ofNat : ∀ n, toNat (ofNat n) = n

/-- A map from handles: its values with their handles, and the handles given out. -/
@[ext]
structure SlotMap (K V : Type*) [Handle K] where
  entries : List (K × V)
  /-- Handles from here on have not been given out. -/
  next : Nat
  unique : (entries.map Prod.fst).Nodup
  old : ∀ e ∈ entries, Handle.toNat e.1 < next

namespace SlotMap

variable {K V W : Type*} [Handle K] [DecidableEq K]

/-- The map without values. -/
def empty : SlotMap K V := ⟨[], 0, .nil, by simp⟩

/-- The value of a handle. -/
def get (m : SlotMap K V) (k : K) : Option V := (m.entries.find? fun e => e.1 = k).map Prod.snd

/-- Whether a handle has a value. -/
def contains (m : SlotMap K V) (k : K) : Bool := (m.get k).isSome

/-- The number of values. -/
def len (m : SlotMap K V) : Nat := m.entries.length

/-- The values, in order. -/
def values (m : SlotMap K V) : List V := m.entries.map Prod.snd

/-- The handle the next insertion gives out. -/
def fresh (m : SlotMap K V) : K := Handle.ofNat m.next

omit [DecidableEq K] in
theorem fresh_notMem (m : SlotMap K V) : m.fresh ∉ m.entries.map Prod.fst := by
  intro h
  obtain ⟨e, he, hk⟩ := List.mem_map.1 h
  have := m.old e he
  rw [hk, fresh, Handle.toNat_ofNat] at this
  exact Nat.lt_irrefl _ this

/-- Add a value, under the handle `fresh`. -/
def insert (m : SlotMap K V) (v : V) : SlotMap K V where
  entries := m.entries ++ [(m.fresh, v)]
  next := m.next + 1
  unique := by
    rw [List.map_append, List.nodup_append]
    refine ⟨m.unique, List.nodup_singleton _, ?_⟩
    intro a ha b hb heq
    rw [List.map_singleton, List.mem_singleton] at hb
    rw [heq, hb] at ha
    exact m.fresh_notMem ha
  old := by
    intro e he
    rcases List.mem_append.1 he with he | he
    · exact Nat.lt_succ_of_lt (m.old e he)
    · rw [List.mem_singleton.1 he, fresh, Handle.toNat_ofNat]
      exact Nat.lt_succ_self _

/-- Change every value. -/
def map (f : V → W) (m : SlotMap K V) : SlotMap K W where
  entries := m.entries.map fun e => (e.1, f e.2)
  next := m.next
  unique := by simpa [Function.comp_def] using m.unique
  old := by
    intro e he
    obtain ⟨a, ha, rfl⟩ := List.mem_map.1 he
    exact m.old a ha

/-- Change the value of a handle. -/
def modify (m : SlotMap K V) (k : K) (f : V → V) : SlotMap K V where
  entries := m.entries.map fun e => (e.1, if e.1 = k then f e.2 else e.2)
  next := m.next
  unique := by simpa [Function.comp_def] using m.unique
  old := by
    intro e he
    obtain ⟨a, ha, rfl⟩ := List.mem_map.1 he
    exact m.old a ha

/-- Change the values that stay, and remove the others. -/
def filterMap (f : V → Option V) (m : SlotMap K V) : SlotMap K V where
  entries := m.entries.filterMap fun e => (f e.2).map (e.1, ·)
  next := m.next
  unique := by
    refine m.unique.sublist ?_
    rw [List.map_filterMap]
    simp only [Option.map_map, Function.comp_def]
    induction m.entries with
    | nil => exact .slnil
    | cons e l ih =>
      rw [List.filterMap_cons]
      cases f e.2 with
      | none => exact ih.cons _
      | some v => exact ih.cons_cons _
  old := by
    intro e he
    obtain ⟨a, ha, hv⟩ := List.mem_filterMap.1 he
    obtain ⟨v, -, rfl⟩ := Option.map_eq_some_iff.1 hv
    exact m.old a ha

/-- Remove the value of a handle. -/
def remove (m : SlotMap K V) (k : K) : SlotMap K V where
  entries := m.entries.filter fun e => e.1 ≠ k
  next := m.next
  unique := m.unique.sublist (List.filter_sublist.map _)
  old e he := m.old e (List.mem_filter.1 he).1

variable {m : SlotMap K V} {k j : K} {v w : V}

theorem get_eq_some : m.get k = some v ↔ (k, v) ∈ m.entries := by
  rw [get, Option.map_eq_some_iff]
  constructor
  · rintro ⟨⟨q, b⟩, hf, rfl⟩
    have hq : q = k := by simpa using List.find?_some hf
    exact hq ▸ List.mem_of_find?_eq_some hf
  · intro hm
    cases hf : m.entries.find? fun e => e.1 = k with
    | none =>
      rw [List.find?_eq_none] at hf
      exact absurd (hf _ hm) (by simp)
    | some e =>
      have he : e.1 = k := by simpa using List.find?_some hf
      have heq := List.inj_on_of_nodup_map m.unique (List.mem_of_find?_eq_some hf) hm he
      exact ⟨e, rfl, by rw [heq]⟩

theorem get_eq_none : m.get k = none ↔ ∀ v, (k, v) ∉ m.entries := by
  simp only [← get_eq_some, Option.eq_none_iff_forall_ne_some]

theorem contains_iff : m.contains k = true ↔ ∃ v, m.get k = some v := Option.isSome_iff_exists

@[simp] theorem get_empty : (empty : SlotMap K V).get k = none := rfl

@[simp] theorem get_map {f : V → W} : (m.map f).get k = (m.get k).map f := by
  ext w
  rw [get_eq_some, Option.map_eq_some_iff]
  simp only [map, List.mem_map, Prod.mk.injEq]
  constructor
  · rintro ⟨⟨a, b⟩, he, rfl, rfl⟩
    exact ⟨b, get_eq_some.2 he, rfl⟩
  · rintro ⟨v, hv, rfl⟩
    exact ⟨(k, v), get_eq_some.1 hv, rfl, rfl⟩

theorem get_modify {f : V → V} :
    (m.modify k f).get j = if j = k then (m.get j).map f else m.get j := by
  ext w
  rw [get_eq_some]
  simp only [modify, List.mem_map, Prod.mk.injEq]
  constructor
  · rintro ⟨⟨a, b⟩, he, rfl, rfl⟩
    rw [get_eq_some.2 he]
    split <;> rfl
  · split
    · rename_i hj
      intro h
      obtain ⟨v, hv, rfl⟩ := Option.map_eq_some_iff.1 h
      exact ⟨(j, v), get_eq_some.1 hv, rfl, if_pos hj⟩
    · rename_i hj
      exact fun h => ⟨(j, w), get_eq_some.1 h, rfl, if_neg hj⟩

theorem get_modify_of_ne {f : V → V} (h : j ≠ k) : (m.modify k f).get j = m.get j := by
  rw [get_modify, if_neg h]

theorem get_modify_self {f : V → V} : (m.modify k f).get k = (m.get k).map f := by
  rw [get_modify, if_pos rfl]

theorem get_filterMap {f : V → Option V} : (m.filterMap f).get k = (m.get k).bind f := by
  ext w
  rw [get_eq_some, Option.bind_eq_some_iff]
  simp only [filterMap, List.mem_filterMap, Option.map_eq_some_iff, Prod.mk.injEq]
  constructor
  · rintro ⟨⟨a, b⟩, he, c, hc, rfl, rfl⟩
    exact ⟨b, get_eq_some.2 he, hc⟩
  · rintro ⟨v, hv, hw⟩
    exact ⟨(k, v), get_eq_some.1 hv, w, hw, rfl, rfl⟩

theorem get_remove : (m.remove k).get j = if j = k then none else m.get j := by
  ext w
  rw [get_eq_some]
  simp only [remove, List.mem_filter, ne_eq, decide_not, Bool.not_eq_eq_eq_not, Bool.not_true,
    decide_eq_false_iff_not, ← get_eq_some]
  split <;> simp_all

theorem get_fresh : m.get m.fresh = none :=
  get_eq_none.2 fun _ h => m.fresh_notMem (List.mem_map_of_mem h)

theorem get_insert : (m.insert v).get j = if j = m.fresh then some v else m.get j := by
  ext w
  rw [get_eq_some]
  simp only [insert, List.mem_append, List.mem_singleton, Prod.mk.injEq, ← get_eq_some]
  split
  · rename_i hj
    rw [hj, get_fresh]
    simp [eq_comm]
  · rename_i hj
    simp [hj]

/-- Changes of one value that a map forgets. -/
theorem map_modify {f : V → V} {g : V → W} (h : ∀ v, g (f v) = g v) :
    (m.modify k f).map g = m.map g := by
  refine SlotMap.ext ?_ rfl
  simp only [map, modify, List.map_map]
  refine List.map_congr_left fun e _ => ?_
  by_cases he : e.1 = k <;> simp [he, h]

/-- The values with a property, one fewer when one of them loses it. -/
theorem countP_modify {p : V → Bool} {f : V → V} (hk : m.get k = some v) (hv : p v = true)
    (hf : p (f v) = false) :
    (m.modify k f).entries.countP (fun e => p e.2) + 1 = m.entries.countP fun e => p e.2 := by
  have hmem := get_eq_some.1 hk
  obtain ⟨entries, next, unique, old⟩ := m
  simp only at hmem
  simp only [modify]
  clear hk old
  induction entries with
  | nil => cases hmem
  | cons e l ih =>
    rw [List.map_cons, List.nodup_cons] at unique
    rw [List.map_cons, List.countP_cons, List.countP_cons]
    rcases List.mem_cons.1 hmem with rfl | hmem
    · -- The others have other handles, and stay as they are.
      have hrest : l.map (fun e => (e.1, if e.1 = k then f e.2 else e.2)) = l := by
        conv_rhs => rw [← List.map_id l]
        refine List.map_congr_left fun e he => ?_
        have hne : e.1 ≠ k := fun hk => unique.1 (List.mem_map.2 ⟨e, he, hk⟩)
        rw [if_neg hne]
        rfl
      rw [hrest]
      simp [hv, hf]
    · have hne : e.1 ≠ k := fun hk => unique.1 (hk ▸ List.mem_map_of_mem hmem)
      rw [if_neg hne, Nat.add_right_comm, ih unique.2 hmem]

end SlotMap
