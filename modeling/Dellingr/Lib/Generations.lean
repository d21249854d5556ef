import Mathlib.Data.List.Nodup
import Mathlib.Tactic.Common

/-!
# Slots with generations

A store that uses its slots again. Each slot counts its generations: it begins one when
it takes a value and another when the value is removed, so a key, which is a slot and
the generation it was given out in, names a value only as long as that value is there.
The slot freed last is used first.

* `get`: the value of a key;
* `insert`: the key of a new value, in a slot that was freed or in a new one;
* `remove`: the value of a key, taken out.

A key that an insertion gives out was not given out before (`Issued`,
`not_issued_nextKey`), and no other key changes its value (`get_insert`, `get_remove`).
-/

/-- A slot, and the generation of it that the key names. -/
structure GenKey where
  slot : Nat
  generation : Nat
  deriving DecidableEq, Repr

/-- A slot, with its generation. -/
structure GenSlot (V : Type*) where
  generation : Nat
  value : Option V

/-- The slots, and those that are free, the one freed last first. -/
structure GenMap (V : Type*) where
  slots : List (GenSlot V)
  free : List Nat
  free_nodup : free.Nodup
  free_vacant : ∀ i ∈ free, ∃ generation, slots[i]? = some ⟨generation, none⟩

namespace GenMap

variable {V : Type*}

/-- No slots. -/
def empty : GenMap V := ⟨[], [], .nil, nofun⟩

/-- The value of a key. -/
def get (m : GenMap V) (k : GenKey) : Option V :=
  (m.slots[k.slot]?).bind fun s => if s.generation = k.generation then s.value else none

/-- The number of values. -/
def len (m : GenMap V) : Nat := m.slots.countP fun s => s.value.isSome

/-- The generation of a slot. -/
def generation (m : GenMap V) (i : Nat) : Nat := (m.slots[i]?.map GenSlot.generation).getD 0

/-- The key of the next value. -/
def nextKey (m : GenMap V) : GenKey :=
  match m.free with
  | [] => ⟨m.slots.length, 1⟩
  | i :: _ => ⟨i, m.generation i + 1⟩

/-- Add a value, under the key `nextKey`. -/
def insert (m : GenMap V) (v : V) : GenMap V :=
  match hfree : m.free with
  | [] => {
      slots := m.slots ++ [⟨1, some v⟩]
      free := []
      free_nodup := .nil
      free_vacant := nofun }
  | i :: free => {
      slots := m.slots.set i ⟨m.generation i + 1, some v⟩
      free := free
      free_nodup := (hfree ▸ m.free_nodup).of_cons
      free_vacant := by
        intro j hj
        have hne : i ≠ j := by
          rintro rfl
          exact (List.nodup_cons.1 (hfree ▸ m.free_nodup)).1 hj
        rw [List.getElem?_set_ne hne]
        exact m.free_vacant j (hfree ▸ List.mem_cons_of_mem _ hj) }

theorem notMem_free {m : GenMap V} {k : GenKey} {v : V} (h : m.get k = some v) : k.slot ∉ m.free := by
  intro hmem
  obtain ⟨generation, hs⟩ := m.free_vacant _ hmem
  rw [get, hs] at h
  simp at h

/-- Take out the value of a key. -/
def remove (m : GenMap V) (k : GenKey) : Option V × GenMap V :=
  match hget : m.get k with
  | none => (none, m)
  | some v => (some v, {
      slots := m.slots.set k.slot ⟨k.generation + 1, none⟩
      free := k.slot :: m.free
      free_nodup := List.nodup_cons.2 ⟨notMem_free hget, m.free_nodup⟩
      free_vacant := by
        intro j hj
        have hlt : k.slot < m.slots.length := by
          by_contra hge
          rw [get, List.getElem?_eq_none (Nat.le_of_not_lt hge)] at hget
          cases hget
        by_cases heq : k.slot = j
        · subst heq
          exact ⟨_, List.getElem?_set_self hlt⟩
        · rw [List.getElem?_set_ne heq]
          exact m.free_vacant j ((List.mem_cons.1 hj).resolve_left (Ne.symm heq)) })

variable {m : GenMap V} {k j : GenKey} {v : V}

theorem get_eq_some : m.get k = some v ↔ m.slots[k.slot]? = some ⟨k.generation, some v⟩ := by
  rw [get, Option.bind_eq_some_iff]
  constructor
  · rintro ⟨⟨generation, value⟩, hs, hv⟩
    dsimp only at hv
    split at hv
    · next hg => rw [hs, hg, hv]
    · cases hv
  · intro hs
    exact ⟨_, hs, if_pos rfl⟩

theorem nextKey_of_nil (h : m.free = []) : m.nextKey = ⟨m.slots.length, 1⟩ := by
  simp only [nextKey, h]

theorem nextKey_of_cons {i : Nat} {free : List Nat} (h : m.free = i :: free) :
    m.nextKey = ⟨i, m.generation i + 1⟩ := by
  simp only [nextKey, h]

/-- The next key begins the generation of its slot, which is free or new. -/
theorem generation_nextKey : m.nextKey.generation = m.generation m.nextKey.slot + 1 := by
  cases hfree : m.free with
  | nil =>
    rw [nextKey_of_nil hfree]
    simp only [generation]
    rw [List.getElem?_eq_none (Nat.le_refl _)]
    rfl
  | cons i free => rw [nextKey_of_cons hfree]

/-- No key of the next slot names a value. -/
theorem get_nextSlot (h : k.slot = m.nextKey.slot) : m.get k = none := by
  rw [Option.eq_none_iff_forall_ne_some]
  intro v hget
  cases hfree : m.free with
  | nil =>
    rw [nextKey_of_nil hfree] at h
    have hs := get_eq_some.1 hget
    rw [h, List.getElem?_eq_none (Nat.le_refl _)] at hs
    cases hs
  | cons i free =>
    rw [nextKey_of_cons hfree] at h
    refine notMem_free hget ?_
    rw [h, hfree]
    exact List.mem_cons_self

/-- An insertion changes the slot of the next key. -/
theorem getElem?_insert (i : Nat) :
    (m.insert v).slots[i]? =
      if i = m.nextKey.slot then some ⟨m.nextKey.generation, some v⟩ else m.slots[i]? := by
  unfold insert
  split
  · next hfree =>
    rw [nextKey_of_nil hfree]
    by_cases h : i = m.slots.length
    · rw [if_pos h, h, List.getElem?_concat_length]
    · rw [if_neg h, List.getElem?_append]
      split
      · rfl
      · next hlt =>
        rw [List.getElem?_eq_none (Nat.le_of_not_lt hlt)]
        exact List.getElem?_eq_none (by simp only [List.length_singleton]; omega)
  · next i' free hfree =>
    rw [nextKey_of_cons hfree]
    obtain ⟨generation, hs⟩ := m.free_vacant i' (hfree ▸ List.mem_cons_self)
    by_cases h : i = i'
    · subst h
      rw [if_pos rfl, List.getElem?_set_self (List.getElem?_eq_some_iff.1 hs).1]
    · rw [if_neg h, List.getElem?_set_ne (Ne.symm h)]

theorem get_insert : (m.insert v).get k = if k = m.nextKey then some v else m.get k := by
  rw [get, getElem?_insert]
  by_cases hslot : k.slot = m.nextKey.slot
  · rw [if_pos hslot, get_nextSlot hslot]
    by_cases hgen : m.nextKey.generation = k.generation
    · have hk : k = m.nextKey := by
        cases k
        simp only at hslot hgen
        rw [hslot, ← hgen]
      simp [hk]
    · have hk : k ≠ m.nextKey := fun hk => hgen (hk ▸ rfl)
      simp [hk, hgen]
  · have hk : k ≠ m.nextKey := fun hk => hslot (hk ▸ rfl)
    rw [if_neg hslot, if_neg hk, get]

/-- Removing the value of a key. -/
theorem remove_of_get (h : m.get k = some v) :
    (m.remove k).1 = some v ∧
      (m.remove k).2.slots = m.slots.set k.slot ⟨k.generation + 1, none⟩ := by
  unfold remove
  split
  · next hnone =>
    rw [h] at hnone
    cases hnone
  · next w hw =>
    rw [h] at hw
    cases hw
    exact ⟨rfl, rfl⟩

theorem lt_of_get (h : m.get k = some v) : k.slot < m.slots.length :=
  (List.getElem?_eq_some_iff.1 (get_eq_some.1 h)).1

theorem get_remove (h : m.get k = some v) :
    (m.remove k).2.get j = if j = k then none else m.get j := by
  rw [get, (remove_of_get h).2]
  by_cases hslot : k.slot = j.slot
  · rw [← hslot, List.getElem?_set_self (lt_of_get h)]
    have hnone : j ≠ k → m.get j = none := by
      intro hne
      rw [Option.eq_none_iff_forall_ne_some]
      intro w hw
      have hs := get_eq_some.1 hw
      rw [← hslot, get_eq_some.1 h] at hs
      simp only [Option.some.injEq, GenSlot.mk.injEq] at hs
      refine hne ?_
      cases j
      cases k
      simp only at hslot hs
      rw [hslot, hs.1]
    by_cases hjk : j = k
    · simp [hjk]
    · simp [hjk, hnone hjk]
  · have hjk : j ≠ k := fun hjk => hslot (hjk ▸ rfl)
    rw [List.getElem?_set_ne hslot, if_neg hjk, get]

theorem len_insert : (m.insert v).len = m.len + 1 := by
  rw [len, len]
  unfold insert
  split
  · rw [List.countP_append]
    rfl
  · next i free hfree =>
    obtain ⟨generation, hs⟩ := m.free_vacant i (hfree ▸ List.mem_cons_self)
    obtain ⟨hlt, hi⟩ := List.getElem?_eq_some_iff.1 hs
    rw [List.countP_set hlt, hi]
    simp

theorem len_remove (h : m.get k = some v) : (m.remove k).2.len + 1 = m.len := by
  obtain ⟨hlt, hk⟩ := List.getElem?_eq_some_iff.1 (get_eq_some.1 h)
  have hpos : 0 < m.slots.countP fun s => s.value.isSome :=
    List.countP_pos_iff.2 ⟨_, List.getElem_mem hlt, by rw [hk]; rfl⟩
  rw [len, len, (remove_of_get h).2, List.countP_set hlt, hk]
  simp only [Option.isSome_some, Option.isSome_none, if_true, Bool.false_eq_true, if_false]
  omega

/-! ## Keys given out -/

/-- A key that was given out. -/
def Issued (m : GenMap V) (k : GenKey) : Prop := k.generation ≤ m.generation k.slot

/-- A new key was not given out before. -/
theorem not_issued_nextKey : ¬m.Issued m.nextKey := by
  rw [Issued, generation_nextKey]
  exact Nat.not_succ_le_self _

theorem issued_of_get (h : m.get k = some v) : m.Issued k := by
  rw [Issued, generation, get_eq_some.1 h]
  exact Nat.le_refl _

theorem Issued.insert (h : m.Issued k) : (m.insert v).Issued k := by
  rw [Issued, generation, getElem?_insert]
  by_cases hslot : k.slot = m.nextKey.slot
  · rw [Issued, hslot] at h
    rw [if_pos hslot, Option.map_some, Option.getD_some, generation_nextKey]
    exact Nat.le_succ_of_le h
  · rw [if_neg hslot]
    exact h

theorem Issued.remove (h : m.Issued j) (hk : m.get k = some v) : (m.remove k).2.Issued j := by
  rw [Issued, generation, (remove_of_get hk).2]
  by_cases hslot : k.slot = j.slot
  · rw [← hslot, List.getElem?_set_self (lt_of_get hk)]
    rw [Issued, generation, ← hslot, get_eq_some.1 hk] at h
    exact Nat.le_succ_of_le h
  · rw [List.getElem?_set_ne hslot]
    exact h

end GenMap
