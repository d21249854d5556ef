import Mathlib.Data.List.Basic
import Mathlib.Data.List.Pairwise

/-!
# Insertion-ordered association lists

A map kept as the list of its entries in the order their keys were added. Keys
are compared by a Boolean relation `eq`, an equivalence on the keys that occur;
*distinct* keys (`Distinct`) are pairwise unrelated.

* `lookup`: the value of a key;
* `assign`: overwrite the value of a key in place, or add the key last;
* `erase`: remove a key.

The results are stated for a list `A ++ (k, v) :: B` split at the entry of a
key, the form in which an operation on a slot finds it.
-/

namespace AssocList

variable {K V : Type*} (eq : K → K → Bool)

/-- The value of a key. -/
def lookup (l : List (K × V)) (k : K) : Option V := (l.find? fun e => eq e.1 k).map Prod.snd

/-- Overwrite the value of a key in place, or add it last. -/
def assign (l : List (K × V)) (k : K) (v : V) : List (K × V) :=
  if l.any fun e => eq e.1 k then l.map fun e => if eq e.1 k then (e.1, v) else e
  else l ++ [(k, v)]

/-- Remove a key. -/
def erase (l : List (K × V)) (k : K) : List (K × V) := l.filter fun e => !eq e.1 k

/-- The keys are pairwise different. -/
def Distinct (l : List (K × V)) : Prop := l.Pairwise fun a b => eq a.1 b.1 = false

/-- No entry has the key `k`. -/
def Absent (l : List (K × V)) (k : K) : Prop := ∀ e ∈ l, eq e.1 k = false

variable {eq} {l A B : List (K × V)} {k k' : K} {v w : V}

theorem lookup_of_absent (h : Absent eq l k) : lookup eq l k = none := by
  rw [lookup, List.find?_eq_none.2 fun e he => by simp [h e he], Option.map_none]

theorem lookup_split (hA : Absent eq A k) (hk : eq k' k = true) :
    lookup eq (A ++ (k', v) :: B) k = some v := by
  rw [lookup, List.find?_append, List.find?_eq_none.2 fun e he => by simp [hA e he]]
  simp [hk]

theorem assign_of_absent (h : Absent eq l k) : assign eq l k v = l ++ [(k, v)] := by
  rw [assign, if_neg]
  simpa [Absent] using h

theorem assign_split (hA : Absent eq A k) (hB : Absent eq B k) (hk : eq k' k = true) :
    assign eq (A ++ (k', w) :: B) k v = A ++ (k', v) :: B := by
  have hmap : ∀ {l : List (K × V)}, Absent eq l k →
      l.map (fun e => if eq e.1 k then (e.1, v) else e) = l := fun {l} h => by
    conv_rhs => rw [← List.map_id l]
    exact List.map_congr_left fun e he => by simp [h e he]
  rw [assign, if_pos (by simp [hk]), List.map_append, List.map_cons, hmap hA, hmap hB]
  simp [hk]

/-- What is assigned is looked up, under any key equal to it. -/
theorem lookup_assign_of_eq (hk : eq k k' = true) (h : ∀ x, eq x k = eq x k') :
    lookup eq (assign eq l k v) k' = some v := by
  rw [assign]
  split
  · rename_i hany
    induction l with
    | nil => simp at hany
    | cons e l ih =>
      rw [List.map_cons, lookup, List.find?_cons]
      cases he : eq e.1 k with
      | true => simp [he, ← h e.1]
      | false =>
        simp only [Bool.false_eq_true, if_false, ← h e.1, he]
        refine ih ?_
        simpa [he] using hany
  · rename_i hany
    refine lookup_split (fun e he => ?_) hk
    rw [← h e.1]
    simpa using fun ht => hany (List.any_eq_true.2 ⟨e, he, ht⟩)

/-- Assigning a key leaves the others. -/
theorem lookup_assign_of_ne (hk : eq k k' = false) (h : ∀ x, eq x k = true → eq x k' = false) :
    lookup eq (assign eq l k v) k' = lookup eq l k' := by
  rw [assign]
  split
  · clear * - h
    induction l with
    | nil => rfl
    | cons e l ih =>
      simp only [lookup, List.map_cons, List.find?_cons] at ih ⊢
      cases he : eq e.1 k with
      | true =>
        simp only [if_true, h e.1 he]
        exact ih
      | false =>
        simp only [Bool.false_eq_true, if_false]
        cases hk' : eq e.1 k' with
        | true => rfl
        | false => exact ih
  · rw [lookup, List.find?_append]
    cases hf : l.find? fun e => eq e.1 k' with
    | some e => simp [lookup, hf]
    | none => simp [lookup, hf, hk]

/-- A key put in between the others. -/
theorem lookup_insert (hA : eq k k' = true → Absent eq A k') :
    lookup eq (A ++ (k, v) :: B) k' = if eq k k' then some v else lookup eq (A ++ B) k' := by
  cases hk : eq k k' with
  | true => exact lookup_split (hA hk) hk
  | false => simp [lookup, List.find?_append, hk]

/-- Erasing a key leaves the others. -/
theorem lookup_erase_of_ne (h : ∀ x, eq x k = true → eq x k' = false) :
    lookup eq (erase eq l k) k' = lookup eq l k' := by
  rw [erase, lookup, lookup, List.find?_filter]
  congr 2
  funext e
  cases he : eq e.1 k with
  | true => simp [h e.1 he]
  | false => simp

/-- Assigning adds no key but the one assigned. -/
theorem key_of_mem_assign {e : K × V} (h : e ∈ assign eq l k v) :
    e.1 = k ∨ ∃ e' ∈ l, e'.1 = e.1 := by
  rw [assign] at h
  split at h
  · obtain ⟨e', he', rfl⟩ := List.mem_map.1 h
    refine .inr ⟨e', he', ?_⟩
    split <;> rfl
  · rcases List.mem_append.1 h with he | he
    · exact .inr ⟨e, he, rfl⟩
    · rw [List.mem_singleton.1 he]
      exact .inl rfl

theorem erase_of_absent (h : Absent eq l k) : erase eq l k = l :=
  List.filter_eq_self.2 fun e he => by simp [h e he]

theorem erase_split (hA : Absent eq A k) (hB : Absent eq B k) (hk : eq k' k = true) :
    erase eq (A ++ (k', w) :: B) k = A ++ B := by
  rw [erase, List.filter_append, List.filter_cons, if_neg (by simp [hk])]
  exact congrArg₂ _ (erase_of_absent hA) (erase_of_absent hB)

/-- The entry of a key that is present. -/
theorem exists_split_of_lookup (h : lookup eq l k = some v) :
    ∃ A k' B, l = A ++ (k', v) :: B ∧ Absent eq A k ∧ eq k' k = true := by
  rw [lookup, Option.map_eq_some_iff] at h
  obtain ⟨⟨k', v'⟩, hf, rfl⟩ := h
  obtain ⟨hk, A, B, rfl, hA⟩ := List.find?_eq_some_iff_append.1 hf
  exact ⟨A, k', B, rfl, fun e he => by simpa using hA e he, hk⟩

theorem absent_of_lookup_eq_none (h : lookup eq l k = none) : Absent eq l k := by
  rw [lookup, Option.map_eq_none_iff, List.find?_eq_none] at h
  exact fun e he => by simpa using h e he

theorem Absent.sublist {l' : List (K × V)} (h : Absent eq l k) (hs : l'.Sublist l) :
    Absent eq l' k := fun e he => h e (hs.subset he)

theorem absent_erase (h : Absent eq l k) : Absent eq (erase eq l k') k :=
  h.sublist List.filter_sublist

/-- Erasing a key that is present removes an entry. -/
theorem length_erase_lt (h : lookup eq l k = some v) : (erase eq l k).length < l.length := by
  obtain ⟨A, k', B, rfl, -, hk⟩ := exists_split_of_lookup h
  rw [erase]
  exact List.length_filter_lt_length_iff_exists.2 ⟨(k', v), by simp, by simp [hk]⟩

theorem Distinct.sublist {l' : List (K × V)} (h : Distinct eq l) (hs : l'.Sublist l) :
    Distinct eq l' := List.Pairwise.sublist hs h

theorem distinct_erase (h : Distinct eq l) : Distinct eq (erase eq l k) :=
  h.sublist List.filter_sublist

end AssocList
