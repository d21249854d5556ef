import Mathlib.Data.List.Basic

/-!
# Shifting part of a list

Inserting into a run of a list by moving its elements up by one, and removing
from it by moving them down, where the run ends at a slot that is given up, or
left free. The shifts are given by their elements.

* `up l p len v`: the elements of `l` at `p..len` move up by one, over the one at
  `len`, and `v` takes the place at `p`;
* `down l p len v`: the elements at `p + 1..len` move down by one, over the one at
  `p`, and `v` takes the place at `len - 1`.
-/

namespace Shift

variable {α : Type*}

/-- Shift the elements at `p..len` up by one. -/
def up (l : List α) (p len : Nat) (v : α) : List α :=
  l.take p ++ v :: (l.take len).drop p ++ l.drop (len + 1)

/-- Shift the elements at `p + 1..len` down by one. -/
def down (l : List α) (p len : Nat) (v : α) : List α :=
  l.take p ++ (l.take len).drop (p + 1) ++ v :: l.drop len

variable {l : List α} {p len i : Nat} {v : α}

theorem getElem?_up (hp : p ≤ len) (hl : len ≤ l.length) :
    (up l p len v)[i]? =
      if i < p then l[i]? else if i = p then some v else if i ≤ len then l[i - 1]? else l[i]? := by
  have h₁ : (l.take p).length = p := by simp; omega
  have h₂ : ((l.take len).drop p).length = len - p := by simp; omega
  rw [up, List.append_assoc, List.getElem?_append, h₁]
  split
  · rw [List.getElem?_take_of_lt ‹_›]
  · rename_i hi
    obtain ⟨d, rfl⟩ := Nat.exists_eq_add_of_le (Nat.le_of_not_lt hi)
    rw [Nat.add_sub_cancel_left]
    rcases d with _ | d
    · simp
    · rw [if_neg (by omega), List.cons_append, List.getElem?_cons_succ, List.getElem?_append, h₂]
      split
      · rw [if_pos (by omega), List.getElem?_drop, List.getElem?_take_of_lt (by omega)]
        congr 1
      · rw [if_neg (by omega), List.getElem?_drop]
        congr 1
        omega

theorem getElem?_down (hp : p < len) (hl : len ≤ l.length) :
    (down l p len v)[i]? =
      if i < p then l[i]? else if i + 1 < len then l[i + 1]? else if i + 1 = len then some v
      else l[i]? := by
  have h₁ : (l.take p).length = p := by simp; omega
  have h₂ : ((l.take len).drop (p + 1)).length = len - (p + 1) := by simp; omega
  rw [down, List.append_assoc, List.getElem?_append, h₁]
  split
  · rw [List.getElem?_take_of_lt ‹_›]
  · rename_i hi
    obtain ⟨d, rfl⟩ := Nat.exists_eq_add_of_le (Nat.le_of_not_lt hi)
    rw [Nat.add_sub_cancel_left, List.getElem?_append, h₂]
    by_cases hd : d < len - (p + 1)
    · rw [if_pos hd, if_pos (by omega), List.getElem?_drop, List.getElem?_take_of_lt (by omega)]
      congr 1
      omega
    · rw [if_neg hd, if_neg (by omega)]
      by_cases he : p + d + 1 = len
      · rw [if_pos he, show d - (len - (p + 1)) = 0 by omega]
        rfl
      · rw [if_neg he, show d - (len - (p + 1)) = (p + d - len) + 1 by omega,
          List.getElem?_cons_succ, List.getElem?_drop]
        congr 1
        omega

theorem length_up (hp : p ≤ len) (hl : len < l.length) : (up l p len v).length = l.length := by
  simp [up]
  omega

theorem length_down (hp : p < len) (hl : len ≤ l.length) :
    (down l p len v).length = l.length := by
  simp [down]
  omega

theorem set_up {w : α} (hp : p ≤ len) (hl : len ≤ l.length) :
    (up l p len v).set p w = up l p len w := by
  have h₁ : (l.take p).length = p := by simp; omega
  rw [up, List.append_assoc, List.set_append_right _ _ (Nat.le_of_eq h₁), h₁, Nat.sub_self, up, List.append_assoc]
  rfl

/-- Shifting down is copying down, and overwriting the last element. -/
theorem set_down (hp : p < len) (hl : len ≤ l.length) :
    (l.take p ++ (l.take len).drop (p + 1) ++ l.drop (len - 1)).set (len - 1) v = down l p len v := by
  obtain ⟨n, rfl⟩ := Nat.exists_eq_succ_of_ne_zero (by omega : len ≠ 0)
  have hlen : (l.take p ++ (l.take (n + 1)).drop (p + 1)).length = n := by
    simp
    omega
  rw [Nat.succ_sub_one, @List.drop_eq_getElem_cons _ n l (by omega), List.set_append_right _ _ (Nat.le_of_eq hlen),
    hlen, Nat.sub_self]
  rfl

/-- Inserting an element shifts the rest of the list up. -/
theorem insertIdx_eq_up (hp : p ≤ l.length) : l.insertIdx p v = up l p l.length v := by
  refine List.ext_getElem? fun i => ?_
  rw [List.getElem?_insertIdx, getElem?_up hp (Nat.le_refl _)]
  split_ifs with h₁ h₂ h₃ h₄
  · rfl
  · rfl
  · exact absurd (h₂ ▸ hp) h₃
  · rfl
  · rw [List.getElem?_eq_none (by omega), List.getElem?_eq_none (by omega)]

/-- Shifting one element is overwriting the one after it. -/
theorem up_self (hl : len < l.length) : up l len len v = l.set len v := by
  refine List.ext_getElem? fun i => ?_
  rw [getElem?_up (Nat.le_refl _) (Nat.le_of_lt hl), List.getElem?_set]
  split_ifs <;> first | rfl | omega

/-- The element a whole list is shifted over may as well be missing. -/
theorem up_append {w : α} (hp : p ≤ l.length) :
    up (l ++ [w]) p l.length v = up l p l.length v := by
  simp [up, List.take_append_of_le_length hp]

variable {q : α → Bool}

/-- A shift up takes one element out of a count, and one in. -/
theorem countP_up (hp : p ≤ len) (hl : len < l.length) :
    (up l p len v).countP q + [l[len]].countP q = l.countP q + [v].countP q := by
  have h₁ : l.take p ++ (l.take len).drop p = l.take len := by
    conv_rhs => rw [← List.take_append_drop p (l.take len), List.take_take, Nat.min_eq_left hp]
  have h₂ : l.countP q = (l.take len).countP q + (l[len] :: l.drop (len + 1)).countP q := by
    rw [← List.countP_append, ← List.drop_eq_getElem_cons hl, List.take_append_drop]
  rw [h₂, ← h₁, up]
  simp only [List.countP_append, List.countP_cons, List.countP_nil]
  omega

/-- A shift down takes one element out of a count, and one in. -/
theorem countP_down (hp : p < len) (hl : len ≤ l.length) :
    (down l p len v).countP q + [l[p]].countP q = l.countP q + [v].countP q := by
  have h₁ : l.take len = l.take p ++ l[p] :: (l.take len).drop (p + 1) := by
    conv_lhs => rw [← List.take_append_drop p (l.take len), List.take_take, Nat.min_eq_left (Nat.le_of_lt hp),
      List.drop_eq_getElem_cons (by simp; omega), List.getElem_take]
  have h₂ : l.countP q = (l.take len).countP q + (l.drop len).countP q := by
    rw [← List.countP_append, List.take_append_drop]
  rw [h₂, h₁, down]
  simp only [List.countP_append, List.countP_cons, List.countP_nil]
  omega

end Shift
