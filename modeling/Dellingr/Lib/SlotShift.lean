import Dellingr.Lib.Shift

/-!
# Shifting slot by slot

The shifts of `Dellingr.Lib.Shift`, done by reading one slot and writing the one next to it. The slots
are gone through from the end where the elements move up (`copyUp`), and from the start where they
move down (`copyDown`), so no element is overwritten before it is read.
-/

namespace Shift

variable {α : Type*} (d : α)

/-- Copy the `n` elements from `p` on one slot up, the last one first. -/
def copyUp (l : List α) (p : Nat) : Nat → List α
  | 0 => l
  | n + 1 => copyUp (l.set (p + n + 1) (l.getD (p + n) d)) p n

/-- Copy the `n` elements after `p` one slot down, the first one first. -/
def copyDown (l : List α) (p : Nat) : Nat → List α
  | 0 => l
  | n + 1 => copyDown (l.set p (l.getD (p + 1) d)) (p + 1) n

variable {d} {l : List α} {p n i : Nat} {v : α}

theorem length_copyUp : (copyUp d l p n).length = l.length := by
  induction n generalizing l with
  | zero => rfl
  | succ n ih => rw [copyUp, ih, List.length_set]

theorem length_copyDown : (copyDown d l p n).length = l.length := by
  induction n generalizing l p with
  | zero => rfl
  | succ n ih => rw [copyDown, ih, List.length_set]

/-- The slots below are as before, the slots after `p` have what was below them. -/
theorem getElem?_copyUp (h : p + n < l.length) :
    (copyUp d l p n)[i]? = if p < i ∧ i ≤ p + n then l[i - 1]? else l[i]? := by
  induction n generalizing l with
  | zero => rw [copyUp, if_neg (by omega)]
  | succ n ih =>
    rw [copyUp, ih (by rw [List.length_set]; omega)]
    by_cases hi : i = p + (n + 1)
    · -- The slot that was written is read no more.
      subst hi
      have hself : p + n + 1 < l.length := h
      rw [if_neg (by omega), if_pos (by omega), ← Nat.add_assoc, List.getElem?_set_self hself,
        List.getD_eq_getElem?_getD, Nat.add_sub_cancel, List.getElem?_eq_getElem (by omega), Option.getD_some]
    · split
      · rw [if_pos (by omega), List.getElem?_set_ne (by omega)]
      · rw [if_neg (by omega), List.getElem?_set_ne (by omega)]

/-- The slots from `p` on have what was above them. -/
theorem getElem?_copyDown (h : p + n < l.length) :
    (copyDown d l p n)[i]? = if p ≤ i ∧ i < p + n then l[i + 1]? else l[i]? := by
  induction n generalizing l p with
  | zero => rw [copyDown, if_neg (by omega)]
  | succ n ih =>
    rw [copyDown, ih (by rw [List.length_set]; omega)]
    by_cases hi : i = p
    · subst hi
      rw [if_neg (by omega), if_pos (by omega), List.getElem?_set_self (by omega),
        List.getD_eq_getElem?_getD, List.getElem?_eq_getElem (by omega), Option.getD_some]
    · split
      · rw [if_pos (by omega), List.getElem?_set_ne (by omega)]
      · rw [if_neg (by omega), List.getElem?_set_ne (by omega)]

/-- Shifting up slot by slot. -/
theorem set_copyUp (h : p + n < l.length) : (copyUp d l p n).set p v = up l p (p + n) v := by
  refine List.ext_getElem? fun i => ?_
  rw [List.getElem?_set, getElem?_copyUp h, getElem?_up (by omega) (Nat.le_of_lt h), length_copyUp]
  by_cases hi : p = i
  · subst hi
    rw [if_pos rfl, if_pos (by omega), if_neg (by omega), if_pos rfl]
  · rw [if_neg hi]
    by_cases hlt : i < p
    · rw [if_neg (by omega), if_pos hlt]
    · rw [if_neg hlt, if_neg (Ne.symm hi)]
      split
      · rw [if_pos (by omega)]
      · rw [if_neg (by omega)]

/-- Shifting down slot by slot. -/
theorem set_copyDown (h : p + n < l.length) : (copyDown d l p n).set (p + n) v = down l p (p + n + 1) v := by
  refine List.ext_getElem? fun i => ?_
  rw [List.getElem?_set, getElem?_copyDown h, getElem?_down (by omega) h, length_copyDown]
  by_cases hi : p + n = i
  · subst hi
    rw [if_pos rfl, if_pos h, if_neg (by omega), if_neg (by omega), if_pos rfl]
  · rw [if_neg hi]
    by_cases hlt : i < p
    · rw [if_neg (by omega), if_pos hlt]
    · rw [if_neg hlt]
      split
      · rw [if_pos (by omega)]
      · rw [if_neg (by omega), if_neg (by omega)]

/-- An element is copied to a new slot at the end, and the others are shifted up below it. -/
theorem up_concat {len : Nat} (hp : p < len) (hlen : l.length = len) :
    up (l ++ [l.getD (len - 1) d]) p (len - 1) v = up l p len v := by
  have hlength : (l ++ [l.getD (len - 1) d]).length = len + 1 := by rw [List.length_append, hlen]; rfl
  refine List.ext_getElem? fun i => ?_
  rw [getElem?_up (by omega) (by omega), getElem?_up (by omega) (by omega)]
  by_cases hlt : i < p
  · rw [if_pos hlt, if_pos hlt, List.getElem?_append_left (by omega)]
  · rw [if_neg hlt, if_neg hlt]
    by_cases hip : i = p
    · rw [if_pos hip, if_pos hip]
    · rw [if_neg hip, if_neg hip]
      by_cases hlen' : i = len
      · subst hlen'
        have hlast : l[i - 1]? = some (l.getD (i - 1) d) := by
          rw [List.getD_eq_getElem?_getD, List.getElem?_eq_getElem (by omega), Option.getD_some]
        rw [if_neg (by omega), if_pos (Nat.le_refl i), List.getElem?_append_right (Nat.le_of_eq hlen), hlen, Nat.sub_self,
          hlast]
        rfl
      · by_cases hle : i ≤ len
        · rw [if_pos (by omega), if_pos hle, List.getElem?_append_left (by omega)]
        · rw [if_neg (by omega), if_neg hle, List.getElem?_append_right (by omega), List.getElem?_eq_none (by simp; omega),
            List.getElem?_eq_none (by omega)]

end Shift
