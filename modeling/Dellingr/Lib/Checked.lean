import Mathlib.Logic.Basic

/-!
# Checked arithmetic

The subtraction of unsigned machine integers, which fails where it would
underflow.
-/

/-- The difference of two unsigned integers; `none` where it underflows. -/
def checkedSub (a b : Nat) : Option Nat := if b ≤ a then some (a - b) else none

theorem checkedSub_of_le {a b : Nat} (h : b ≤ a) : checkedSub a b = some (a - b) := if_pos h

theorem checkedSub_eq_some {a b c : Nat} : checkedSub a b = some c ↔ b ≤ a ∧ a - b = c := by
  rw [checkedSub]
  split
  · simp [*]
  · simp [*]
