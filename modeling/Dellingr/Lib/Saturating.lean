import Mathlib.Algebra.Order.Ring.Int
import Mathlib.Algebra.Order.Ring.Nat
import Mathlib.Data.Int.Order.Basic
import Mathlib.Tactic.Common

/-!
# Saturating arithmetic

Sums, products and differences of 64-bit integers that stop at the ends of
their range:

* `saturatingAdd`, `saturatingMul` of unsigned integers, with the greatest one
  in place of an overflow;
* `saturatingSubUnsigned`, a signed integer less an unsigned one, with the least
  one in place of an overflow;
* `divCeil`, the quotient rounded up.

Subtracting twice is subtracting the sum (`saturatingSubUnsigned_add`), also
where one of them saturates: the sum is then so large that the difference is the
least integer either way.
-/

namespace Dellingr

/-- The sum, or the greatest integer. -/
def saturatingAdd (a b : UInt64) : UInt64 := .ofNat (min (a.toNat + b.toNat) (2 ^ 64 - 1))

/-- The product, or the greatest integer. -/
def saturatingMul (a b : UInt64) : UInt64 := .ofNat (min (a.toNat * b.toNat) (2 ^ 64 - 1))

/-- The difference, or the least integer. -/
def saturatingSubUnsigned (a : Int64) (b : UInt64) : Int64 :=
  .ofInt (max (a.toInt - b.toNat) (-2 ^ 63))

/-- The quotient, rounded up. -/
def divCeil (a b : UInt64) : UInt64 := .ofNat ((a.toNat + (b.toNat - 1)) / b.toNat)

section

variable {a : Int64} {m n k : UInt64}

theorem toNat_saturatingAdd : (saturatingAdd m n).toNat = min (m.toNat + n.toNat) (2 ^ 64 - 1) :=
  UInt64.toNat_ofNat_of_lt' (by rw [UInt64.size]; omega)

theorem toNat_saturatingMul : (saturatingMul m n).toNat = min (m.toNat * n.toNat) (2 ^ 64 - 1) :=
  UInt64.toNat_ofNat_of_lt' (by rw [UInt64.size]; omega)

theorem toInt_saturatingSubUnsigned :
    (saturatingSubUnsigned a n).toInt = max (a.toInt - n.toNat) (-2 ^ 63) := by
  have := a.toInt_lt
  exact Int64.toInt_ofInt_of_le (le_max_right _ _) (by omega)

@[simp] theorem saturatingAdd_zero : saturatingAdd n 0 = n := by
  have := n.toNat_lt
  rw [← UInt64.toNat_inj, toNat_saturatingAdd, UInt64.toNat_zero]
  omega

@[simp] theorem zero_saturatingAdd : saturatingAdd 0 n = n := by
  have := n.toNat_lt
  rw [← UInt64.toNat_inj, toNat_saturatingAdd, UInt64.toNat_zero]
  omega

@[simp] theorem saturatingSubUnsigned_zero : saturatingSubUnsigned a 0 = a := by
  have := a.le_toInt
  rw [← Int64.toInt_inj, toInt_saturatingSubUnsigned, UInt64.toNat_zero]
  omega

theorem saturatingAdd_assoc :
    saturatingAdd (saturatingAdd m n) k = saturatingAdd m (saturatingAdd n k) := by
  simp only [← UInt64.toNat_inj, toNat_saturatingAdd]
  omega

theorem saturatingAdd_ne_zero (h : n ≠ 0) : saturatingAdd m n ≠ 0 := by
  rw [Ne, ← UInt64.toNat_inj, UInt64.toNat_zero] at h ⊢
  rw [toNat_saturatingAdd]
  omega

/-- Subtracting twice is subtracting the sum. -/
theorem saturatingSubUnsigned_add :
    saturatingSubUnsigned (saturatingSubUnsigned a m) n =
      saturatingSubUnsigned a (saturatingAdd m n) := by
  have := a.toInt_lt
  simp only [← Int64.toInt_inj, toInt_saturatingSubUnsigned, toNat_saturatingAdd]
  omega

/-- A difference that stays positive does not saturate. -/
theorem pos_of_saturatingSubUnsigned (h : 0 < (saturatingSubUnsigned a n).toInt) :
    0 < a.toInt := by
  rw [toInt_saturatingSubUnsigned] at h
  omega

theorem toNat_divCeil (h : m ≠ 0) :
    (divCeil n m).toNat = (n.toNat + (m.toNat - 1)) / m.toNat := by
  have hm : 0 < m.toNat := by
    rw [Ne, ← UInt64.toNat_inj, UInt64.toNat_zero] at h
    omega
  have := n.toNat_lt
  refine UInt64.toNat_ofNat_of_lt' ?_
  rw [UInt64.size, Nat.div_lt_iff_lt_mul hm]
  omega

end

end Dellingr
