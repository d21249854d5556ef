import Dellingr.Lib.Binary64Bits
import Mathlib.Algebra.Order.Field.Rat
import Mathlib.Tactic.FieldSimp
import Mathlib.Tactic.NormNum
import Mathlib.Tactic.Positivity

/-!
# Rounding to nearest

The nearest double of a nonnegative rational, ties to even (`F64.RoundsTo`): the finite double
that is at least as near as any other, the one with the even fraction if two are equally near, and
infinity from half a unit above the greatest finite double on.

Between two powers of two the doubles are the multiples of a unit, and below the least normal
double they are all multiples of the least positive one. The bits of such a multiple are that
number of units and the position of the unit, added up, also where rounding carries into the next
power of two. So rounding a rational is rounding its number of units (`roundsTo_ofUnits`) to the
nearest integer (`NearestEven`).
-/

/-- The nearest integer of a rational, the even one if two are equally near. -/
def NearestEven (n : ℤ) (q : ℚ) : Prop := |(n : ℚ) - q| ≤ 1 / 2 ∧ (|(n : ℚ) - q| = 1 / 2 → Even n)

namespace NearestEven

variable {n j : ℤ} {q : ℚ}

/-- No other integer is nearer, and if one is as near then the nearest is even. -/
theorem compare (h : NearestEven n q) (j : ℤ) :
    |(n : ℚ) - q| ≤ |(j : ℚ) - q| ∧ (|(n : ℚ) - q| = |(j : ℚ) - q| → j ≠ n → Even n) := by
  by_cases hj : j = n
  · subst hj
    exact ⟨le_refl _, fun _ hne => absurd rfl hne⟩
  have hstep : (1 : ℚ) ≤ |(j : ℚ) - n| := by
    exact_mod_cast Int.one_le_abs (sub_ne_zero.2 hj)
  have htriangle : |(j : ℚ) - n| ≤ |(j : ℚ) - q| + |(n : ℚ) - q| := by
    calc |(j : ℚ) - n| = |((j : ℚ) - q) - (n - q)| := by rw [sub_sub_sub_cancel_right]
      _ ≤ |(j : ℚ) - q| + |(n : ℚ) - q| := abs_sub _ _
  have hhalf := h.1
  refine ⟨by linarith, fun heq _ => h.2 ?_⟩
  linarith

theorem le_add (h : NearestEven n q) : (n : ℚ) ≤ q + 1 / 2 := by
  have := (abs_le.1 h.1).2
  linarith

theorem sub_le (h : NearestEven n q) : q - 1 / 2 ≤ n := by
  have := (abs_le.1 h.1).1
  linarith

theorem of_eq (h : (n : ℚ) = q) : NearestEven n q := by
  rw [NearestEven, h, sub_self, abs_zero]
  exact ⟨by norm_num, fun h => absurd h (by norm_num)⟩

/-- A rational below one half is rounded to zero. -/
theorem zero (h₀ : 0 ≤ q) (h : q < 1 / 2) : NearestEven 0 q := by
  rw [NearestEven, Int.cast_zero, zero_sub, abs_neg, abs_of_nonneg h₀]
  exact ⟨h.le, fun _ => Even.zero⟩

end NearestEven

/-- The nearest integer of a quotient, by the distances of its multiples. -/
theorem nearestEven_div {n : ℤ} {x D : ℚ} (hD : 0 < D) (h : |n * D - x| ≤ D / 2)
    (heven : |n * D - x| = D / 2 → Even n) : NearestEven n (x / D) := by
  have hdist : |(n : ℚ) - x / D| * D = |n * D - x| := by
    rw [← abs_of_pos hD, ← abs_mul, abs_of_pos hD, sub_mul, div_mul_cancel₀ _ hD.ne']
  refine ⟨?_, fun heq => heven ?_⟩
  · rw [← mul_le_mul_iff_of_pos_right hD, hdist]
    linarith
  · rw [← hdist, heq]
    ring

namespace F64

/-- The rational a finite double stands for. -/
def toRat (x : F64) : ℚ :=
  (if x.sign then -1 else 1) *
    (if x.exponent = 0 then (x.fraction : ℚ) * 2 ^ (-1074 : ℤ)
      else (x.significand : ℚ) * 2 ^ ((x.exponent : ℤ) - 1075))

def infinity : F64 := ofBits (2047 * 2 ^ 52)

/-- Half a unit above the greatest finite double, as far from it as from the next power of two. -/
def overflowThreshold : ℚ := 2 ^ 1024 - 2 ^ 970

theorem overflowThreshold_eq : overflowThreshold = (2 ^ 53 - 1 / 2) * 2 ^ 971 := by
  have hpow : (2 : ℚ) ^ 1024 = 2 ^ 53 * 2 ^ 971 := by rw [← pow_add]
  have hhalf : (2 : ℚ) ^ 971 = 2 * 2 ^ 970 := pow_succ' 2 970
  rw [overflowThreshold, hpow, hhalf]
  generalize (2 : ℚ) ^ 970 = t
  ring

/-- The nearest double of a nonnegative rational, ties to even. -/
def RoundsTo (q : ℚ) (x : F64) : Prop :=
  if overflowThreshold ≤ q then x = infinity
  else x.isFinite = true ∧ x.sign = false ∧ ∀ y : F64, y.isFinite = true →
    |x.toRat - q| ≤ |y.toRat - q| ∧
      (|x.toRat - q| = |y.toRat - q| → y.toRat ≠ x.toRat → Even x.fraction)

/-! ## Units -/

variable {k u : Nat} {q : ℚ}

/-- The unit of the doubles from a power of two on; the doubles below the least normal one have the
    unit of those from it on. -/
def unit (k : Nat) : ℚ := 2 ^ ((k : ℤ) - 1074)

theorem unit_pos (k : Nat) : 0 < unit k := zpow_pos (by norm_num) _

theorem unit_succ (k : Nat) : unit (k + 1) = 2 * unit k := by
  rw [unit, unit, Nat.cast_succ, add_sub_right_comm, zpow_add_one₀ (by norm_num), mul_comm]

theorem unit_add (k d : Nat) : unit (k + d) = 2 ^ d * unit k := by
  rw [unit, unit, Nat.cast_add, add_sub_right_comm, add_comm, zpow_add₀ (by norm_num), zpow_natCast]

theorem unit_lt_of_lt {j : Nat} (h : j < k) : 2 ^ 53 * unit j ≤ 2 ^ 52 * unit k := by
  obtain ⟨d, rfl⟩ := Nat.exists_eq_add_of_le h
  have hpow : (1 : ℚ) ≤ 2 ^ d := one_le_pow₀ (by norm_num)
  have hpos := unit_pos j
  rw [unit_add, unit_succ]
  nlinarith

/-- The threshold in the unit of the greatest doubles. -/
theorem overflowThreshold_eq_unit : (2 ^ 53 - 1 / 2) * unit 2045 = overflowThreshold := by
  have hunit : unit 2045 = 2 ^ 971 := by norm_num [unit]
  rw [hunit, overflowThreshold_eq]

theorem unit_mono {j : Nat} (h : j ≤ k) : unit j ≤ unit k := by
  obtain ⟨d, rfl⟩ := Nat.exists_eq_add_of_le h
  rw [unit_add]
  exact le_mul_of_one_le_left (unit_pos j).le (one_le_pow₀ (by norm_num))

/-- Only the greatest doubles are near the threshold. -/
theorem lt_overflowThreshold (hk : k < 2045) (hq : q < 2 ^ 53 * unit k) : q < overflowThreshold := by
  have hhalf : ∀ t : ℚ, 0 < t → 2 ^ 53 * t < (2 ^ 53 - 1 / 2) * (2 * t) := fun t ht => by linarith
  calc q < 2 ^ 53 * unit k := hq
    _ ≤ 2 ^ 53 * unit 2044 := mul_le_mul_of_nonneg_left (unit_mono (Nat.le_of_lt_succ hk)) (by norm_num)
    _ < (2 ^ 53 - 1 / 2) * (2 * unit 2044) := hhalf _ (unit_pos 2044)
    _ = overflowThreshold := by rw [← overflowThreshold_eq_unit, unit_succ 2044]

/-- The position of the unit of a double. -/
def unitIndex (x : F64) : Nat := x.exponent - 1

/-- The number of units of a double. -/
def units (x : F64) : Nat := if x.exponent = 0 then x.fraction else x.significand

theorem units_lt (x : F64) : x.units < 2 ^ 53 := by
  have := x.fraction_lt
  rw [units, significand]
  split <;> omega

theorem toRat_eq_units (x : F64) :
    x.toRat = (if x.sign then -1 else 1) * ((x.units : ℚ) * unit x.unitIndex) := by
  rw [toRat, units, unit, unitIndex]
  by_cases h : x.exponent = 0
  · rw [if_pos h, if_pos h, h]
    rfl
  · have hexp : ((x.exponent - 1 : Nat) : ℤ) - 1074 = (x.exponent : ℤ) - 1075 := by omega
    rw [if_neg h, if_neg h, hexp]

/-- A double with a unit of this one on is a multiple of it. -/
theorem exists_multiple (x : F64) (h : k ≤ x.unitIndex) : ∃ j : ℤ, x.toRat = j * unit k := by
  obtain ⟨d, hd⟩ := Nat.exists_eq_add_of_le h
  refine ⟨(if x.sign then -1 else 1) * (x.units * 2 ^ d), ?_⟩
  rw [toRat_eq_units, hd, unit_add]
  push_cast
  split <;> ring

/-- A double with a smaller unit is below the doubles of this one. -/
theorem toRat_lt (x : F64) (h : x.unitIndex < k) : x.toRat < 2 ^ 52 * unit k := by
  have hunits : (x.units : ℚ) < 2 ^ 53 := by exact_mod_cast x.units_lt
  have hpos := unit_pos x.unitIndex
  have hnonneg : (0 : ℚ) ≤ x.units := Nat.cast_nonneg _
  rw [toRat_eq_units]
  refine lt_of_lt_of_le ?_ (unit_lt_of_lt h)
  split <;> nlinarith

/-! ## Numbers of units -/

/-- The fields of a double of so many units. -/
theorem fields_ofUnits (hlo : k = 0 ∨ 2 ^ 52 ≤ u) (hu : u ≤ 2 ^ 53) (hfin : k * 2 ^ 52 + u < 2047 * 2 ^ 52) :
    (ofBits (k * 2 ^ 52 + u)).sign = false ∧
      ((u < 2 ^ 52 ∧ (ofBits (k * 2 ^ 52 + u)).exponent = 0 ∧ (ofBits (k * 2 ^ 52 + u)).fraction = u) ∨
        (2 ^ 52 ≤ u ∧ u < 2 ^ 53 ∧ (ofBits (k * 2 ^ 52 + u)).exponent = k + 1 ∧
          (ofBits (k * 2 ^ 52 + u)).fraction = u - 2 ^ 52) ∨
        (u = 2 ^ 53 ∧ (ofBits (k * 2 ^ 52 + u)).exponent = k + 2 ∧
          (ofBits (k * 2 ^ 52 + u)).fraction = 0)) := by
  have hb : (ofBits (k * 2 ^ 52 + u)).bits.toNat = k * 2 ^ 52 + u := toNat_ofBits (by omega)
  rw [sign_eq, exponent, fraction, hb]
  refine ⟨decide_eq_false (by omega), ?_⟩
  omega

theorem toRat_ofUnits (hlo : k = 0 ∨ 2 ^ 52 ≤ u) (hu : u ≤ 2 ^ 53) (hfin : k * 2 ^ 52 + u < 2047 * 2 ^ 52) :
    (ofBits (k * 2 ^ 52 + u)).toRat = u * unit k := by
  obtain ⟨hsign, ⟨hlt, hexp, hfrac⟩ | ⟨hge, hlt, hexp, hfrac⟩ | ⟨rfl, hexp, hfrac⟩⟩ :=
    fields_ofUnits hlo hu hfin
  · obtain rfl : k = 0 := hlo.resolve_right (by omega)
    rw [toRat_eq_units, hsign, units, unitIndex, hexp, if_pos rfl, hfrac]
    simp
  · rw [toRat_eq_units, hsign, units, unitIndex, hexp, if_neg (Nat.succ_ne_zero k), significand, hfrac,
      Nat.add_sub_cancel' hge]
    simp
  · rw [toRat_eq_units, hsign, units, unitIndex, hexp, if_neg (Nat.succ_ne_zero _), significand, hfrac,
      Nat.add_sub_assoc (by norm_num), unit_succ, if_neg Bool.false_ne_true]
    push_cast
    ring

theorem isFinite_ofUnits (hlo : k = 0 ∨ 2 ^ 52 ≤ u) (hu : u ≤ 2 ^ 53)
    (hfin : k * 2 ^ 52 + u < 2047 * 2 ^ 52) : (ofBits (k * 2 ^ 52 + u)).isFinite = true := by
  obtain ⟨-, ⟨-, hexp, -⟩ | ⟨-, -, hexp, -⟩ | ⟨rfl, hexp, -⟩⟩ := fields_ofUnits hlo hu hfin <;>
    · rw [isFinite, hexp, bne_iff_ne]
      omega

/-- An even number of units has an even fraction. -/
theorem even_fraction_ofUnits (hlo : k = 0 ∨ 2 ^ 52 ≤ u) (hu : u ≤ 2 ^ 53)
    (hfin : k * 2 ^ 52 + u < 2047 * 2 ^ 52) (heven : Even u) : Even (ofBits (k * 2 ^ 52 + u)).fraction := by
  obtain ⟨v, rfl⟩ := heven
  obtain ⟨-, ⟨-, -, hfrac⟩ | ⟨hge, -, -, hfrac⟩ | ⟨-, -, hfrac⟩⟩ := fields_ofUnits hlo hu hfin
  · exact ⟨v, hfrac⟩
  · exact ⟨v - 2 ^ 51, by omega⟩
  · exact ⟨0, hfrac⟩

/-! ## Rounding -/

/-- The number of units is rounded up to the next power of two at most, -/
theorem units_le (hr : q < 2 ^ 53) (hu : NearestEven u q) : u ≤ 2 ^ 53 := by
  have hlt : ((u : ℤ) : ℚ) < 2 ^ 53 + 1 := by
    have := hu.le_add
    linarith
  have : (u : ℚ) < (2 ^ 53 + 1 : Nat) := by
    push_cast
    exact_mod_cast hlt
  have := Nat.cast_lt.1 this
  omega

/-- and not below the one it is at least. -/
theorem le_units (hge : 2 ^ 52 ≤ q) (hu : NearestEven u q) : 2 ^ 52 ≤ u := by
  have hlt : ((2 ^ 52 - 1 : ℤ) : ℚ) < ((u : ℤ) : ℚ) := by
    have := hu.sub_le
    push_cast
    push_cast at this
    linarith
  have := Int.cast_lt.1 hlt
  omega

/-- A rational with so many units, between two powers of two or below the least normal double, is
    rounded with its number of units. -/
theorem roundsTo_ofUnits (hk : k ≤ 2045) (hlo : k = 0 ∨ 2 ^ 52 * unit k ≤ q)
    (hhi : q < 2 ^ 53 * unit k) (hu : NearestEven u (q / unit k)) :
    RoundsTo q (ofBits (k * 2 ^ 52 + u)) := by
  have hpos := unit_pos k
  have hr : q / unit k < 2 ^ 53 := (div_lt_iff₀ hpos).2 hhi
  have hule : u ≤ 2 ^ 53 := units_le hr hu
  have hulo : k = 0 ∨ 2 ^ 52 ≤ u := hlo.imp_right fun hle => le_units ((le_div_iff₀ hpos).2 hle) hu
  rw [RoundsTo]
  split
  · -- The greatest number of units is odd, so half a unit above it is rounded up.
    rename_i hover
    obtain rfl : k = 2045 := by
      by_contra hne
      exact absurd hover (not_le.2 (lt_overflowThreshold (by omega) hhi))
    have hge : (2 : ℚ) ^ 53 - 1 / 2 ≤ q / unit 2045 :=
      (le_div_iff₀ hpos).2 (overflowThreshold_eq_unit.trans_le hover)
    have hu53 : u = 2 ^ 53 := by
      refine Nat.le_antisymm hule (Nat.le_of_not_lt fun hlt => ?_)
      have hcast : ((u : ℤ) : ℚ) ≤ 2 ^ 53 - 1 := by
        have : (u : ℤ) ≤ 2 ^ 53 - 1 := by omega
        exact_mod_cast this
      have hsub := hu.sub_le
      have hueq : ((u : ℤ) : ℚ) = 2 ^ 53 - 1 := by linarith
      have hhalf : |((u : ℤ) : ℚ) - q / unit 2045| = 1 / 2 := by
        rw [hueq, abs_sub_comm, abs_of_nonneg (by linarith)]
        linarith
      obtain ⟨v, hv⟩ := hu.2 hhalf
      have : (u : ℤ) = 2 ^ 53 - 1 := by exact_mod_cast hueq
      omega
    rw [hu53]
    rfl
  · rename_i hover
    have hfin : k * 2 ^ 52 + u < 2047 * 2 ^ 52 := by
      by_contra hge
      obtain rfl : k = 2045 := by omega
      obtain rfl : u = 2 ^ 53 := by omega
      have hle := hu.le_add
      push_cast at hle
      have hge : (2 : ℚ) ^ 53 - 1 / 2 ≤ q / unit 2045 := by linarith
      exact hover (overflowThreshold_eq_unit.symm.trans_le ((le_div_iff₀ hpos).1 hge))
    have hval := toRat_ofUnits hulo hule hfin
    refine ⟨isFinite_ofUnits hulo hule hfin, (fields_ofUnits hulo hule hfin).1, fun y _ => ?_⟩
    have hdist : ∀ j : ℤ, |(j : ℚ) * unit k - q| = |(j : ℚ) - q / unit k| * unit k := fun j => by
      rw [← abs_of_pos hpos, ← abs_mul, abs_of_pos hpos, sub_mul, div_mul_cancel₀ _ hpos.ne']
    have hx : |(ofBits (k * 2 ^ 52 + u)).toRat - q| = |((u : ℤ) : ℚ) - q / unit k| * unit k := by
      rw [hval, ← hdist u, Int.cast_natCast]
    rcases Nat.lt_or_ge y.unitIndex k with hlt | hge
    · -- A smaller unit: the double is farther away than the power of two below.
      have hy := y.toRat_lt hlt
      have hle : (2 : ℚ) ^ 52 * unit k ≤ q := hlo.resolve_left (by omega)
      have hpow : |(ofBits (k * 2 ^ 52 + u)).toRat - q| ≤ q - 2 ^ 52 * unit k := by
        have hcompare := (hu.compare (2 ^ 52)).1
        have heq := hdist (2 ^ 52)
        rw [Int.cast_pow, Int.cast_ofNat] at hcompare heq
        rw [abs_sub_comm, abs_of_nonneg (by linarith)] at heq
        rw [hx, heq]
        exact mul_le_mul_of_nonneg_right hcompare hpos.le
      have hfar : |y.toRat - q| = q - y.toRat := by
        rw [abs_sub_comm, abs_of_nonneg (by linarith)]
      exact ⟨by linarith, fun heq => by linarith⟩
    · obtain ⟨j, hj⟩ := y.exists_multiple hge
      obtain ⟨hle, htie⟩ := hu.compare j
      rw [hx, hj, hdist j]
      refine ⟨mul_le_mul_of_nonneg_right hle hpos.le, fun heq hne => ?_⟩
      have hne' : j ≠ (u : ℤ) := by
        rintro rfl
        exact hne (by rw [hval, Int.cast_natCast])
      have heven := htie (mul_right_cancel₀ hpos.ne' heq) hne'
      exact even_fraction_ofUnits hulo hule hfin ((Int.even_coe_nat u).1 heven)

/-- From the first power of two above the finite doubles on, a rational is rounded to infinity. -/
theorem roundsTo_infinity (h : 2 ^ 1024 ≤ q) : RoundsTo q infinity := by
  rw [RoundsTo, if_pos]
  rw [overflowThreshold]
  exact le_trans (sub_le_self _ (pow_nonneg (by norm_num) 970)) h

/-- A rational is never rounded to a negative double or to a NaN. -/
theorem RoundsTo.nonneg {x : F64} (h : RoundsTo q x) : x.sign = false ∧ x.isNan = false := by
  rw [RoundsTo] at h
  split at h
  · subst h
    exact ⟨by decide, by decide⟩
  · refine ⟨h.2.1, ?_⟩
    have hfin := h.1
    rw [isFinite, bne_iff_ne] at hfin
    rw [isNan, beq_eq_false_iff_ne.2 hfin, Bool.false_and]

/-! ## Rounding a double -/

variable {x y : F64}

theorem toRat_of_sign (h : x.sign = false) : x.toRat = x.units * unit x.unitIndex := by
  rw [toRat_eq_units, h, if_neg Bool.false_ne_true, one_mul]

@[simp] theorem units_abs (x : F64) : x.abs.units = x.units := by
  rw [units, units, significand, significand, exponent_abs, fraction_abs]

@[simp] theorem unitIndex_abs (x : F64) : x.abs.unitIndex = x.unitIndex := by
  rw [unitIndex, unitIndex, exponent_abs]

theorem toRat_abs (x : F64) : x.abs.toRat = |x.toRat| := by
  have hnonneg : 0 ≤ (x.units : ℚ) * unit x.unitIndex := mul_nonneg (Nat.cast_nonneg _) (unit_pos _).le
  rw [toRat_of_sign x.sign_abs, units_abs, unitIndex_abs, x.toRat_eq_units, abs_mul, abs_of_nonneg hnonneg]
  split <;> simp

/-- Two doubles without a sign are equal if their rationals are. -/
theorem eq_of_toRat (hx : x.sign = false) (hy : y.sign = false) (h : x.toRat = y.toRat) : x = y := by
  -- A double with the greater unit would be a greater rational.
  have hle : ∀ {x y : F64}, y.sign = false → x.toRat = y.toRat → y.unitIndex ≤ x.unitIndex := by
    intro x y hy h
    by_contra hlt
    have hbelow := x.toRat_lt (not_le.1 hlt)
    have hfull : 2 ^ 52 ≤ y.units := by
      rw [units, if_neg (by rw [unitIndex] at hlt; omega), significand]
      exact Nat.le_add_right _ _
    have habove : (2 : ℚ) ^ 52 * unit y.unitIndex ≤ y.toRat := by
      rw [toRat_of_sign hy]
      exact mul_le_mul_of_nonneg_right (by exact_mod_cast hfull) (unit_pos _).le
    exact absurd (h ▸ hbelow) (not_lt.2 habove)
  have hindex : x.unitIndex = y.unitIndex := le_antisymm (hle hx h.symm) (hle hy h)
  have hunits : x.units = y.units := by
    rw [toRat_of_sign hx, toRat_of_sign hy, hindex] at h
    exact_mod_cast mul_right_cancel₀ (unit_pos _).ne' h
  refine toNat_inj ?_
  rw [toNat_of_sign hx, toNat_of_sign hy]
  have hxf := x.fraction_lt
  have hyf := y.fraction_lt
  simp only [units, unitIndex, significand] at hunits hindex
  split at hunits <;> split at hunits <;> omega

theorem toRat_lt_overflowThreshold (hx : x.isFinite = true) : x.toRat < overflowThreshold := by
  have hunits : (x.units : ℚ) ≤ 2 ^ 53 - 1 := by
    have hlt : (x.units : ℚ) + 1 ≤ 2 ^ 53 := by exact_mod_cast x.units_lt
    linarith only [hlt]
  have hindex : x.unitIndex ≤ 2045 := by
    have := x.exponent_lt
    rw [isFinite, bne_iff_ne] at hx
    rw [unitIndex]
    omega
  have hpos := unit_pos x.unitIndex
  calc x.toRat ≤ |x.toRat| := le_abs_self _
    _ = x.units * unit x.unitIndex := by
        rw [← toRat_abs, toRat_of_sign x.sign_abs, units_abs, unitIndex_abs]
    _ < (2 ^ 53 - 1 / 2) * unit x.unitIndex := mul_lt_mul_of_pos_right (by linarith) hpos
    _ ≤ (2 ^ 53 - 1 / 2) * unit 2045 := mul_le_mul_of_nonneg_left (unit_mono hindex) (by norm_num)
    _ = overflowThreshold := overflowThreshold_eq_unit

/-- The rational of a double is rounded to the double. -/
theorem eq_of_roundsTo (hfin : x.isFinite = true) (hx : x.sign = false) (h : RoundsTo x.toRat y) : y = x := by
  rw [RoundsTo, if_neg (not_le.2 (toRat_lt_overflowThreshold hfin))] at h
  obtain ⟨-, hy, hnear⟩ := h
  have hdist := (hnear x hfin).1
  rw [sub_self, abs_zero] at hdist
  exact eq_of_toRat hy hx (sub_eq_zero.1 (abs_nonpos_iff.1 hdist))

end F64
