import Dellingr.Lib.Binary64

/-!
# Operations on the bits of a double

The operations of the hardware that only move bits:

* `neg` and `abs` change the sign bit, so a double is its absolute value and its
  sign (`neg_abs`, `abs_of_sign`);
* `trunc` clears the bits of the fraction that are below the point, and the
  double is then the integer `truncNat`, up to its sign (`exactNat_abs_of_trunc`);
* `totalKey` orders the doubles, zeros and NaNs included, as integers.

A double equal to a natural number is the conversion of the number
(`ofNat_of_exactNat`), whatever its size.
-/

namespace F64

/-- Not an infinity or a NaN. -/
def isFinite (x : F64) : Bool := x.exponent != 2047

/-- The opposite sign. -/
def neg (x : F64) : F64 := ofBits (x.bits.toNat + 2 ^ 63)

/-- The absolute value. -/
def abs (x : F64) : F64 := ofBits (x.bits.toNat % 2 ^ 63)

/-- The integer next to a double towards zero. -/
def trunc (x : F64) : F64 :=
  if x.exponent < 1023 then ofBits (if x.sign then 2 ^ 63 else 0)
  else if x.exponent < 1075 then ofBits (x.bits.toNat - x.fraction % 2 ^ (1075 - x.exponent))
  else x

/-- The magnitude of a finite double, rounded down. -/
def truncNat (x : F64) : Nat :=
  if x.exponent < 1023 then 0
  else if x.exponent < 1075 then x.significand / 2 ^ (1075 - x.exponent)
  else x.significand * 2 ^ (x.exponent - 1075)

/-- The conversion to a signed 64-bit integer: rounded towards zero, the nearest one where it is
    out of range, and zero of a NaN. -/
def toI64 (x : F64) : Int :=
  if x.isNan then 0
  else if x.sign then max (-(x.truncNat : Int)) (-2 ^ 63) else min (x.truncNat : Int) (2 ^ 63 - 1)

/-- The position of a double in the total order of the doubles. -/
def totalKey (x : F64) : Int :=
  if x.sign then -1 - ((x.bits.toNat % 2 ^ 63 : Nat) : Int) else (x.bits.toNat : Int)

variable {x y : F64} {n : Nat}

theorem toNat_inj (h : x.bits.toNat = y.bits.toNat) : x = y := by
  cases x
  cases y
  exact congrArg F64.mk (BitVec.eq_of_toNat_eq h)

theorem sign_eq (x : F64) : x.sign = decide (2 ^ 63 ≤ x.bits.toNat) := by
  rw [sign, BitVec.msb_eq_decide]

theorem exponent_lt (x : F64) : x.exponent < 2 ^ 11 := Nat.mod_lt _ (by norm_num)

/-! ## Signs -/

@[simp] theorem toNat_abs (x : F64) : x.abs.bits.toNat = x.bits.toNat % 2 ^ 63 :=
  toNat_ofBits ((Nat.mod_lt _ (by norm_num)).trans (by norm_num))

@[simp] theorem sign_abs (x : F64) : x.abs.sign = false := by
  rw [sign_eq, toNat_abs]
  exact decide_eq_false (Nat.not_le.2 (Nat.mod_lt _ (by norm_num)))

@[simp] theorem exponent_abs (x : F64) : x.abs.exponent = x.exponent := by
  rw [exponent, exponent, toNat_abs]
  omega

@[simp] theorem fraction_abs (x : F64) : x.abs.fraction = x.fraction := by
  rw [fraction, fraction, toNat_abs]
  omega

/-- A positive double is its own absolute value. -/
theorem abs_of_sign (h : x.sign = false) : x.abs = x := by
  have hlt := x.bits.isLt
  rw [sign_eq, decide_eq_false_iff_not] at h
  refine toNat_inj ?_
  rw [toNat_abs]
  omega

/-- A negative double is the opposite of its absolute value. -/
theorem neg_abs (h : x.sign = true) : x.abs.neg = x := by
  have hlt := x.bits.isLt
  rw [sign_eq, decide_eq_true_eq] at h
  refine toNat_inj ?_
  rw [neg, toNat_abs, toNat_ofBits (by omega)]
  omega

/-- The bits of a positive double. -/
theorem toNat_of_sign (h : x.sign = false) : x.bits.toNat = x.exponent * 2 ^ 52 + x.fraction := by
  rw [toNat_eq, h]
  simp

/-! ## Integers -/

/-- The zeros are truncated to themselves, and nothing else below one is. -/
theorem isZero_of_trunc (h : x.trunc = x) (he : x.exponent < 1023) : x.isZero = true := by
  rw [trunc, if_pos he] at h
  have hb : _ = x.bits.toNat := congrArg (fun y => y.bits.toNat) h
  have hx := x.toNat_eq
  rw [toNat_ofBits (by split <;> norm_num)] at hb
  rw [isZero, Bool.and_eq_true, beq_iff_eq, beq_iff_eq]
  split at hb
  · rename_i hs
    rw [if_pos hs] at hx
    omega
  · rename_i hs
    rw [if_neg hs] at hx
    omega

/-- The only integers of magnitude zero are the zeros. -/
theorem isZero_of_truncNat (h : x.trunc = x) (h0 : x.truncNat = 0) : x.isZero = true := by
  refine isZero_of_trunc h ?_
  by_contra he
  rw [truncNat, if_neg he] at h0
  have hsig : 2 ^ 52 ≤ x.significand := Nat.le_add_right _ _
  split at h0
  · rcases Nat.div_eq_zero_iff.1 h0 with hzero | hlt
    · exact absurd hzero (by positivity)
    · have hpow : 2 ^ (1075 - x.exponent) ≤ 2 ^ 52 := Nat.pow_le_pow_right (by norm_num) (by omega)
      omega
  · rcases Nat.mul_eq_zero.1 h0 with hzero | hzero
    · omega
    · exact absurd hzero (by positivity)

/-- The negative zero. -/
theorem eq_neg_zero (h : x.isZero = true) (hs : x.sign = true) : x = (ofBits 0).neg := by
  simp only [isZero, Bool.and_eq_true, beq_iff_eq] at h
  refine toNat_inj ?_
  rw [toNat_eq, hs, h.1, h.2]
  rfl

/-- A double without bits below the point is an integer. -/
theorem exactNat_abs_of_trunc (h : x.trunc = x) (hf : x.isFinite = true) :
    x.abs.exactNat = some x.truncNat := by
  have hfin : x.exponent ≠ 2047 := by simpa [isFinite] using hf
  rw [truncNat]
  split
  · rename_i he
    have hz : x.abs.isZero = true := by
      have := isZero_of_trunc h he
      rwa [isZero, exponent_abs, fraction_abs]
    exact exactNat_eq_some.2 (.inl ⟨hz, rfl⟩)
  rename_i he
  have hz : x.abs.isZero = false := by
    rw [isZero, exponent_abs, beq_eq_false_iff_ne.2 (by omega), Bool.false_and]
  refine exactNat_eq_some.2 (.inr ⟨hz, sign_abs x, ?_, ?_, ?_⟩)
  · rwa [exponent_abs]
  · rw [exponent_abs]
    omega
  have hsig : x.abs.significand = x.significand := by rw [significand, significand, fraction_abs]
  rw [exponent_abs, hsig]
  split
  · rename_i hlt
    have hexp : x.exponent - 1075 = 0 := by omega
    rw [hexp, pow_zero, Nat.mul_one]
    refine Nat.div_mul_cancel ?_
    -- Nothing was cleared, so the fraction has no bits below the point.
    rw [trunc, if_neg he, if_pos hlt] at h
    have hb : _ = x.bits.toNat := congrArg (fun y => y.bits.toNat) h
    have hle : x.fraction % 2 ^ (1075 - x.exponent) ≤ x.bits.toNat :=
      (Nat.mod_le _ _).trans (Nat.mod_le _ _)
    have hlt' := x.bits.isLt
    rw [toNat_ofBits (by omega)] at hb
    have hmod : x.fraction % 2 ^ (1075 - x.exponent) = 0 := by omega
    exact (Nat.dvd_add_right (Nat.pow_dvd_pow 2 (by omega))).2 (Nat.dvd_of_mod_eq_zero hmod)
  · rename_i hge
    have hexp : 1075 - x.exponent = 0 := by omega
    rw [hexp, pow_zero, Nat.mul_one]

/-- A double equal to a natural number is the conversion of the number. -/
theorem ofNat_of_exactNat (hs : x.sign = false) (h : x.exactNat = some n) : ofNat n = x := by
  have hfrac := x.fraction_lt
  rcases exactNat_eq_some.1 h with ⟨hz, rfl⟩ | ⟨hz, -, hne, he, hm⟩
  · simp only [isZero, Bool.and_eq_true, beq_iff_eq] at hz
    refine toNat_inj ?_
    rw [toNat_of_sign hs, hz.1, hz.2]
    rfl
  obtain ⟨hlo, hhi⟩ := exactNat_bounds he (by simp [significand]) (by simp only [significand]; omega) hm
  have hn : n ≠ 0 := by
    have : 0 < 2 ^ (x.exponent - 1023) := by positivity
    omega
  have hlog : n.log2 = x.exponent - 1023 := (Nat.log2_eq_iff hn).2 ⟨hlo, hhi⟩
  have hexp := x.exponent_lt
  -- Both conversions shift the number so that its leading bit is that of the significand.
  have hbits : ofNat n = ofBits ((x.exponent - 1) * 2 ^ 52 + x.significand) := by
    rw [ofNat, if_neg hn]
    simp only [hlog]
    split
    · rename_i hle
      have hshift : n * 2 ^ (1075 - x.exponent) = x.significand := by
        rw [hm, show x.exponent - 1075 = 0 by omega, pow_zero, Nat.mul_one]
      rw [show x.exponent - 1023 + 1022 = x.exponent - 1 by omega,
        show 52 - (x.exponent - 1023) = 1075 - x.exponent by omega, hshift]
    · rename_i hgt
      have hshift : n = x.significand * 2 ^ (x.exponent - 1075) := by
        rw [← hm, show 1075 - x.exponent = 0 by omega, pow_zero, Nat.mul_one]
      have hpos : 0 < 2 ^ (x.exponent - 1075) := by positivity
      rw [show x.exponent - 1023 - 52 = x.exponent - 1075 by omega,
        show x.exponent - 1023 + 1022 = x.exponent - 1 by omega, hshift, Nat.mul_mod_left,
        Nat.mul_div_cancel _ hpos, if_neg (by omega)]
  rw [hbits]
  refine toNat_inj ?_
  rw [toNat_of_sign hs, significand, toNat_ofBits (by omega)]
  omega

end F64
