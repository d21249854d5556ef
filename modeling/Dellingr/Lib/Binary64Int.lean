import Dellingr.Lib.Binary64Bits

/-!
# Integers as doubles

A signed 64-bit integer is converted to a double with rounding to nearest (`ofInt`). The conversion of
a natural number is that of `F64.ofNat`; a negative integer is converted by its magnitude. Up to
`2 ^ 53` on either side the conversion is exact: the double is the integer, up to its sign
(`ofInt_spec`).
-/

namespace F64

/-- The conversion of a signed integer, rounded to nearest. -/
def ofInt (i : Int) : F64 := if i < 0 then (ofNat i.natAbs).neg else ofNat i.natAbs

theorem ofInt_natCast (n : Nat) : ofInt n = ofNat n := by
  rw [ofInt, if_neg (by omega), Int.natAbs_natCast]

variable {x : F64} {n : Nat} {i : Int}

/-- A double whose magnitude is equal to a natural number has nothing below the point. -/
theorem trunc_of_exactNat_abs (h : x.abs.exactNat = some n) :
    x.isFinite = true ∧ x.trunc = x ∧ x.truncNat = n := by
  rcases exactNat_eq_some.1 h with ⟨hz, rfl⟩ | ⟨hz, -, hne, he, hm⟩
  · rw [isZero, exponent_abs, fraction_abs, Bool.and_eq_true, beq_iff_eq, beq_iff_eq] at hz
    obtain ⟨hexp, hfrac⟩ := hz
    refine ⟨by rw [isFinite, hexp]; rfl, ?_, by rw [truncNat, if_pos (by omega)]⟩
    refine toNat_inj ?_
    rw [trunc, if_pos (by omega), toNat_ofBits (by split <;> norm_num), toNat_eq, hexp, hfrac]
    split <;> rfl
  · have hsig : x.abs.significand = x.significand := by rw [significand, significand, fraction_abs]
    rw [exponent_abs, hsig] at hm
    rw [exponent_abs] at hne he
    refine ⟨by simpa [isFinite] using hne, ?_, ?_⟩
    · rw [trunc, if_neg (by omega)]
      split
      · rename_i hlt
        rw [show x.exponent - 1075 = 0 by omega, pow_zero, Nat.mul_one] at hm
        have hdvd : 2 ^ (1075 - x.exponent) ∣ 2 ^ 52 + x.fraction := ⟨n, by rw [Nat.mul_comm]; exact hm.symm⟩
        have hmod : x.fraction % 2 ^ (1075 - x.exponent) = 0 :=
          Nat.mod_eq_zero_of_dvd ((Nat.dvd_add_right (Nat.pow_dvd_pow 2 (by omega))).1 hdvd)
        refine toNat_inj ?_
        rw [hmod, Nat.sub_zero, toNat_ofBits x.bits.isLt]
      · rfl
    · rw [truncNat, if_neg (by omega)]
      split
      · rename_i hlt
        rw [show x.exponent - 1075 = 0 by omega, pow_zero, Nat.mul_one] at hm
        exact Nat.div_eq_of_eq_mul_left (by positivity) hm.symm
      · rename_i hge
        rw [show 1075 - x.exponent = 0 by omega, pow_zero, Nat.mul_one] at hm
        exact hm.symm

/-- The conversion of a natural number is positive and not large. -/
theorem toNat_ofNat_lt (h : n ≤ 2 ^ 53) : (ofNat n).bits.toNat < 1077 * 2 ^ 52 := by
  have hfrac := (ofNat n).fraction_lt
  rcases exactNat_eq_some.1 (exactNat_ofNat h) with ⟨hz, rfl⟩ | ⟨-, hs, -, he, hm⟩
  · decide
  · obtain ⟨hlo, -⟩ := exactNat_bounds he (by simp [significand]) (by simp only [significand]; omega) hm
    have hexp : (ofNat n).exponent - 1023 ≤ 53 := by
      by_contra hgt
      have : 2 ^ 54 ≤ 2 ^ ((ofNat n).exponent - 1023) := Nat.pow_le_pow_right (by norm_num) (by omega)
      omega
    rw [toNat_of_sign hs]
    omega

/-- The sign, the magnitude and the size of a converted integer. -/
theorem ofInt_spec (h₁ : -2 ^ 53 ≤ i) (h₂ : i ≤ 2 ^ 53) :
    (ofInt i).sign = decide (i < 0) ∧ (ofInt i).abs.exactNat = some i.natAbs ∧
      (ofInt i).bits.toNat % 2 ^ 63 < 1077 * 2 ^ 52 := by
  have hn : i.natAbs ≤ 2 ^ 53 := by omega
  have hlt := toNat_ofNat_lt hn
  have hsign : (ofNat i.natAbs).sign = false := by
    rw [sign_eq]
    exact decide_eq_false (by omega)
  rw [ofInt]
  split
  · rename_i hneg
    have hbits : (ofNat i.natAbs).neg.bits.toNat = (ofNat i.natAbs).bits.toNat + 2 ^ 63 := by
      rw [neg, toNat_ofBits (by omega)]
    have habs : (ofNat i.natAbs).neg.abs = ofNat i.natAbs := by
      refine toNat_inj ?_
      rw [toNat_abs, hbits]
      omega
    refine ⟨?_, by rw [habs, exactNat_ofNat hn], by rw [hbits]; omega⟩
    rw [sign_eq, hbits, decide_eq_true hneg]
    exact decide_eq_true (by omega)
  · rename_i hpos
    refine ⟨by rw [hsign, decide_eq_false hpos], by rw [abs_of_sign hsign, exactNat_ofNat hn], by omega⟩

end F64
