import Dellingr.Numeral
import Dellingr.Lib.Rounding

/-!
# Hexadecimal numerals are rounded to nearest

A hexadecimal numeral stands for a rational: its digits, without the point, as a number in base
sixteen, divided by sixteen for every digit after the point, and multiplied by two to the power of
its exponent (`hexRational`). What the reader gives for it is the nearest double, ties to even
(`parseHex_roundsTo`).

* What has been read keeps the first sixteen significant digits and whether something other than
  zero was dropped below them (`HexState.Reads`); as the kept digits have more bits than a double,
  that decides the rounding.
* Assembling the bits rounds once, to the unit of the result (`finishHex_roundsTo`).
* An exponent beyond its limit makes the result zero or infinite, and so does the limit.

The limit on the exponent is computed from the length of the mantissa in signed 64-bit integers.
While it is exact, no other operation saturates in a way that is seen.
-/

namespace Dellingr.Numeral

open Patterns (ascii isAsciiDigit isAsciiHexdigit)
open F64 (RoundsTo roundsTo_ofUnits unit unit_pos)

variable {ops : FloatOps}

/-! ## Shifting right -/

/-- What was dropped below a number makes a difference only where the number is halfway. -/
theorem nearestEven_roundShiftRight {p s : Nat} {sticky : Bool} {f : ℚ} (hp : p < 2 ^ 64) (hs : 0 < s)
    (hf₀ : 0 ≤ f) (hf₁ : f < 1) (hsticky : sticky = true ↔ f ≠ 0) :
    NearestEven (roundShiftRight p s sticky : Nat) ((p + f) / 2 ^ s) := by
  obtain ⟨H, hH⟩ : ∃ H : Nat, H = 2 ^ (s - 1) := ⟨_, rfl⟩
  have hpow : 2 ^ s = 2 * H := by rw [hH, ← pow_succ', Nat.sub_add_cancel hs]
  have hpos : 0 < H := by rw [hH]; positivity
  obtain ⟨kept, hkept⟩ : ∃ kept, kept = p / 2 ^ s := ⟨_, rfl⟩
  obtain ⟨r, hr⟩ : ∃ r, r = p % 2 ^ s := ⟨_, rfl⟩
  have hrlt : r < 2 * H := by rw [hr, ← hpow]; exact Nat.mod_lt _ (by positivity)
  have hsplit : p = kept * (2 * H) + r := by rw [hkept, hr, ← hpow, Nat.div_add_mod']
  have hle : kept ≤ p := by rw [hkept]; exact Nat.div_le_self _ _
  have hsmall : kept + 1 < 2 ^ 64 := by
    have hhalf : kept ≤ p / 2 := by
      rw [hkept]
      exact Nat.div_le_div_left (by rw [hpow]; omega) (by norm_num)
    omega
  have hround : roundShiftRight p s sticky =
      kept + if H < r ∨ (r = H ∧ (sticky = true ∨ kept % 2 ≠ 0)) then 1 else 0 := by
    rw [roundShiftRight, if_neg (by omega)]
    simp only [← hkept, ← hr, ← hH]
    exact saturateU_of_lt (by split <;> omega)
  have hD : (0 : ℚ) < 2 * H := by positivity
  have hcast : ((2 : ℚ) ^ s) = 2 * H := by exact_mod_cast hpow
  have hpcast : (p : ℚ) = kept * (2 * H) + r := by exact_mod_cast hsplit
  rw [hround, hcast]
  split
  · rename_i hup
    -- The distance is what is missing from the next multiple.
    have hdist : (((kept + 1 : Nat) : ℤ) : ℚ) * (2 * H) - (p + f) = 2 * H - (r + f) := by
      rw [hpcast]
      push_cast
      ring
    have hge : (H : ℚ) ≤ r := by
      have : H ≤ r := by omega
      exact_mod_cast this
    have hr₁ : (r : ℚ) + 1 ≤ 2 * H := by exact_mod_cast hrlt
    refine nearestEven_div hD ?_ ?_
    · rw [hdist, abs_of_nonneg (by linarith)]
      linarith
    · rw [hdist, abs_of_nonneg (by linarith)]
      intro heq
      have hrH : r = H := by
        have : (r : ℚ) ≤ H := by linarith
        have : r ≤ H := by exact_mod_cast this
        have : H ≤ r := by exact_mod_cast hge
        omega
      have hf : f = 0 := by
        rw [hrH] at heq
        linarith
      have hodd : kept % 2 ≠ 0 := by
        rcases hup with hlt | ⟨-, hst | hodd⟩
        · omega
        · exact absurd hf (hsticky.1 hst)
        · exact hodd
      exact (Int.even_coe_nat _).2 (Nat.even_iff.2 (by omega))
  · rename_i hdown
    have hdist : (((kept + 0 : Nat) : ℤ) : ℚ) * (2 * H) - (p + f) = -(r + f) := by
      rw [hpcast]
      push_cast
      ring
    have hr₀ : (0 : ℚ) ≤ r := Nat.cast_nonneg r
    have hle : (r : ℚ) + f ≤ H := by
      rcases Nat.lt_or_ge r H with hlt | hge
      · have : (r : ℚ) + 1 ≤ H := by exact_mod_cast hlt
        linarith
      · obtain rfl : r = H := by omega
        have hf : f = 0 := by
          by_contra hf
          exact hdown (.inr ⟨rfl, .inl (hsticky.2 hf)⟩)
        rw [hf, add_zero]
    refine nearestEven_div hD ?_ ?_
    · rw [hdist, abs_neg, abs_of_nonneg (by linarith)]
      linarith
    · rw [hdist, abs_neg, abs_of_nonneg (by linarith)]
      intro heq
      have hrH : r = H := by
        by_contra hne
        have hlt : r < H := by
          by_contra hge
          have : (H : ℚ) + 1 ≤ r := by
            have : H + 1 ≤ r := by omega
            exact_mod_cast this
          linarith
        have : (r : ℚ) + 1 ≤ H := by exact_mod_cast hlt
        linarith
      have heven : kept % 2 = 0 := by
        by_contra hodd
        exact hdown (.inr ⟨hrH, .inr hodd⟩)
      exact (Int.even_coe_nat _).2 (Nat.even_iff.2 (by omega))

/-! ## Assembling the bits -/

theorem saturate_lt {x c : Int} (h₁ : -2 ^ 63 < c) (h₂ : c ≤ 2 ^ 63 - 1) : saturate x < c ↔ x < c := by
  rw [saturate]
  omega

theorem lt_saturate {x c : Int} (h₁ : -2 ^ 63 ≤ c) (h₂ : c < 2 ^ 63 - 1) : c < saturate x ↔ c < x := by
  rw [saturate]
  omega

/-- A number is as long as its bits. -/
theorem bitCount_bounds {p : Nat} (hp : 0 < p) :
    2 ^ (bitCount p - 1) ≤ p ∧ p < 2 ^ bitCount p ∧ 0 < bitCount p := by
  have h := (Nat.log2_eq_iff (Nat.ne_of_gt hp)).1 rfl
  rw [bitCount_of_pos hp, Nat.add_sub_cancel]
  exact ⟨h.1, h.2, Nat.succ_pos _⟩

theorem bitCount_le {p n : Nat} (hp : 0 < p) (h : p < 2 ^ n) : bitCount p ≤ n := by
  have hlt := (Nat.pow_lt_pow_iff_right (by norm_num)).1 (lt_of_le_of_lt (bitCount_bounds hp).1 h)
  omega

theorem lt_bitCount {p n : Nat} (hp : 0 < p) (h : 2 ^ n ≤ p) : n < bitCount p :=
  (Nat.pow_lt_pow_iff_right (by norm_num)).1 (lt_of_le_of_lt h (bitCount_bounds hp).2.1)

/-- The fields of a number of at most 53 bits. -/
theorem fields_ofNat {s : Nat} (hs : 0 < s) (hlt : s < 2 ^ 53) :
    (F64.ofNat s).exponent = bitCount s + 1022 ∧
      (F64.ofNat s).fraction + 2 ^ 52 = s * 2 ^ (53 - bitCount s) := by
  obtain ⟨hlo, hhi, hpos⟩ := bitCount_bounds hs
  have hle := bitCount_le hs hlt
  have hlog : s.log2 = bitCount s - 1 := by rw [bitCount_of_pos hs, Nat.add_sub_cancel]
  have h52 : 2 ^ 52 = 2 ^ (bitCount s - 1) * 2 ^ (53 - bitCount s) := by
    rw [← pow_add]
    congr 1
    omega
  have h53 : 2 ^ 53 = 2 ^ bitCount s * 2 ^ (53 - bitCount s) := by
    rw [← pow_add]
    congr 1
    omega
  have hge : 2 ^ 52 ≤ s * 2 ^ (53 - bitCount s) := by
    rw [h52]
    exact Nat.mul_le_mul_right _ hlo
  have hlt : s * 2 ^ (53 - bitCount s) < 2 ^ 53 := by
    rw [h53]
    exact Nat.mul_lt_mul_of_pos_right hhi (by positivity)
  have hbits : (F64.ofNat s).bits.toNat = (bitCount s + 1021) * 2 ^ 52 + s * 2 ^ (53 - bitCount s) := by
    rw [F64.ofNat, if_neg (by omega)]
    simp only [hlog]
    rw [if_pos (by omega), show 52 - (bitCount s - 1) = 53 - bitCount s by omega,
      show bitCount s - 1 + 1022 = bitCount s + 1021 by omega, F64.toNat_ofBits (by omega)]
  rw [F64.exponent, F64.fraction, hbits]
  omega

/-- A significand of 53 bits, or one that was rounded up to the next power of two, is put at its
    place. -/
theorem scaleFiniteByPowerOfTwo_eq {s u : Nat} {scale top : Int} (hs : 0 < s) (hle : s ≤ 2 ^ 53)
    (hu : u = if s = 2 ^ 53 then 2 ^ 53 else s * 2 ^ (53 - bitCount s))
    (htop : scale + bitCount s - 1 = if s = 2 ^ 53 then top + 1 else top) (h₁ : -1022 ≤ top)
    (h₂ : top ≤ 1023) :
    scaleFiniteByPowerOfTwo ops (F64.ofNat s) scale = F64.ofBits ((top + 1022).toNat * 2 ^ 52 + u) := by
  have hfields : (F64.ofNat s).exponent = bitCount s + 1022 ∧
      (F64.ofNat s).fraction + 2 ^ 52 = (if s = 2 ^ 53 then 2 ^ 52 else u) := by
    split at hu
    · rename_i h53
      rw [h53, if_pos rfl]
      exact ⟨by decide, by decide⟩
    · rename_i hne
      rw [if_neg hne, hu]
      exact fields_ofNat hs (by omega)
  obtain ⟨hexp, hfrac⟩ := hfields
  have hbits := bitCount_le hs (show s < 2 ^ 54 by omega)
  have hpos := (bitCount_bounds hs).2.2
  rw [scaleFiniteByPowerOfTwo]
  have hvalue : saturate (((F64.ofNat s).exponent : Int) - 1023) = bitCount s - 1 := by
    rw [hexp, saturate_of_mem (by omega) (by omega)]
    omega
  have hsum : saturate (scale + saturate (((F64.ofNat s).exponent : Int) - 1023)) =
      if s = 2 ^ 53 then top + 1 else top := by
    rw [hvalue, saturate_of_mem (by split at htop <;> omega) (by split at htop <;> omega), ← htop]
    omega
  simp only [hsum]
  split at hu
  · rename_i h53
    rw [if_pos h53] at htop hfrac ⊢
    split
    · -- The next power of two is beyond the greatest finite double.
      rename_i hover
      rw [MAX_NORMAL_EXPONENT] at hover
      obtain rfl : top = 1023 := by omega
      rw [hu]
      rfl
    · rw [if_pos (by rw [MIN_NORMAL_EXPONENT]; omega)]
      congr 1
      omega
  · rename_i hne
    rw [if_neg hne] at htop hfrac ⊢
    rw [if_neg (by rw [MAX_NORMAL_EXPONENT]; omega), if_pos (by rw [MIN_NORMAL_EXPONENT]; omega)]
    congr 1
    omega

/-- A number and what was dropped below it, in other units. -/
theorem div_unit {x : ℚ} {scale : Int} {k : Nat} : x * 2 ^ scale / unit k = x * 2 ^ (scale + 1074 - k) := by
  have hexp : scale + 1074 - (k : Int) = scale - (k - 1074) := by omega
  rw [unit, mul_div_assoc, hexp, ← zpow_sub₀ (by norm_num : (2 : ℚ) ≠ 0)]

theorem pow_mul_unit {n k : Nat} : 2 ^ n * unit k = (2 : ℚ) ^ ((n : Int) + k - 1074) := by
  rw [unit, ← zpow_natCast, ← zpow_add₀ (by norm_num : (2 : ℚ) ≠ 0), add_sub_assoc]

/-- Below the normal doubles the result is rounded to the least positive ones. -/
theorem roundHexSubnormal_eq {p : Nat} {sticky : Bool} {scale : Int} {f : ℚ} (hp : 0 < p)
    (hlt : p < 2 ^ 64) (hf₀ : 0 ≤ f) (hf₁ : f < 1) (hsticky : sticky = true ↔ f ≠ 0)
    (hshort : -1074 ≤ scale → sticky = false ∧ f = 0) (h₁ : -1138 ≤ scale)
    (h₂ : scale + bitCount p ≤ -1022) :
    ∃ u : Nat, roundHexSubnormal p sticky scale = F64.ofBits u ∧
      NearestEven u ((p + f) * 2 ^ scale / unit 0) := by
  have hshift : saturate (-1074 - scale) = -1074 - scale := saturate_of_mem (by omega) (by omega)
  obtain ⟨hlo, hhi, hpos⟩ := bitCount_bounds hp
  refine ⟨_, rfl, ?_⟩
  simp only [hshift]
  rw [div_unit]
  have hright : ∀ n : Nat, (n : Int) = -1074 - scale → 0 < n →
      NearestEven (roundShiftRight p n sticky : Nat) ((p + f) * 2 ^ (scale + 1074 - (0 : Nat))) := by
    intro n hn hpos
    have hexp : scale + 1074 - ((0 : Nat) : Int) = -(n : Int) := by omega
    rw [hexp, zpow_neg, zpow_natCast, ← div_eq_mul_inv]
    exact nearestEven_roundShiftRight hlt hpos hf₀ hf₁ hsticky
  split
  · -- The number is a multiple of the least positive double.
    rename_i hle
    obtain ⟨d, hd⟩ : ∃ d : Nat, (d : Int) = scale + 1074 := ⟨(scale + 1074).toNat, by omega⟩
    have hleft : (max 0 (min (saturate (-(-1074 - scale))) 63)).toNat = d := by
      rw [saturate_of_mem (by omega) (by omega)]
      omega
    have hfits : p * 2 ^ d < 2 ^ 64 := by
      calc p * 2 ^ d < 2 ^ bitCount p * 2 ^ d := Nat.mul_lt_mul_of_pos_right hhi (by positivity)
        _ = 2 ^ (bitCount p + d) := by rw [pow_add]
        _ ≤ 2 ^ 64 := Nat.pow_le_pow_right (by norm_num) (by omega)
    rw [hleft, Nat.mod_eq_of_lt hfits]
    refine NearestEven.of_eq ?_
    rw [(hshort (by omega)).2, add_zero, Nat.cast_zero, sub_zero, ← hd, zpow_natCast]
    push_cast
    rfl
  split
  · rename_i hgt hlt64
    refine hright _ ?_ ?_
    · omega
    · omega
  split
  · rename_i hgt hge h64
    have hsame : (if 2 ^ 63 < p ∨ (p = 2 ^ 63 ∧ sticky = true) then 1 else 0) =
        roundShiftRight p 64 sticky := by
      have hcond : (2 ^ 63 < p ∨ (p = 2 ^ 63 ∧ (sticky = true ∨ 0 % 2 ≠ 0))) ↔
          (2 ^ 63 < p ∨ (p = 2 ^ 63 ∧ sticky = true)) := by simp
      rw [roundShiftRight, if_neg (show ¬64 = 0 by norm_num), Nat.div_eq_of_lt hlt, Nat.mod_eq_of_lt hlt]
      simp only [Nat.zero_add]
      rw [if_congr hcond rfl rfl]
      exact (saturateU_of_lt (n := ite _ 1 0) (by split <;> norm_num)).symm
    rw [hsame]
    exact hright 64 (by omega) (by norm_num)
  · rename_i hgt hge hne
    omega

section Normal

variable {p k : Nat} {sticky : Bool} {scale top : Int} {f : ℚ}

/-- A normal double of a number that is kept whole. -/
theorem normal_of_short (hp : 0 < p) (hbits : bitCount p ≤ 53)
    (htop : top = scale + ((bitCount p - 1 : Nat) : Int)) (hk : (k : Int) = top + 1022)
    (h₁ : -1022 ≤ top) (h₂ : top ≤ 1023) :
    ∃ u : Nat, scaleFiniteByPowerOfTwo ops (F64.ofNat (roundShiftRight p 0 false))
        (saturate (scale + (0 : Nat))) = F64.ofBits (k * 2 ^ 52 + u) ∧
      NearestEven u ((p : ℚ) * 2 ^ (scale + 1074 - k)) := by
  obtain ⟨-, hhi, hpos⟩ := bitCount_bounds hp
  have hlt : p < 2 ^ 53 := lt_of_lt_of_le hhi (Nat.pow_le_pow_right (by norm_num) hbits)
  have hround : roundShiftRight p 0 false = p := if_pos rfl
  have hadjusted : saturate (scale + (0 : Nat)) = scale := by
    rw [Nat.cast_zero, add_zero, saturate_of_mem (by omega) (by omega)]
  have hplace : (top + 1022).toNat = k := by omega
  refine ⟨p * 2 ^ (53 - bitCount p), ?_, NearestEven.of_eq ?_⟩
  · rw [hround, hadjusted, ← hplace]
    refine scaleFiniteByPowerOfTwo_eq hp hlt.le (if_neg hlt.ne).symm ?_ h₁ h₂
    rw [if_neg hlt.ne]
    omega
  · have hexp : scale + 1074 - (k : Int) = ((53 - bitCount p : Nat) : Int) := by omega
    rw [hexp, zpow_natCast]
    push_cast
    rfl

/-- A normal double of a number that is longer than its significand. -/
theorem normal_of_long (hlt : p < 2 ^ 64) (hlong : 53 < bitCount p) (hle : bitCount p ≤ 64)
    (hplo : (2 : ℚ) ^ (bitCount p - 1) ≤ p) (hphi : (p : ℚ) + 1 ≤ 2 ^ bitCount p) (hf₀ : 0 ≤ f)
    (hf₁ : f < 1) (hsticky : sticky = true ↔ f ≠ 0)
    (htop : top = scale + ((bitCount p - 1 : Nat) : Int)) (hk : (k : Int) = top + 1022)
    (h₁ : -1022 ≤ top) (h₂ : top ≤ 1023) :
    ∃ u : Nat, scaleFiniteByPowerOfTwo ops (F64.ofNat (roundShiftRight p (bitCount p - 53) sticky))
        (saturate (scale + (bitCount p - 53 : Nat))) = F64.ofBits (k * 2 ^ 52 + u) ∧
      NearestEven u ((p + f) * 2 ^ (scale + 1074 - k)) := by
  obtain ⟨d, hd⟩ : ∃ d, bitCount p = 53 + d := Nat.exists_eq_add_of_le hlong.le
  have hdpos : 0 < d := by omega
  rw [hd, Nat.add_sub_cancel_left]
  have hnearest := nearestEven_roundShiftRight (s := d) hlt hdpos hf₀ hf₁ hsticky
  generalize roundShiftRight p d sticky = u at hnearest ⊢
  have hD : (0 : ℚ) < 2 ^ d := by positivity
  -- The rounded significand has 53 bits, or it is the next power of two.
  have hulo : 2 ^ 52 ≤ u := by
    have hquot : (2 : ℚ) ^ 52 ≤ (p + f) / 2 ^ d := by
      rw [le_div_iff₀ hD, ← pow_add]
      have : bitCount p - 1 = 52 + d := by omega
      rw [this] at hplo
      linarith
    have hsub := hnearest.sub_le
    have hcast : ((2 ^ 52 - 1 : ℤ) : ℚ) < ((u : ℤ) : ℚ) := by
      push_cast at hsub ⊢
      linarith
    have := Int.cast_lt.1 hcast
    omega
  have huhi : u ≤ 2 ^ 53 := by
    have hquot : (p + f) / 2 ^ d < (2 : ℚ) ^ 53 := by
      rw [div_lt_iff₀ hD, ← pow_add, ← hd]
      linarith
    have hadd := hnearest.le_add
    have hcast : ((u : ℤ) : ℚ) < ((2 ^ 53 + 1 : ℤ) : ℚ) := by
      push_cast at hadd ⊢
      linarith
    have := Int.cast_lt.1 hcast
    omega
  have hupos : 0 < u := by omega
  have hadjusted : saturate (scale + (d : Nat)) = scale + d := saturate_of_mem (by omega) (by omega)
  have hplace : (top + 1022).toNat = k := by omega
  refine ⟨u, ?_, ?_⟩
  · rw [hadjusted, ← hplace]
    by_cases h53 : u = 2 ^ 53
    · have hbits : bitCount u = 54 := by rw [h53]; decide
      refine scaleFiniteByPowerOfTwo_eq hupos huhi ?_ ?_ h₁ h₂
      · rw [if_pos h53, h53]
      · rw [if_pos h53, hbits]
        omega
    · have hbits : bitCount u = 53 :=
        Nat.le_antisymm (bitCount_le hupos (by omega)) (lt_bitCount hupos hulo)
      refine scaleFiniteByPowerOfTwo_eq hupos huhi ?_ ?_ h₁ h₂
      · rw [if_neg h53, hbits, Nat.sub_self, pow_zero, Nat.mul_one]
      · rw [if_neg h53, hbits]
        omega
  · have hexp : scale + 1074 - (k : Int) = -(d : Int) := by omega
    rw [hexp, zpow_neg, zpow_natCast, ← div_eq_mul_inv]
    exact hnearest

end Normal

/-- The result is rounded once. What was dropped counts only where the number is long. -/
theorem finishHex_roundsTo {p : Nat} {sticky : Bool} {scale : Int} {f : ℚ} (hp : 0 < p)
    (hlt : p < 2 ^ 64) (hf₀ : 0 ≤ f) (hf₁ : f < 1) (hsticky : sticky = true ↔ f ≠ 0)
    (hlong : sticky = true → 2 ^ 53 ≤ p) : RoundsTo ((p + f) * 2 ^ scale) (finishHex ops p sticky scale) := by
  obtain ⟨hlo, hhi, hpos⟩ := bitCount_bounds hp
  have hle := bitCount_le hp hlt
  obtain ⟨top, htop⟩ : ∃ top, top = scale + ((bitCount p - 1 : Nat) : Int) := ⟨_, rfl⟩
  -- The number lies between two powers of two.
  have hplo : (2 : ℚ) ^ (bitCount p - 1) ≤ p := by exact_mod_cast hlo
  have hphi : (p : ℚ) + 1 ≤ 2 ^ bitCount p := by exact_mod_cast hhi
  have hscale : (0 : ℚ) < 2 ^ scale := zpow_pos (by norm_num) _
  have hqlo : (2 : ℚ) ^ top ≤ (p + f) * 2 ^ scale := by
    rw [htop, add_comm, zpow_add₀ (by norm_num), zpow_natCast]
    exact mul_le_mul_of_nonneg_right (by linarith) hscale.le
  have hqhi : (p + f) * 2 ^ scale < (2 : ℚ) ^ (top + 1) := by
    have hexp : top + 1 = (bitCount p : Int) + scale := by omega
    rw [hexp, zpow_add₀ (by norm_num), zpow_natCast]
    exact mul_lt_mul_of_pos_right (by linarith) hscale
  have hq : 0 ≤ (p + f) * 2 ^ scale := le_trans (zpow_nonneg (by norm_num) _) hqlo
  -- A short number was kept whole.
  have hshort : bitCount p ≤ 53 → sticky = false ∧ f = 0 := by
    intro hbits
    have hfalse : sticky = false := by
      by_contra hst
      have := lt_bitCount hp (hlong (Bool.not_eq_false _ ▸ hst))
      omega
    refine ⟨hfalse, by_contra fun hne => ?_⟩
    rw [hfalse] at hsticky
    exact Bool.false_ne_true (hsticky.2 hne)
  rw [finishHex]
  simp only [← htop, lt_saturate (c := MAX_NORMAL_EXPONENT) (by decide) (by decide),
    saturate_lt (c := HALF_MIN_SUBNORMAL_EXPONENT) (by decide) (by decide),
    saturate_lt (c := MIN_NORMAL_EXPONENT) (by decide) (by decide)]
  rw [MAX_NORMAL_EXPONENT, HALF_MIN_SUBNORMAL_EXPONENT, MIN_NORMAL_EXPONENT]
  split
  · rename_i hover
    refine F64.roundsTo_infinity (le_trans ?_ hqlo)
    have hpow : (2 : ℚ) ^ (1024 : Int) ≤ 2 ^ top := zpow_le_zpow_right₀ (by norm_num) (by omega)
    exact_mod_cast hpow
  split
  · -- Less than half of the least positive double.
    rename_i hunder
    have hzero : NearestEven (0 : Nat) ((p + f) * 2 ^ scale / unit 0) := by
      refine NearestEven.zero (div_nonneg hq (unit_pos 0).le) ((div_lt_iff₀ (unit_pos 0)).2 ?_)
      have hpow : (2 : ℚ) ^ (top + 1) ≤ 2 ^ (-1075 : Int) := zpow_le_zpow_right₀ (by norm_num) (by omega)
      have hhalf : (1 / 2 : ℚ) * unit 0 = 2 ^ (-1075 : Int) := by
        rw [unit, show (-1075 : Int) = -1 + (((0 : Nat) : Int) - 1074) by norm_num,
          zpow_add₀ (by norm_num : (2 : ℚ) ≠ 0)]
        norm_num
      rw [hhalf]
      exact lt_of_lt_of_le hqhi hpow
    refine roundsTo_ofUnits (Nat.zero_le _) (.inl rfl) (lt_of_lt_of_le hqhi ?_) hzero
    rw [pow_mul_unit]
    exact zpow_le_zpow_right₀ (by norm_num) (by omega)
  split
  · rename_i hlow hsub
    have hbound : (p + f) * 2 ^ scale < 2 ^ 53 * unit 0 := by
      rw [pow_mul_unit]
      exact lt_of_lt_of_le hqhi (zpow_le_zpow_right₀ (by norm_num) (by omega))
    obtain ⟨u, hu, hnearest⟩ := roundHexSubnormal_eq hp hlt hf₀ hf₁ hsticky
      (fun h => hshort (by omega)) (show -1138 ≤ scale by omega)
      (show scale + bitCount p ≤ -1022 by omega)
    have hround := roundsTo_ofUnits (Nat.zero_le 2045) (.inl rfl) hbound hnearest
    rwa [Nat.zero_mul, Nat.zero_add, ← hu] at hround
  · rename_i hover hlow hsub
    obtain ⟨k, hk⟩ : ∃ k : Nat, (k : Int) = top + 1022 := ⟨(top + 1022).toNat, Int.toNat_of_nonneg (by omega)⟩
    obtain ⟨u, hu, hnearest⟩ : ∃ u : Nat, scaleFiniteByPowerOfTwo ops
        (F64.ofNat (roundShiftRight p (bitCount p - F64_PRECISION_BITS) sticky))
        (saturate (scale + (bitCount p - F64_PRECISION_BITS : Nat))) = F64.ofBits (k * 2 ^ 52 + u) ∧
        NearestEven u ((p + f) * 2 ^ (scale + 1074 - k)) := by
      rw [F64_PRECISION_BITS]
      rcases Nat.lt_or_ge 53 (bitCount p) with hlonger | hbits
      · exact normal_of_long hlt hlonger hle hplo hphi hf₀ hf₁ hsticky htop hk (by omega) (by omega)
      · obtain ⟨hfalse, rfl⟩ := hshort hbits
        rw [Nat.sub_eq_zero_of_le hbits, hfalse, add_zero]
        exact normal_of_short hp hbits htop hk (by omega) (by omega)
    rw [hu]
    refine roundsTo_ofUnits (by omega) (.inr ?_) ?_ ?_
    · rw [pow_mul_unit]
      exact le_trans (zpow_le_zpow_right₀ (by norm_num) (by omega)) hqlo
    · rw [pow_mul_unit]
      exact lt_of_lt_of_le hqhi (zpow_le_zpow_right₀ (by norm_num) (by omega))
    · rw [div_unit]
      exact hnearest

/-! ## The rational of a numeral -/

/-- The letter of an exponent. -/
def isExponentMarker (byte : UInt8) : Bool := byte == ascii 'p' || byte == ascii 'P'

/-- The digits of a mantissa, without its point. -/
def mantissaDigits (mantissa : List UInt8) : List UInt8 := mantissa.filter (· != ascii '.')

/-- The digits of a mantissa after its point. -/
def fractionDigits (mantissa : List UInt8) : List UInt8 :=
  mantissaDigits (mantissa.dropWhile (· != ascii '.'))

/-- The integer of an exponent; where there are no digits it is zero. -/
def exponentValue (bytes : List UInt8) : Int :=
  if (splitSign bytes).1 then -(Digits.value 10 (splitSign bytes).2 : Int)
  else Digits.value 10 (splitSign bytes).2

/-- The rational of a hexadecimal numeral after its `0x`. -/
def hexRational (bytes : List UInt8) : ℚ :=
  let mantissa := bytes.takeWhile (!isExponentMarker ·)
  let exponent := (bytes.dropWhile (!isExponentMarker ·)).drop 1
  (Digits.value 16 (mantissaDigits mantissa) : ℚ) / 16 ^ (fractionDigits mantissa).length *
    2 ^ exponentValue exponent

/-! ## Reading digits -/

/-- The value of a hexadecimal digit. -/
theorem hexValue_eq {c : UInt8} (h : isAsciiHexdigit c = true) :
    hexValue c = some (UInt8.ofNat (Digits.digit c)) ∧ Digits.digit c < 16 := by
  have hall : ((List.range 256).all fun n => !isAsciiHexdigit (.ofNat n) ||
      (hexValue (.ofNat n) == some (UInt8.ofNat (Digits.digit (.ofNat n))) &&
        decide (Digits.digit (.ofNat n) < 16))) = true := by decide +kernel
  have hc := List.all_eq_true.1 hall c.toNat (List.mem_range.2 c.toNat_lt)
  rw [UInt8.ofNat_toNat, h, Bool.not_true, Bool.false_or, Bool.and_eq_true, beq_iff_eq,
    decide_eq_true_eq] at hc
  exact hc

namespace HexState

/-- What has been read of a mantissa, so many digits that stand for `N`, so many of them after the
    point: the prefix, the number of its digits and of the digits dropped after it, and the number
    those stand for. -/
structure Reads (s : HexState) (digits N fractional kept dropped rest : Nat) : Prop where
  significantDigits : s.significantDigits = kept
  fractionalDigits : s.fractionalDigits = fractional
  droppedDigits : s.droppedDigits = dropped
  droppedNonzero : s.droppedNonzero = true ↔ rest ≠ 0
  value : N = s.prefixBits * 16 ^ dropped + rest
  rest_lt : rest < 16 ^ dropped
  prefix_lt : s.prefixBits < 16 ^ kept
  prefix_ge : kept ≠ 0 → 16 ^ (kept - 1) ≤ s.prefixBits
  kept_le : kept ≤ 16
  full : dropped ≠ 0 → kept = 16
  count : kept + dropped ≤ digits
  fractional_le : fractional ≤ digits

variable {s : HexState} {digits N fractional kept dropped rest : Nat}

theorem reads_start : Reads start 0 0 0 0 0 0 :=
  ⟨rfl, rfl, rfl, by decide, rfl, by decide, by decide, fun h => absurd rfl h, by decide,
    fun h => absurd rfl h, le_rfl, le_rfl⟩

/-- A digit after the point is counted. -/
theorem Reads.countFraction (h : s.Reads digits N fractional kept dropped rest)
    (hd : digits + 1 < 2 ^ 63) :
    ∃ s₁ : HexState,
      (if s.fractional then { s with fractionalDigits := saturate (s.fractionalDigits + 1) } else s) = s₁ ∧
        s₁.Reads (digits + 1) N (if s.fractional then fractional + 1 else fractional) kept dropped rest ∧
        s₁.fractional = s.fractional := by
  have hle := h.fractional_le
  have hcount := h.count
  refine ⟨_, rfl, ?_⟩
  cases hp : s.fractional with
  | true =>
    have hfrac : saturate (s.fractionalDigits + 1) = ((fractional + 1 : Nat) : Int) := by
      rw [h.fractionalDigits, saturate_of_mem (by omega) (by omega)]
      rfl
    exact ⟨⟨h.1, hfrac, h.3, h.4, h.5, h.6, h.7, h.8, h.9, h.10, by omega,
      Nat.succ_le_succ hle⟩, rfl⟩
  | false => exact ⟨⟨h.1, h.2, h.3, h.4, h.5, h.6, h.7, h.8, h.9, h.10, by omega, by
      simp only [Bool.false_eq_true, if_false]; omega⟩, hp⟩

/-- Reading a digit. -/
theorem Reads.step (h : s.Reads digits N fractional kept dropped rest) (hd : digits + 1 < 2 ^ 63)
    {c : UInt8} (hc : isAsciiHexdigit c = true) :
    ∃ s' kept' dropped' rest', s.step c = some s' ∧
      s'.Reads (digits + 1) (N * 16 + Digits.digit c)
        (if s.fractional then fractional + 1 else fractional) kept' dropped' rest' ∧
      s'.fractional = s.fractional := by
  obtain ⟨hvalue, hlt⟩ := hexValue_eq hc
  generalize Digits.digit c = d at hvalue hlt
  have hdigit : (UInt8.ofNat d).toNat = d := by
    rw [UInt8.toNat_ofNat']
    omega
  have hzero : UInt8.ofNat d = 0 ↔ d = 0 := by
    rw [← UInt8.toNat_inj, hdigit]
    rfl
  have hstep : s.step c = some (s.readDigit (UInt8.ofNat d)) := by
    rw [HexState.step, if_neg (by simpa using (ne_of_isAsciiHexdigit hc).1), hvalue]
    rfl
  obtain ⟨s₁, hs₁, h₁, hpoint⟩ := h.countFraction hd
  have hN := h₁.value
  have hcount := h.count
  have hprefix := h₁.prefix_lt
  rw [hstep, readDigit, hs₁]
  by_cases hskip : s₁.significantDigits = 0 ∧ UInt8.ofNat d = 0
  · -- A zero before the first significant digit.
    have hkept : kept = 0 := by
      have := h₁.significantDigits
      omega
    have hdropped : dropped = 0 := by
      by_contra hne
      have := h₁.full hne
      omega
    subst hkept hdropped
    obtain rfl : d = 0 := hzero.1 hskip.2
    have hrest : rest = 0 := Nat.lt_one_iff.1 h₁.rest_lt
    have hbits : s₁.prefixBits = 0 := Nat.lt_one_iff.1 hprefix
    have hN0 : N * 16 + 0 = N := by rw [hN, hbits, hrest]; rfl
    rw [if_pos hskip]
    exact ⟨s₁, 0, 0, rest, rfl, hN0.symm ▸ h₁, hpoint⟩
  rw [if_neg hskip]
  by_cases hfits : s₁.significantDigits < MAX_SIGNIFICANT_HEX_DIGITS
  · have hkept : kept < 16 := by
      rw [h₁.significantDigits, MAX_SIGNIFICANT_HEX_DIGITS] at hfits
      omega
    have hdropped : dropped = 0 := by
      by_contra hne
      have := h₁.full hne
      omega
    subst hdropped
    have hrest : rest = 0 := Nat.lt_one_iff.1 h₁.rest_lt
    subst hrest
    have hpow : (16 : Nat) ^ (kept + 1) ≤ 16 ^ 16 := Nat.pow_le_pow_right (by norm_num) hkept
    have hnext : s₁.prefixBits * 16 + d < 16 ^ (kept + 1) := by
      rw [pow_succ]
      omega
    have hpre : saturateU (saturateU (s₁.prefixBits * 16) + (UInt8.ofNat d).toNat) =
        s₁.prefixBits * 16 + d := by
      have hshift : saturateU (s₁.prefixBits * 16) = s₁.prefixBits * 16 := saturateU_of_lt (by omega)
      rw [hshift, hdigit]
      exact saturateU_of_lt (by omega)
    have hkept' : saturate (s₁.significantDigits + 1) = ((kept + 1 : Nat) : Int) := by
      rw [h₁.significantDigits, saturate_of_mem (by omega) (by omega)]
      rfl
    rw [if_pos hfits]
    refine ⟨_, kept + 1, 0, 0, rfl, ⟨hkept', h₁.2, h₁.3, h₁.4, ?_, h₁.6, ?_, fun _ => ?_, hkept,
      fun hne => absurd rfl hne, by omega, h₁.fractional_le⟩, hpoint⟩
    · simp only [hpre, hN, pow_zero, Nat.mul_one, Nat.add_zero]
    · simp only [hpre]
      exact hnext
    · -- The first digit that counts is not zero.
      simp only [hpre, Nat.add_sub_cancel]
      rcases Nat.eq_zero_or_pos kept with rfl | hpos
      · have hne : d ≠ 0 := fun h0 => hskip ⟨h₁.significantDigits, hzero.2 h0⟩
        omega
      · have hge := h₁.prefix_ge (Nat.ne_of_gt hpos)
        calc 16 ^ kept = 16 ^ (kept - 1) * 16 := by rw [← pow_succ, Nat.sub_add_cancel hpos]
          _ ≤ s₁.prefixBits * 16 := Nat.mul_le_mul_right _ hge
          _ ≤ s₁.prefixBits * 16 + d := Nat.le_add_right _ _
  · have hkept : kept = 16 := by
      rw [h₁.significantDigits, MAX_SIGNIFICANT_HEX_DIGITS] at hfits
      have := h₁.kept_le
      omega
    have hdropped' : saturate (s₁.droppedDigits + 1) = ((dropped + 1 : Nat) : Int) := by
      rw [h₁.droppedDigits, saturate_of_mem (by omega) (by omega)]
      rfl
    rw [if_neg hfits]
    refine ⟨_, kept, dropped + 1, rest * 16 + d, rfl, ⟨h₁.1, h₁.2, hdropped', ?_, ?_, ?_, h₁.7, h₁.8, h₁.9,
      fun _ => hkept, by omega, h₁.fractional_le⟩, hpoint⟩
    · have hrest := h₁.droppedNonzero
      simp only [Bool.or_eq_true, bne_iff_ne, ne_eq, hzero, hrest]
      omega
    · simp only [hN, pow_succ]
      ring
    · have hrest := h₁.rest_lt
      rw [pow_succ]
      omega

/-- Reading a mantissa. -/
theorem Reads.foldlM (h : s.Reads digits N fractional kept dropped rest) {bytes : List UInt8}
    (hbytes : ∀ c ∈ bytes, c = ascii '.' ∨ isAsciiHexdigit c = true)
    (hd : digits + bytes.length < 2 ^ 63) :
    ∃ s' kept' dropped' rest', bytes.foldlM HexState.step s = some s' ∧
      s'.Reads (digits + (mantissaDigits bytes).length)
        (N * 16 ^ (mantissaDigits bytes).length + Digits.value 16 (mantissaDigits bytes))
        (fractional + (if s.fractional then mantissaDigits bytes else fractionDigits bytes).length)
        kept' dropped' rest' := by
  induction bytes generalizing s digits N fractional kept dropped rest with
  | nil =>
    refine ⟨s, kept, dropped, rest, rfl, ?_⟩
    have hnil : (if s.fractional = true then mantissaDigits [] else fractionDigits []) = [] := by
      split <;> rfl
    rw [hnil]
    simpa [mantissaDigits] using h
  | cons c bytes ih =>
    have hrest := fun c hm => hbytes c (List.mem_cons_of_mem _ hm)
    rw [List.length_cons] at hd
    by_cases hc : c = ascii '.'
    · subst hc
      have hpoint : s.step (ascii '.') = some { s with fractional := true } := rfl
      have h₁ : HexState.Reads { s with fractional := true } digits N fractional kept dropped rest :=
        ⟨h.1, h.2, h.3, h.4, h.5, h.6, h.7, h.8, h.9, h.10, h.11, h.12⟩
      obtain ⟨s', kept', dropped', rest', hfold, h'⟩ := ih h₁ hrest (by omega)
      refine ⟨s', kept', dropped', rest', ?_, ?_⟩
      · rw [List.foldlM_cons, hpoint]
        exact hfold
      · have hdigits : mantissaDigits (ascii '.' :: bytes) = mantissaDigits bytes := rfl
        have hfraction : fractionDigits (ascii '.' :: bytes) = mantissaDigits bytes := rfl
        rw [hdigits, hfraction, ite_self]
        exact h'
    · have hhex := (hbytes c List.mem_cons_self).resolve_left hc
      obtain ⟨s₁, kept₁, dropped₁, rest₁, hstep, h₁, hpoint⟩ := h.step (by omega) hhex
      obtain ⟨s', kept', dropped', rest', hfold, h'⟩ := ih h₁ hrest (by omega)
      refine ⟨s', kept', dropped', rest', ?_, ?_⟩
      · rw [List.foldlM_cons, hstep]
        exact hfold
      · have hne : (c != ascii '.') = true := bne_iff_ne.2 hc
        have hdigits : mantissaDigits (c :: bytes) = c :: mantissaDigits bytes :=
          List.filter_cons_of_pos hne
        have hfraction : fractionDigits (c :: bytes) = fractionDigits bytes := by
          rw [fractionDigits, List.dropWhile_cons, if_pos hne]
          rfl
        rw [hpoint] at h'
        rw [hdigits, hfraction, List.length_cons, Digits.value_cons]
        have hvalue : N * 16 ^ ((mantissaDigits bytes).length + 1) +
            (Digits.digit c * 16 ^ (mantissaDigits bytes).length + Digits.value 16 (mantissaDigits bytes)) =
              (N * 16 + Digits.digit c) * 16 ^ (mantissaDigits bytes).length +
                Digits.value 16 (mantissaDigits bytes) := by
          rw [pow_succ]
          ring
        rw [hvalue, Nat.add_comm (mantissaDigits bytes).length 1, ← Nat.add_assoc]
        cases hp : s.fractional with
        | true =>
          simp only [hp, if_true, List.length_cons] at h' ⊢
          rwa [Nat.add_comm (mantissaDigits bytes).length 1, ← Nat.add_assoc]
        | false =>
          simp only [hp, Bool.false_eq_true, if_false] at h' ⊢
          exact h'

end HexState

/-! ## Exponents -/

/-- The magnitude of an exponent is cut off at the limit, however long it is. -/
theorem foldl_magnitude_min {ds : List UInt8} {limit : Int} {n : Nat}
    (hds : ∀ c ∈ ds, isAsciiDigit c = true) (h₀ : 0 ≤ limit) (hlimit : limit ≤ 2 ^ 63 - 1) :
    ds.foldl (fun magnitude byte =>
      min (saturate (saturate (magnitude * 10) + (byte - ascii '0').toNat)) limit) (min (n : Int) limit) =
        min ((n * 10 ^ ds.length + Digits.value 10 ds : Nat) : Int) limit := by
  induction ds generalizing n with
  | nil => simp
  | cons c ds ih =>
    have hvalue : n * 10 ^ (c :: ds).length + Digits.value 10 (c :: ds) =
        (n * 10 + Digits.digit c) * 10 ^ ds.length + Digits.value 10 ds := by
      rw [Digits.value_cons, List.length_cons, pow_succ]
      ring
    have hstep : min (saturate (saturate (min (n : Int) limit * 10) + (c - ascii '0').toNat)) limit =
        min ((n * 10 + Digits.digit c : Nat) : Int) limit := by
      rw [toNat_sub_of_isAsciiDigit (hds c List.mem_cons_self), saturate, saturate]
      push_cast
      omega
    rw [hvalue, List.foldl_cons, hstep]
    exact ih fun c hm => hds c (List.mem_cons_of_mem _ hm)

/-- An exponent is read as the nearest integer within the limit. -/
theorem parseSignedI64Saturating_eq {bytes : List UInt8} {limit e : Int} (h₀ : 0 ≤ limit)
    (hlimit : limit ≤ 2 ^ 63 - 1) (h : parseSignedI64Saturating bytes limit = some e) :
    e = max (-limit) (min (exponentValue bytes) limit) := by
  rw [parseSignedI64Saturating] at h
  cases hvalid : validateSignedDigits bytes with
  | none =>
    rw [hvalid] at h
    cases h
  | some u =>
    have hds : ∀ c ∈ (splitSign bytes).2, isAsciiDigit c = true := by
      rw [validateSignedDigits] at hvalid
      split at hvalid
      · rename_i hcond
        rw [Bool.and_eq_true] at hcond
        exact List.all_eq_true.1 hcond.2
      · cases hvalid
    have hfold := @foldl_magnitude_min (splitSign bytes).2 limit 0 hds h₀ hlimit
    rw [Nat.zero_mul, Nat.zero_add, Nat.cast_zero, min_eq_left h₀] at hfold
    rw [hvalid] at h
    simp only [Option.bind_eq_bind, Option.bind_some, hfold] at h
    rw [exponentValue, ← Option.some.inj h]
    have hpos : (0 : Int) ≤ Digits.value 10 (splitSign bytes).2 := Int.natCast_nonneg _
    split <;> omega

/-! ## The double of a numeral -/

/-- Far from the finite doubles the exponent does not matter. -/
theorem finishHex_far {p : Nat} {sticky : Bool} {a b : Int}
    (h : (1023 < a + ((bitCount p - 1 : Nat) : Int) ∧ 1023 < b + ((bitCount p - 1 : Nat) : Int)) ∨
      (a + ((bitCount p - 1 : Nat) : Int) < -1075 ∧ b + ((bitCount p - 1 : Nat) : Int) < -1075)) :
    finishHex ops p sticky a = finishHex ops p sticky b := by
  have hover : ∀ {x : Int}, 1023 < x + ((bitCount p - 1 : Nat) : Int) →
      finishHex ops p sticky x = infinity := fun hx => by
    rw [finishHex]
    exact if_pos ((lt_saturate (by decide) (by decide)).2 hx)
  have hunder : ∀ {x : Int}, x + ((bitCount p - 1 : Nat) : Int) < -1075 →
      finishHex ops p sticky x = F64.ofBits 0 := fun hx => by
    rw [finishHex]
    simp only [lt_saturate (c := MAX_NORMAL_EXPONENT) (by decide) (by decide),
      saturate_lt (c := HALF_MIN_SUBNORMAL_EXPONENT) (by decide) (by decide)]
    rw [if_neg (by rw [MAX_NORMAL_EXPONENT]; omega), if_pos (by rw [HALF_MIN_SUBNORMAL_EXPONENT]; omega)]
  rcases h with ⟨ha, hb⟩ | ⟨ha, hb⟩
  · rw [hover ha, hover hb]
  · rw [hunder ha, hunder hb]

theorem roundsTo_zero : RoundsTo 0 (F64.ofBits 0) := by
  refine roundsTo_ofUnits (k := 0) (u := 0) (Nat.zero_le _) (.inl rfl) ?_ (NearestEven.of_eq ?_)
  · have := unit_pos 0
    positivity
  · rw [zero_div]
    rfl

namespace HexState

variable {s : HexState} {digits N fractional kept dropped rest len : Nat}

/-- The number that was read, from its prefix. -/
theorem Reads.rational (h : s.Reads digits N fractional kept dropped rest) (e : Int) :
    (N : ℚ) / 16 ^ fractional * 2 ^ e =
      (s.prefixBits + (rest : ℚ) / 16 ^ dropped) * 2 ^ (e + 4 * ((dropped : Int) - fractional)) := by
  have hpow : ∀ n : Nat, (16 : ℚ) ^ n = 2 ^ (4 * (n : Int)) := fun n => by
    rw [zpow_mul, zpow_natCast]
    norm_num
  have hsplit : (2 : ℚ) ^ (e + 4 * ((dropped : Int) - fractional)) =
      2 ^ e * (2 ^ (4 * (dropped : Int)) / 2 ^ (4 * (fractional : Int))) := by
    rw [mul_sub, zpow_add₀ (by norm_num), zpow_sub₀ (by norm_num)]
  have hne : ∀ n : Int, (2 : ℚ) ^ n ≠ 0 := fun n => zpow_ne_zero _ (by norm_num)
  have hN : (N : ℚ) = s.prefixBits * 16 ^ dropped + rest := by exact_mod_cast h.value
  rw [hN, hsplit, hpow, hpow]
  have h₁ := hne (4 * (dropped : Int))
  have h₂ := hne (4 * (fractional : Int))
  field_simp

/-- What was read is rounded, with an exponent or with the nearest one within the limit. -/
theorem Reads.finish_roundsTo (h : s.Reads digits N fractional kept dropped rest) (hlen : digits ≤ len)
    (hmax : 4 * len + 2048 < 2 ^ 63) (e : Int) :
    RoundsTo ((N : ℚ) / 16 ^ fractional * 2 ^ e)
      (s.finish ops (max (-(4 * len + 2048)) (min e (4 * len + 2048)))) := by
  have hcount := h.count
  have hfractional := h.fractional_le
  rw [finish, h.significantDigits]
  by_cases hzero : kept = 0
  · have hdropped : dropped = 0 := by
      by_contra hne
      have := h.full hne
      omega
    subst hzero hdropped
    have hbits : s.prefixBits = 0 := Nat.lt_one_iff.1 h.prefix_lt
    have hrest : rest = 0 := Nat.lt_one_iff.1 h.rest_lt
    have hN : N = 0 := by rw [h.value, hbits, hrest]; rfl
    rw [if_pos (by rfl), hN, Nat.cast_zero, zero_div, zero_mul]
    exact roundsTo_zero
  have hge := h.prefix_ge hzero
  have hp : 0 < s.prefixBits := lt_of_lt_of_le (by positivity) hge
  have hlt : s.prefixBits < 2 ^ 64 := by
    calc s.prefixBits < 16 ^ kept := h.prefix_lt
      _ ≤ 16 ^ 16 := Nat.pow_le_pow_right (by norm_num) h.kept_le
      _ = 2 ^ 64 := by norm_num
  have hbits : bitCount s.prefixBits ≤ 4 * kept := by
    refine bitCount_le hp ?_
    rw [pow_mul]
    exact h.prefix_lt
  have hpos := (bitCount_bounds hp).2.2
  have hadjust : saturate (saturate (s.droppedDigits - s.fractionalDigits) * 4) =
      4 * ((dropped : Int) - fractional) := by
    have hsub : saturate (s.droppedDigits - s.fractionalDigits) = (dropped : Int) - fractional := by
      rw [h.droppedDigits, h.fractionalDigits, saturate_of_mem (by omega) (by omega)]
    rw [hsub, saturate_of_mem (by omega) (by omega)]
    omega
  rw [if_neg (by simpa using hzero)]
  simp only [hadjust]
  have hfinish : finishHex ops s.prefixBits s.droppedNonzero
      (saturate (max (-(4 * (len : Int) + 2048)) (min e (4 * len + 2048)) +
        4 * ((dropped : Int) - fractional))) =
      finishHex ops s.prefixBits s.droppedNonzero (e + 4 * ((dropped : Int) - fractional)) := by
    by_cases hsame : saturate (max (-(4 * (len : Int) + 2048)) (min e (4 * len + 2048)) +
        4 * ((dropped : Int) - fractional)) = e + 4 * ((dropped : Int) - fractional)
    · rw [hsame]
    · -- Both exponents are beyond what the mantissa can bring back.
      have hkept := h.kept_le
      refine finishHex_far ?_
      rw [saturate] at hsame ⊢
      omega
  rw [hfinish, h.rational e]
  have h16 : (0 : ℚ) < 16 ^ dropped := by positivity
  refine finishHex_roundsTo hp hlt (by positivity) ?_ ?_ fun hsticky => ?_
  · rw [div_lt_one h16]
    exact_mod_cast h.rest_lt
  · rw [h.droppedNonzero, ne_eq, ne_eq, div_eq_zero_iff, not_or]
    exact ⟨fun hne => ⟨by exact_mod_cast hne, h16.ne'⟩, fun hne => by exact_mod_cast hne.1⟩
  · -- Digits are dropped after the sixteenth alone.
    have hrest := h.droppedNonzero.1 hsticky
    have hdropped : dropped ≠ 0 := by
      rintro rfl
      exact hrest (Nat.lt_one_iff.1 h.rest_lt)
    rw [h.full hdropped] at hge
    exact le_trans (by norm_num) hge

end HexState

theorem findIdx?_marker (bytes : List UInt8) :
    (bytes.findIdx? fun byte => byte == ascii 'p' || byte == ascii 'P') =
      if bytes.dropWhile (!isExponentMarker ·) = [] then none
      else some (bytes.takeWhile (!isExponentMarker ·)).length := by
  induction bytes with
  | nil => rfl
  | cons c bytes ih =>
    rw [List.findIdx?_cons, List.dropWhile_cons, List.takeWhile_cons, ih]
    by_cases hc : isExponentMarker c = true
    · rw [hc]
      simp only [Bool.not_true, Bool.false_eq_true, if_false]
      rw [if_pos (show (c == ascii 'p' || c == ascii 'P') = true from hc), if_neg (List.cons_ne_nil _ _)]
      rfl
    · rw [Bool.not_eq_true] at hc
      rw [hc]
      simp only [Bool.not_false, if_true]
      rw [if_neg (by rw [show (c == ascii 'p' || c == ascii 'P') = false from hc]; exact Bool.false_ne_true)]
      split <;> rfl

/-- The parts of a numeral. -/
theorem splitExponent_eq {bytes mantissa : List UInt8} {exponent : Option (List UInt8)}
    (h : splitExponent bytes (ascii 'p') (ascii 'P') = some (mantissa, exponent)) :
    mantissa = bytes.takeWhile (!isExponentMarker ·) ∧
      exponent.getD [] = (bytes.dropWhile (!isExponentMarker ·)).drop 1 := by
  have hsplit := List.takeWhile_append_dropWhile (p := (!isExponentMarker ·)) (l := bytes)
  rw [splitExponent] at h
  simp only [findIdx?_marker] at h
  by_cases hnil : bytes.dropWhile (!isExponentMarker ·) = []
  · rw [if_pos hnil] at h
    obtain ⟨rfl, rfl⟩ := Prod.mk.inj (Option.some.inj h)
    rw [hnil, List.append_nil] at hsplit
    rw [hnil]
    exact ⟨hsplit.symm, rfl⟩
  · rw [if_neg hnil] at h
    simp only at h
    split at h
    · cases h
    · obtain ⟨hm, he⟩ := Prod.mk.inj (Option.some.inj h)
      generalize bytes.takeWhile (!isExponentMarker ·) = front at hsplit hm he ⊢
      generalize bytes.dropWhile (!isExponentMarker ·) = back at hsplit ⊢
      rw [← hsplit] at hm he
      rw [List.take_left] at hm
      rw [← List.drop_drop, List.drop_left] at he
      rw [← hm, ← he]
      exact ⟨rfl, rfl⟩

/-- The bytes of a mantissa that was validated. -/
theorem bytes_of_validateMantissa {bytes : List UInt8} {valid : UInt8 → Bool} {dots digits n : Nat}
    (h : validateMantissaLoop valid bytes dots digits = some n) :
    ∀ c ∈ bytes, c = ascii '.' ∨ valid c = true := by
  induction bytes generalizing dots digits with
  | nil => exact fun c hc => nomatch hc
  | cons c bytes ih =>
    rw [validateMantissaLoop] at h
    intro b hb
    by_cases hdot : (c == ascii '.') = true
    · rw [if_pos hdot] at h
      split at h
      · cases h
      · rcases List.mem_cons.1 hb with rfl | hb
        · exact .inl (eq_of_beq hdot)
        · exact ih h b hb
    · rw [if_neg hdot] at h
      split at h
      · rename_i hvalid
        rcases List.mem_cons.1 hb with rfl | hb
        · exact .inr hvalid
        · exact ih h b hb
      · cases h

/-- The double of a numeral is that of what was read, with its exponent or the nearest one within the
    limit. -/
theorem parseHex_eq {bytes : List UInt8} {x : F64} (hlen : bytes.length < 2 ^ 63)
    (h : parseHex ops bytes = some x) :
    ∃ (len : Nat) (limit : Int) (s : HexState) (digits N fractional kept dropped rest : Nat) (e : Int),
      len ≤ bytes.length ∧ limit = saturate (saturate (len * 4) + 2048) ∧ digits ≤ len ∧
        s.Reads digits N fractional kept dropped rest ∧
        hexRational bytes = (N : ℚ) / 16 ^ fractional * 2 ^ e ∧
        x = s.finish ops (max (-limit) (min e limit)) := by
  rw [parseHex] at h
  simp only [Option.bind_eq_bind] at h
  obtain ⟨⟨mantissa, exponent⟩, hsplit, h⟩ := Option.bind_eq_some_iff.1 h
  obtain ⟨n, hvalid, h⟩ := Option.bind_eq_some_iff.1 h
  obtain ⟨hmantissa, hexponent⟩ := splitExponent_eq hsplit
  split at h
  · cases h
  have hlimit : 0 ≤ saturate (saturate ((mantissa.length : Int) * 4) + 2048) ∧
      saturate (saturate ((mantissa.length : Int) * 4) + 2048) ≤ 2 ^ 63 - 1 := by
    rw [saturate, saturate]
    omega
  generalize hl : saturate (saturate ((mantissa.length : Int) * 4) + 2048) = limit at h hlimit
  obtain ⟨e', he', h⟩ : ∃ e', e' = max (-limit) (min (exponentValue (exponent.getD [])) limit) ∧
      (mantissa.foldlM HexState.step HexState.start).bind (fun s => some (s.finish ops e')) = some x := by
    cases exponent with
    | none =>
      have hnone : exponentValue [] = 0 := rfl
      refine ⟨0, ?_, h⟩
      rw [Option.getD_none, hnone]
      omega
    | some text =>
      obtain ⟨e', he', h⟩ := Option.bind_eq_some_iff.1 h
      exact ⟨e', parseSignedI64Saturating_eq hlimit.1 hlimit.2 he', h⟩
  obtain ⟨s, hs, hx⟩ := Option.bind_eq_some_iff.1 h
  have hle : mantissa.length ≤ bytes.length := by
    rw [hmantissa]
    exact (List.takeWhile_prefix _).length_le
  obtain ⟨s', kept, dropped, rest, hfold, hreads⟩ := HexState.reads_start.foldlM
    (bytes_of_validateMantissa hvalid) (by omega : 0 + mantissa.length < 2 ^ 63)
  obtain rfl : s' = s := Option.some.inj (hfold.symm.trans hs)
  simp only [HexState.start, Bool.false_eq_true, if_false, Nat.zero_mul, Nat.zero_add] at hreads
  refine ⟨mantissa.length, limit, s', _, _, _, kept, dropped, rest, exponentValue (exponent.getD []), hle,
    hl.symm, List.length_filter_le _ _, hreads, ?_, ?_⟩
  · rw [hexRational, ← hmantissa, ← hexponent]
  · rw [← Option.some.inj hx, he']

/-- The double of a hexadecimal numeral is its rational rounded to nearest, ties to even, while the
    limit on its exponent does not overflow. -/
theorem parseHex_roundsTo (ops : FloatOps) {bytes : List UInt8} {x : F64}
    (hlen : 4 * bytes.length + 2048 < 2 ^ 63) (h : parseHex ops bytes = some x) :
    RoundsTo (hexRational bytes) x := by
  obtain ⟨len, limit, s, digits, N, fractional, kept, dropped, rest, e, hle, hlimit, hdigits, hreads,
    hrational, rfl⟩ := parseHex_eq (by omega) h
  have hexact : limit = 4 * len + 2048 := by
    rw [hlimit, saturate, saturate]
    omega
  rw [hrational, hexact]
  exact hreads.finish_roundsTo hdigits (by omega) e

/-- A numeral halfway between two doubles. -/
theorem parseHex_roundsTo_halfway :
    ∃ x, parseHex ⟨fun _ => none, fun x _ => x⟩ ("1.00000000000008p-1".toList.map ascii) = some x ∧
      RoundsTo (hexRational ("1.00000000000008p-1".toList.map ascii)) x := by
  have hsome : (parseHex ⟨fun _ => none, fun x _ => x⟩ ("1.00000000000008p-1".toList.map ascii)).isSome =
      true := by decide +kernel
  obtain ⟨x, hx⟩ := Option.isSome_iff_exists.1 hsome
  exact ⟨x, hx, parseHex_roundsTo _ (by decide) hx⟩

/-! ## The sign of a result -/

namespace HexState

/-- What is kept fits in as many digits as were kept, and something is dropped only after the
    last that is kept. -/
structure Kept (s : HexState) (kept : Nat) : Prop where
  significantDigits : s.significantDigits = kept
  kept_le : kept ≤ 16
  prefix_lt : s.prefixBits < 16 ^ kept
  prefix_ge : kept ≠ 0 → 16 ^ (kept - 1) ≤ s.prefixBits
  full : s.droppedNonzero = true → kept = 16

variable {s : HexState} {kept : Nat}

/-- Reading a digit, wherever the point is. -/
theorem Kept.readDigit (h : s.Kept kept) {digit : UInt8} (hdigit : digit.toNat < 16) :
    ∃ kept', (s.readDigit digit).Kept kept' := by
  obtain ⟨s₁, hs₁, h₁⟩ : ∃ s₁ : HexState,
      (if s.fractional then { s with fractionalDigits := saturate (s.fractionalDigits + 1) } else s) = s₁ ∧
        s₁.Kept kept := by
    refine ⟨_, rfl, ?_⟩
    split
    · exact ⟨h.1, h.2, h.3, h.4, h.5⟩
    · exact h
  rw [HexState.readDigit, hs₁]
  split
  · exact ⟨kept, h₁⟩
  rename_i hskip
  split
  · rename_i hfits
    have hlt : kept < 16 := by
      rw [h₁.significantDigits, MAX_SIGNIFICANT_HEX_DIGITS] at hfits
      omega
    have hprefix := h₁.prefix_lt
    have hpow : (16 : Nat) ^ (kept + 1) ≤ 16 ^ 16 := Nat.pow_le_pow_right (by norm_num) hlt
    have hnext : s₁.prefixBits * 16 + digit.toNat < 16 ^ (kept + 1) := by
      rw [pow_succ]
      omega
    have hbits : saturateU (saturateU (s₁.prefixBits * 16) + digit.toNat) =
        s₁.prefixBits * 16 + digit.toNat := by
      have hshift : saturateU (s₁.prefixBits * 16) = s₁.prefixBits * 16 := saturateU_of_lt (by omega)
      rw [hshift]
      exact saturateU_of_lt (by omega)
    have hcount : saturate (s₁.significantDigits + 1) = ((kept + 1 : Nat) : Int) := by
      rw [h₁.significantDigits, saturate_of_mem (by omega) (by omega)]
      rfl
    refine ⟨kept + 1, hcount, hlt, ?_, fun _ => ?_, fun hdropped => ?_⟩
    · simp only [hbits]
      exact hnext
    · simp only [hbits, Nat.add_sub_cancel]
      rcases Nat.eq_zero_or_pos kept with rfl | hpos
      · -- The first digit that counts is not zero.
        have hne : digit.toNat ≠ 0 := fun h0 =>
          hskip ⟨h₁.significantDigits, UInt8.toNat_inj.1 h0⟩
        omega
      · have hge := h₁.prefix_ge (Nat.ne_of_gt hpos)
        calc 16 ^ kept = 16 ^ (kept - 1) * 16 := by rw [← pow_succ, Nat.sub_add_cancel hpos]
          _ ≤ s₁.prefixBits * 16 := Nat.mul_le_mul_right _ hge
          _ ≤ s₁.prefixBits * 16 + digit.toNat := Nat.le_add_right _ _
    · have := h₁.full hdropped
      omega
  · rename_i hfits
    have hfull : kept = 16 := by
      rw [h₁.significantDigits, MAX_SIGNIFICANT_HEX_DIGITS] at hfits
      have := h₁.kept_le
      omega
    exact ⟨kept, h₁.1, h₁.2, h₁.3, h₁.4, fun _ => hfull⟩

/-- Reading a mantissa of whatever length. -/
theorem Kept.foldlM (h : s.Kept kept) {bytes : List UInt8} {s' : HexState}
    (hbytes : ∀ c ∈ bytes, c = ascii '.' ∨ isAsciiHexdigit c = true)
    (hfold : bytes.foldlM HexState.step s = some s') : ∃ kept', s'.Kept kept' := by
  induction bytes generalizing s kept with
  | nil =>
    obtain rfl : s = s' := Option.some.inj hfold
    exact ⟨kept, h⟩
  | cons c bytes ih =>
    rw [List.foldlM_cons] at hfold
    obtain ⟨s₁, hstep, hfold⟩ := Option.bind_eq_some_iff.1 hfold
    have hrest := fun b hb => hbytes b (List.mem_cons_of_mem _ hb)
    rw [HexState.step] at hstep
    split at hstep
    · obtain rfl := Option.some.inj hstep
      have hpoint : HexState.Kept { s with fractional := true } kept := ⟨h.1, h.2, h.3, h.4, h.5⟩
      exact ih hpoint hrest hfold
    · rename_i hc
      have hhex := (hbytes c List.mem_cons_self).resolve_left (by simpa using hc)
      obtain ⟨hvalue, hlt⟩ := hexValue_eq hhex
      rw [hvalue, Option.map_some] at hstep
      obtain rfl := Option.some.inj hstep
      obtain ⟨kept', h'⟩ := @HexState.Kept.readDigit _ _ h (UInt8.ofNat (Digits.digit c)) (by
        rw [UInt8.toNat_ofNat']
        omega)
      exact ih h' hrest hfold

/-- What was dropped is less than a unit of what was kept. -/
theorem Kept.finish_nonneg (h : s.Kept kept) (e : Int) :
    (s.finish ops e).sign = false ∧ (s.finish ops e).isNan = false := by
  rw [finish, h.significantDigits]
  split
  · exact ⟨by decide, by decide⟩
  rename_i hne
  have hkept : kept ≠ 0 := by exact_mod_cast hne
  have hle : (16 : Nat) ^ kept ≤ 16 ^ 16 := Nat.pow_le_pow_right (by norm_num) h.kept_le
  have hpos : 0 < s.prefixBits := lt_of_lt_of_le (by positivity) (h.prefix_ge hkept)
  have hlt : s.prefixBits < 2 ^ 64 := lt_of_lt_of_le h.prefix_lt (by omega)
  have hlong : s.droppedNonzero = true → 2 ^ 53 ≤ s.prefixBits := fun hdropped => by
    have hge := h.prefix_ge hkept
    rw [h.full hdropped] at hge
    omega
  refine F64.RoundsTo.nonneg (finishHex_roundsTo (f := if s.droppedNonzero then 1 / 2 else 0) hpos hlt ?_
    ?_ ?_ hlong)
  · split <;> norm_num
  · split <;> norm_num
  · cases s.droppedNonzero <;> simp

end HexState

/-- A hexadecimal numeral is never read as a negative double or as a NaN, whatever its length. -/
theorem parseHex_nonneg {bytes : List UInt8} {x : F64} (h : parseHex ops bytes = some x) :
    x.sign = false ∧ x.isNan = false := by
  rw [parseHex] at h
  simp only [Option.bind_eq_bind] at h
  obtain ⟨⟨mantissa, exponent⟩, -, h⟩ := Option.bind_eq_some_iff.1 h
  obtain ⟨n, hvalid, h⟩ := Option.bind_eq_some_iff.1 h
  split at h
  · cases h
  obtain ⟨e, h⟩ : ∃ e, (mantissa.foldlM HexState.step HexState.start).bind
      (fun s => some (s.finish ops e)) = some x := by
    cases exponent with
    | none => exact ⟨0, h⟩
    | some text =>
      obtain ⟨e, -, h⟩ := Option.bind_eq_some_iff.1 h
      exact ⟨e, h⟩
  obtain ⟨s, hfold, hx⟩ := Option.bind_eq_some_iff.1 h
  have hstart : HexState.start.Kept 0 :=
    ⟨rfl, by decide, by decide, fun h => absurd rfl h, fun h => by cases h⟩
  obtain ⟨kept, hkept⟩ := hstart.foldlM (bytes_of_validateMantissa hvalid) hfold
  obtain rfl := Option.some.inj hx
  exact hkept.finish_nonneg e

/-! ## Where the limit on the exponent overflows -/

/-- A point, so many zeros and a one, with an exponent that makes the numeral one if there are
    `2 ^ 62` digits. -/
def farMantissa (zeros : Nat) : List UInt8 :=
  ascii '.' :: (List.replicate zeros (ascii '0') ++ [ascii '1'])

def farExponent : List UInt8 := "18446744073709551616".toList.map ascii

def farNumeral (zeros : Nat) : List UInt8 := farMantissa zeros ++ ascii 'p' :: farExponent

theorem mem_farDigits {zeros : Nat} {c : UInt8} (hc : c ∈ List.replicate zeros (ascii '0') ++ [ascii '1']) :
    isAsciiHexdigit c = true ∧ c ≠ ascii '.' := by
  rcases List.mem_append.1 hc with hc | hc
  · rw [List.eq_of_mem_replicate hc]
    decide
  · rw [List.mem_singleton.1 hc]
    decide

theorem mantissaDigits_far (zeros : Nat) :
    mantissaDigits (farMantissa zeros) = List.replicate zeros (ascii '0') ++ [ascii '1'] ∧
      fractionDigits (farMantissa zeros) = List.replicate zeros (ascii '0') ++ [ascii '1'] := by
  have hfilter : (List.replicate zeros (ascii '0') ++ [ascii '1']).filter (· != ascii '.') =
      List.replicate zeros (ascii '0') ++ [ascii '1'] :=
    List.filter_eq_self.2 fun c hc => bne_iff_ne.2 (mem_farDigits hc).2
  exact ⟨hfilter, hfilter⟩

theorem value_far (zeros : Nat) : Digits.value 16 (List.replicate zeros (ascii '0') ++ [ascii '1']) = 1 := by
  rw [Digits.value_append, show ascii '0' = Digits.byte 0 from rfl, Digits.value_replicate_zero]
  rfl

theorem splitExponent_far (zeros : Nat) : splitExponent (farNumeral zeros) (ascii 'p') (ascii 'P') =
    some (farMantissa zeros, some farExponent) := by
  refine splitExponent_append (fun c hc => ?_) (by decide +kernel)
  rcases List.mem_cons.1 hc with rfl | hc
  · decide
  · exact (ne_of_isAsciiHexdigit (mem_farDigits hc).1).2

theorem hexRational_far {zeros : Nat} (hzeros : zeros = 2 ^ 62 - 1) : hexRational (farNumeral zeros) = 1 := by
  obtain ⟨hmantissa, hexponent⟩ := splitExponent_eq (splitExponent_far zeros)
  have hvalue : exponentValue farExponent = 2 ^ 64 := by decide +kernel
  have hpow : (16 : ℚ) ^ (zeros + 1) = 2 ^ (2 ^ 64 : Int) := by
    have hexp : (2 ^ 64 : Int) = 4 * ((zeros + 1 : Nat) : Int) := by omega
    rw [hexp, zpow_mul, zpow_natCast]
    norm_num
  rw [hexRational]
  simp only [← hmantissa, ← hexponent, Option.getD_some, hvalue, (mantissaDigits_far zeros).1,
    (mantissaDigits_far zeros).2, value_far]
  rw [List.length_append, List.length_replicate, List.length_singleton, hpow, Nat.cast_one,
    div_mul_cancel₀]
  exact zpow_ne_zero _ (by norm_num)

theorem parseHex_far {zeros : Nat} (hzeros : zeros = 2 ^ 62 - 1) :
    parseHex ops (farNumeral zeros) = some (F64.ofBits (1021 * 2 ^ 52 + 2 ^ 52)) := by
  have hvalid : validateMantissa (farMantissa zeros) isAsciiHexdigit = some (zeros + 1) := by
    have hloop := @validateMantissaLoop_digits isAsciiHexdigit (List.replicate zeros (ascii '0') ++ [ascii '1'])
      1 0 (fun c hc => mem_farDigits hc) []
    rw [List.append_nil, Nat.zero_add, List.length_append, List.length_replicate,
      List.length_singleton] at hloop
    exact hloop
  have hlimit : saturate (saturate (((farMantissa zeros).length : Int) * 4) + 2048) = 2 ^ 63 - 1 := by
    rw [farMantissa, List.length_cons, List.length_append, List.length_replicate, List.length_singleton,
      saturate, saturate]
    omega
  have hexponent : parseSignedI64Saturating farExponent (2 ^ 63 - 1) = some (2 ^ 63 - 1) := by
    decide +kernel
  have hbytes : ∀ c ∈ farMantissa zeros, c = ascii '.' ∨ isAsciiHexdigit c = true := fun c hc => by
    rcases List.mem_cons.1 hc with rfl | hc
    · exact .inl rfl
    · exact .inr (mem_farDigits hc).1
  have hlength : 0 + (farMantissa zeros).length < 2 ^ 63 := by
    rw [farMantissa, List.length_cons, List.length_append, List.length_replicate, List.length_singleton]
    omega
  obtain ⟨s, kept, dropped, rest, hfold, hreads⟩ := HexState.reads_start.foldlM hbytes hlength
  simp only [HexState.start, Bool.false_eq_true, if_false, Nat.zero_mul, Nat.zero_add,
    (mantissaDigits_far zeros).1, (mantissaDigits_far zeros).2, value_far] at hreads
  rw [List.length_append, List.length_replicate, List.length_singleton] at hreads
  -- The one was kept, and nothing was dropped.
  have hvalue := hreads.value
  have hkept : kept ≠ 0 := by
    rintro rfl
    have hdropped : dropped = 0 := by
      by_contra hne
      have := hreads.full hne
      omega
    subst hdropped
    have hbits : s.prefixBits = 0 := Nat.lt_one_iff.1 hreads.prefix_lt
    have hrest : rest = 0 := Nat.lt_one_iff.1 hreads.rest_lt
    rw [hbits, hrest] at hvalue
    omega
  have hdropped : dropped = 0 := by
    by_contra hne
    have hge := hreads.prefix_ge hkept
    rw [hreads.full hne] at hge
    have hpow : 1 ≤ 16 ^ dropped := Nat.one_le_pow _ _ (by norm_num)
    have hmul := Nat.le_mul_of_pos_right s.prefixBits hpow
    omega
  subst hdropped
  have hrest : rest = 0 := Nat.lt_one_iff.1 hreads.rest_lt
  have hbits : s.prefixBits = 1 := by omega
  have hsticky : s.droppedNonzero = false := by
    have := hreads.droppedNonzero
    rw [hrest] at this
    simpa using this
  have hscale : saturate ((2 ^ 63 - 1) + saturate (saturate (s.droppedDigits - s.fractionalDigits) * 4)) =
      -1 := by
    rw [hreads.droppedDigits, hreads.fractionalDigits, saturate, saturate, saturate]
    omega
  have hfinish : s.finish ops (2 ^ 63 - 1) = F64.ofBits (1021 * 2 ^ 52 + 2 ^ 52) := by
    rw [HexState.finish, hreads.significantDigits, if_neg (by simpa using hkept)]
    simp only [hbits, hsticky, hscale]
    rfl
  rw [parseHex, splitExponent_far]
  simp only [Option.bind_eq_bind, Option.bind_some, hvalid, hlimit, hexponent, hfold, hfinish]
  rw [if_neg (Nat.succ_ne_zero zeros)]
  rfl

/-- The numeral is one, and it is read as one half. -/
theorem parseHex_far_half :
    parseHex ⟨fun _ => none, fun x _ => x⟩ (farNumeral (2 ^ 62 - 1)) =
        some (F64.ofBits (1021 * 2 ^ 52 + 2 ^ 52)) ∧
      ¬RoundsTo (hexRational (farNumeral (2 ^ 62 - 1))) (F64.ofBits (1021 * 2 ^ 52 + 2 ^ 52)) := by
  refine ⟨parseHex_far rfl, fun h => ?_⟩
  rw [hexRational_far rfl, RoundsTo, if_neg] at h
  · have hhalf := F64.toRat_ofUnits (k := 1021) (u := 2 ^ 52) (.inr le_rfl) (by norm_num) (by norm_num)
    have hone := F64.toRat_ofUnits (k := 1022) (u := 2 ^ 52) (.inr le_rfl) (by norm_num) (by norm_num)
    have hfinite := F64.isFinite_ofUnits (k := 1022) (u := 2 ^ 52) (.inr le_rfl) (by norm_num) (by norm_num)
    have hle := (h.2.2 _ hfinite).1
    rw [hhalf, hone] at hle
    norm_num [unit] at hle
  · refine not_le.2 (F64.lt_overflowThreshold (k := 1022) (by norm_num) ?_)
    norm_num [unit]

end Dellingr.Numeral
