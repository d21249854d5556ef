import Dellingr.Lib.Rounding

/-!
# Rounding to odd

An integer *rounds* a rational *to odd* if it is the rational, or an odd integer less than one away from it
(`RoundsToOdd`). Dropping the bits below a position and setting the last bit that is kept where one of them was
set does that (`roundsToOdd_sticky`), and it goes through sums with even integers (`RoundsToOdd.add_even`).

What was rounded to odd may be rounded to nearest later as if nothing had been dropped, at least two bits above
(`RoundsToOdd.nearestEven`): it is on the same side of every even integer (`RoundsToOdd.le_iff`), so that it
never makes a tie, and never breaks one the wrong way.

`roundHalfEven` is the rounding of an integer to nearest, by what its shift to the right drops.
-/

/-- The integer next to a rational, or the rational itself. -/
def RoundsToOdd (s : ℤ) (t : ℚ) : Prop := (s : ℚ) = t ∨ (Odd s ∧ |(s : ℚ) - t| < 1)

namespace RoundsToOdd

variable {s n B : ℤ} {t : ℚ}

theorem neg (h : RoundsToOdd s t) : RoundsToOdd (-s) (-t) := by
  refine h.imp (fun h => by rw [Int.cast_neg, h]) fun ⟨hodd, hlt⟩ => ⟨hodd.neg, ?_⟩
  rwa [Int.cast_neg, neg_sub_neg, abs_sub_comm]

theorem add_even (h : RoundsToOdd s t) (hB : Even B) : RoundsToOdd (B + s) (B + t) := by
  refine h.imp (fun h => by rw [Int.cast_add, h]) fun ⟨hodd, hlt⟩ => ⟨hB.add_odd hodd, ?_⟩
  rwa [Int.cast_add, add_sub_add_left_eq_sub]

/-- An even integer is on the same side of both. -/
theorem le_iff (h : RoundsToOdd s t) (hB : Even B) : (B : ℚ) ≤ t ↔ B ≤ s := by
  obtain rfl | ⟨hodd, hlt⟩ := h
  · exact Int.cast_le
  have hne : B ≠ s := fun h => Int.not_even_iff_odd.2 hodd (h ▸ hB)
  obtain ⟨hlo, hhi⟩ := abs_lt.1 hlt
  constructor
  · intro hle
    have : (B : ℚ) < s + 1 := by linarith
    have : B < s + 1 := by exact_mod_cast this
    omega
  · intro hle
    have : ((B + 1 : ℤ) : ℚ) ≤ s := Int.cast_le.2 (by omega)
    push_cast at this
    linarith

theorem lt_iff (h : RoundsToOdd s t) (hB : Even B) : t < B ↔ s < B := by
  rw [← not_le, ← not_le, h.le_iff hB]

/-- Where the integer is zero nothing was dropped. -/
theorem eq_zero_iff (h : RoundsToOdd s t) : t = 0 ↔ s = 0 := by
  have hle := h.le_iff Even.zero
  have hlt := h.lt_iff Even.zero
  rw [Int.cast_zero] at hle hlt
  constructor
  · rintro rfl
    obtain h | ⟨hodd, hlt'⟩ := h
    · exact_mod_cast h
    · rw [sub_zero] at hlt'
      have : |s| < 1 := by exact_mod_cast hlt'
      exact Int.abs_lt_one_iff.1 this
  · intro hs
    obtain h | ⟨hodd, -⟩ := h
    · rw [← h, hs, Int.cast_zero]
    · rw [hs] at hodd
      exact absurd hodd (by decide)

/-- Rounding to nearest, two bits above or more, does not see that it was rounded to odd before. -/
theorem nearestEven (h : RoundsToOdd s t) {k : Nat} (hk : 2 ≤ k) (hn : NearestEven n (s / 2 ^ k)) :
    NearestEven n (t / 2 ^ k) := by
  obtain heq | ⟨hodd, hlt⟩ := h
  · rwa [← heq]
  obtain ⟨j, rfl⟩ : ∃ j, k = j + 2 := ⟨k - 2, by omega⟩
  have hpos : (0 : ℚ) < 2 ^ (j + 2) := by positivity
  -- The distance from the multiple is odd, so it is not half a unit.
  have hdist : |(n : ℚ) * 2 ^ (j + 2) - s| ≤ 2 ^ (j + 2) / 2 := by
    have hmul : |(n : ℚ) - s / 2 ^ (j + 2)| * 2 ^ (j + 2) = |(n : ℚ) * 2 ^ (j + 2) - s| := by
      rw [← abs_of_pos hpos, ← abs_mul, abs_of_pos hpos, sub_mul, div_mul_cancel₀ _ hpos.ne']
    rw [← hmul]
    have := mul_le_mul_of_nonneg_right hn.1 hpos.le
    linarith
  have hint : |n * 2 ^ (j + 2) - s| ≤ 2 * 2 ^ j := by
    have hcast : ((|n * 2 ^ (j + 2) - s| : ℤ) : ℚ) ≤ ((2 * 2 ^ j : ℤ) : ℚ) := by
      push_cast
      calc |(n : ℚ) * 2 ^ (j + 2) - s| ≤ 2 ^ (j + 2) / 2 := hdist
        _ = 2 * 2 ^ j := by ring
    exact_mod_cast hcast
  have hparity : Odd |n * 2 ^ (j + 2) - s| := by
    have heven : Even (n * 2 ^ (j + 2)) := ⟨n * 2 ^ (j + 1), by ring⟩
    rw [odd_abs]
    exact heven.sub_odd hodd
  have hstrict : |n * 2 ^ (j + 2) - s| + 1 ≤ 2 * 2 ^ j := by
    obtain ⟨v, hv⟩ := hparity
    omega
  have hfar : |(n : ℚ) * 2 ^ (j + 2) - t| < 2 ^ (j + 2) / 2 := by
    have hcast : |(n : ℚ) * 2 ^ (j + 2) - s| + 1 ≤ 2 * 2 ^ j := by exact_mod_cast hstrict
    calc |(n : ℚ) * 2 ^ (j + 2) - t| ≤ |(n : ℚ) * 2 ^ (j + 2) - s| + |(s : ℚ) - t| := abs_sub_le _ _ _
      _ < |(n : ℚ) * 2 ^ (j + 2) - s| + 1 := by linarith
      _ ≤ 2 * 2 ^ j := hcast
      _ = 2 ^ (j + 2) / 2 := by ring
  exact nearestEven_div hpos hfar.le fun h => absurd h hfar.ne

end RoundsToOdd

/-! ## Shifts -/

/-- Shift to the right, with the last bit set if a bit was lost. -/
def stickyShift (v d : Nat) : Nat := (v / 2 ^ d) ||| (if v % 2 ^ d = 0 then 0 else 1)

theorem or_one (n : Nat) : n ||| 1 = if n % 2 = 0 then n + 1 else n := by
  have hdiv : (n ||| 1) / 2 = n / 2 := by
    rw [Nat.or_div_two, show 1 / 2 = 0 from rfl, Nat.or_zero]
  have hmod : (n ||| 1) % 2 = 1 := by
    rw [Nat.or_mod_two_eq_one]
    exact .inr rfl
  split <;> omega

theorem roundsToOdd_sticky (v d : Nat) : RoundsToOdd (stickyShift v d : Nat) (v / 2 ^ d) := by
  have hpos : (0 : ℚ) < 2 ^ d := by positivity
  obtain ⟨k, hk⟩ : ∃ k, k = v / 2 ^ d := ⟨_, rfl⟩
  obtain ⟨r, hr⟩ : ∃ r, r = v % 2 ^ d := ⟨_, rfl⟩
  have hquot : (v : ℚ) / 2 ^ d = k + r / 2 ^ d := by
    have hsplit : (v : ℚ) = k * 2 ^ d + r := by
      rw [hk, hr]
      exact_mod_cast (Nat.div_add_mod' v (2 ^ d)).symm
    rw [hsplit, add_div, mul_div_cancel_right₀ _ hpos.ne']
  have hlt : (r : ℚ) / 2 ^ d < 1 := by
    rw [div_lt_one hpos, hr]
    exact_mod_cast Nat.mod_lt v (by positivity)
  rw [stickyShift, hquot, ← hk, ← hr]
  split
  · next hzero =>
    refine .inl ?_
    rw [hzero, Nat.cast_zero, zero_div, add_zero, Nat.or_zero, Int.cast_natCast]
  · next hlost =>
    have hfrac : (0 : ℚ) < r / 2 ^ d := div_pos (by exact_mod_cast Nat.pos_of_ne_zero hlost) hpos
    rw [or_one]
    split
    · next heven =>
      refine .inr ⟨?_, ?_⟩
      · exact_mod_cast Nat.odd_iff.2 (by omega)
      · push_cast
        rw [abs_lt]
        constructor <;> linarith
    · next hodd =>
      refine .inr ⟨?_, ?_⟩
      · exact_mod_cast Nat.odd_iff.2 (by omega)
      · push_cast
        rw [abs_lt]
        constructor <;> linarith

/-- Shift to the right, rounded to nearest, ties to even. -/
def roundHalfEven (v d : Nat) : Nat :=
  if 2 ^ (d - 1) < v % 2 ^ d ∨ (v % 2 ^ d = 2 ^ (d - 1) ∧ v / 2 ^ d % 2 = 1) then v / 2 ^ d + 1 else v / 2 ^ d

theorem nearestEven_roundHalfEven {v d : Nat} (hd : 0 < d) :
    NearestEven (roundHalfEven v d : Nat) (v / 2 ^ d) := by
  obtain ⟨H, hH⟩ : ∃ H, H = 2 ^ (d - 1) := ⟨_, rfl⟩
  have hpow : 2 ^ d = 2 * H := by rw [hH, ← pow_succ', Nat.sub_add_cancel hd]
  have hHpos : 0 < H := by rw [hH]; positivity
  obtain ⟨k, hk⟩ : ∃ k, k = v / 2 ^ d := ⟨_, rfl⟩
  obtain ⟨r, hr⟩ : ∃ r, r = v % 2 ^ d := ⟨_, rfl⟩
  have hrlt : r < 2 * H := by rw [hr, ← hpow]; exact Nat.mod_lt _ (by positivity)
  have hsplit : (v : ℤ) = k * (2 * H) + r := by
    have : v = k * (2 * H) + r := by rw [hk, hr, ← hpow, Nat.div_add_mod']
    exact_mod_cast this
  have hcast : (2 : ℚ) ^ d = 2 * H := by exact_mod_cast hpow
  have hdist : ∀ n : Nat, |((n : ℤ) : ℚ) * (2 * H) - v| = ((|(n : ℤ) * (2 * H) - v| : ℤ) : ℚ) := fun n => by
    push_cast
    rfl
  have hhalf : (2 * H : ℚ) / 2 = ((H : ℤ) : ℚ) := by push_cast; ring
  have hup : |((k + 1 : Nat) : ℤ) * (2 * H) - v| = 2 * H - r := by
    have : ((k + 1 : Nat) : ℤ) * (2 * H) - v = 2 * H - r := by rw [hsplit]; push_cast; ring
    rw [this, abs_of_nonneg (by omega)]
  have hdown : |(k : ℤ) * (2 * H) - v| = r := by
    have : (k : ℤ) * (2 * H) - v = -r := by rw [hsplit]; ring
    rw [this, abs_neg, abs_of_nonneg (by omega)]
  rw [hcast, roundHalfEven, ← hk, ← hr, ← hH]
  split
  · next hge =>
    refine nearestEven_div (by positivity) ?_ ?_
    · rw [hdist, hhalf, hup, Int.cast_le]
      omega
    · rw [hdist, hhalf, hup, Int.cast_inj]
      intro htie
      exact_mod_cast Nat.even_iff.2 (by omega)
  · next hlt =>
    refine nearestEven_div (by positivity) ?_ ?_
    · rw [hdist, hhalf, hdown, Int.cast_le]
      omega
    · rw [hdist, hhalf, hdown, Int.cast_inj]
      intro htie
      exact_mod_cast Nat.even_iff.2 (by omega)
