import Dellingr.Crmath.Qint

/-!
# Products of several words

The products of the floats of two and four words, each of which drops other parts of the product of the significands.
What is kept is the upper half of that product but for less than `k` units (`WideFloat.UpperProduct`), so that the
result is within `2 * k` units in its last place.

* Of two words: the carry of the middle products is not lost (`V1.mulDint_spec`), and a product with an integer is
  shifted by as much as its first word allows (`V2.mulDintInt64_spec`).
* Of four words: whatever products are read, the columns of the sum are added without loss (`columns_eq`), so that an
  error comes only from what is not read.

`multiword_products` puts the bounds together.
-/

namespace Dellingr.Crmath

open Word WideFloat

/-! ## Two words -/

section Dint

variable {a b : Dint} {t : Nat}

/-- The product of two significands, from the products of their words. -/
theorem Dint.r_mul_r (a b : Dint) :
    a.r * b.r = a.hi.toNat * b.hi.toNat * 2 ^ 128 + (a.hi.toNat * b.lo.toNat + a.lo.toNat * b.hi.toNat) * 2 ^ 64 +
      a.lo.toNat * b.lo.toNat := by
  rw [Dint.r, Dint.r]
  ring

/-- A product of two words is below the square of the greatest one. -/
theorem word_mul_le (x y : UInt64) : x.toNat * y.toNat ≤ (2 ^ 64 - 1) * (2 ^ 64 - 1) :=
  Nat.mul_le_mul (Nat.le_sub_one_of_lt x.toNat_lt) (Nat.le_sub_one_of_lt y.toNat_lt)

theorem Dint.hi_mul_hi (ha : a.Normal) (hb : b.Normal) : 2 ^ 126 ≤ a.hi.toNat * b.hi.toNat := by
  calc 2 ^ 126 = 2 ^ 63 * 2 ^ 63 := by norm_num
    _ ≤ a.hi.toNat * b.hi.toNat := Nat.mul_le_mul ha hb

theorem V1.mulDint_spec (ha : a.Normal) (hb : b.Normal) :
    (V1.mulDint a b).wide.Within 128 3 (a.toRat * b.toRat) ∧ (V1.mulDint a b).sgn = (a.sgn ^^ b.sgn) := by
  have hprod := Dint.r_mul_r a b
  have hhh := Dint.hi_mul_hi ha hb
  have hhh' := word_mul_le a.hi b.hi
  have hhl := word_mul_le a.hi b.lo
  have hlh := word_mul_le a.lo b.hi
  have hll := word_mul_le a.lo b.lo
  rw [V1.mulDint]
  generalize a.hi.toNat * b.hi.toNat = hh at *
  generalize a.hi.toNat * b.lo.toNat = hl at *
  generalize a.lo.toNat * b.hi.toNat = lh at *
  generalize a.lo.toNat * b.lo.toNat = ll at *
  rw [V1.addu128_eq (by omega) (by omega)]
  -- The middle products with their carry.
  obtain ⟨T, hT⟩ : ∃ T, T = hh + (hl + lh) / 2 ^ 64 := ⟨_, rfl⟩
  obtain ⟨low, hlow⟩ : ∃ low, low = (hl + lh) % 2 ^ 64 := ⟨_, rfl⟩
  have hTlt : T < 2 ^ 128 - 1 := by omega
  have hsum : wrappingAdd 128 (wrappingAdd 128 hh (if 2 ^ 128 ≤ hl + lh then 2 ^ 64 else 0))
      (wrappingAdd 128 hl lh / 2 ^ 64) = T := by
    by_cases hcarry : 2 ^ 128 ≤ hl + lh
    · rw [if_pos hcarry, @wrappingAdd_of_le 128 hl lh (by omega) (by omega) hcarry, wrappingAdd, wrappingAdd]
      omega
    · rw [if_neg hcarry, @wrappingAdd_of_lt 128 hl lh (by omega), wrappingAdd, wrappingAdd]
      omega
  have hmod : wrappingAdd 128 hl lh % 2 ^ 64 = low := by rw [wrappingAdd]; omega
  simp only [decide_eq_true_eq, hsum, hmod]
  have hP : a.r * b.r = T * 2 ^ 128 + low * 2 ^ 64 + ll := by
    have hsplit := Nat.div_add_mod' (hl + lh) (2 ^ 64)
    rw [hprod, hT, hlow]
    calc hh * 2 ^ 128 + (hl + lh) * 2 ^ 64 + ll
        = hh * 2 ^ 128 + ((hl + lh) / 2 ^ 64 * 2 ^ 64 + (hl + lh) % 2 ^ 64) * 2 ^ 64 + ll := by rw [hsplit]
      _ = (hh + (hl + lh) / 2 ^ 64) * 2 ^ 128 + (hl + lh) % 2 ^ 64 * 2 ^ 64 + ll := by ring
  by_cases hsmall : T < 2 ^ 127
  · have hex : T / 2 ^ 127 = 0 := by omega
    simp only [hex, if_true, ne_eq, one_ne_zero, not_false_eq_true]
    rw [Nat.mod_eq_of_lt (show T * 2 < 2 ^ 128 by omega), wrappingAdd_of_lt (by omega)]
    refine ⟨?_, rfl⟩
    rw [Dint.wide_setR (by omega)]
    refine @product_within 128 a.wide b.wide ⟨_, _, _⟩ 0 3 (by norm_num) rfl ?_ ⟨?_, ?_⟩ ?_ ?_
    · show a.ex + b.ex - 1 + 1 = a.ex + b.ex + 0
      omega
    · show 2 ^ 127 ≤ T * 2 + low / 2 ^ 63
      omega
    · show T * 2 + low / 2 ^ 63 < 2 ^ 128
      omega
    · show (T * 2 + low / 2 ^ 63) * 2 ^ 127 < a.r * b.r + 3 * 2 ^ 127
      omega
    · show a.r * b.r < (T * 2 + low / 2 ^ 63 + 3) * 2 ^ 127
      omega
  · have hex : T / 2 ^ 127 ≠ 0 := by omega
    simp only [if_neg hex, ne_eq, not_true_eq_false, if_false]
    rw [wrappingAdd_of_lt (by omega)]
    refine ⟨?_, rfl⟩
    rw [Dint.wide_setR (by omega)]
    refine @product_within 128 a.wide b.wide ⟨_, _, _⟩ 1 3 (by norm_num) rfl ?_ ⟨?_, ?_⟩ ?_ ?_
    · show a.ex + b.ex - 0 + 1 = a.ex + b.ex + 1
      omega
    · show 2 ^ 127 ≤ T + low / 2 ^ 63
      omega
    · show T + low / 2 ^ 63 < 2 ^ 128
      omega
    · show (T + low / 2 ^ 63) * 2 ^ 128 < a.r * b.r + 3 * 2 ^ 128
      omega
    · show a.r * b.r < (T + low / 2 ^ 63 + 3) * 2 ^ 128
      omega

theorem V2.normalised_eq (hlo : 2 ^ 126 ≤ t) (hhi : t < 2 ^ 128) :
    ∃ d, V2.normalised a b t = some d ∧ d.wide = WideFloat.finishProduct 128 a.wide b.wide t := by
  rw [V2.normalised, WideFloat.finishProduct]
  by_cases hsmall : t < 2 ^ 127
  · have hex : t / 2 ^ 127 = 0 := by omega
    have hshl : shl 128 t 1 = some (2 * t) := by
      rw [Nat.mul_comm]
      exact @shl_of_lt 128 t 1 (by norm_num) (by omega)
    simp only [hex, Nat.cast_zero, sub_zero, hshl, Option.bind_eq_bind, Option.bind_some]
    exact ⟨_, rfl, by rw [Dint.wide_setR (by omega), if_pos hsmall]; simp [Dint.wide]⟩
  · have hex : t / 2 ^ 127 = 1 := by omega
    have hshl : shl 128 t 0 = some (t * 2 ^ 0) := @shl_of_lt 128 t 0 (by norm_num) (by omega)
    rw [pow_zero, Nat.mul_one] at hshl
    simp only [hex, Nat.cast_one, sub_self, hshl, Option.bind_eq_bind, Option.bind_some]
    exact ⟨_, rfl, by rw [Dint.wide_setR hhi, if_neg hsmall]; simp [Dint.wide]⟩

theorem Dint.upperProduct {k : Nat} (hlo : 2 ^ 126 ≤ t) (hle : t * 2 ^ 128 ≤ a.r * b.r)
    (hlt : a.r * b.r < (t + k) * 2 ^ 128) : UpperProduct 128 a.wide b.wide k t := ⟨by norm_num, hlo, hle, hlt⟩

/-- A product that keeps all but less than `k` units of the upper half. -/
theorem V2.normalised_spec {k : Nat} (ha : a.Normal) (hb : b.Normal) (h : UpperProduct 128 a.wide b.wide k t) :
    ∃ r, V2.normalised a b t = some r ∧ r.wide.Within 128 (2 * k : Nat) (a.toRat * b.toRat) ∧
      r.sgn = (a.sgn ^^ b.sgn) := by
  have ha' := Dint.normal_iff.1 ha
  have hb' := Dint.normal_iff.1 hb
  obtain ⟨r, hr, hwide⟩ := @V2.normalised_eq a b t h.normal (h.lt_pow ha' hb')
  refine ⟨r, hr, hwide ▸ truncated_product ha' hb' h, ?_⟩
  have hsgn := congrArg WideFloat.sgn hwide
  rw [WideFloat.finishProduct] at hsgn
  split at hsgn <;> exact hsgn

theorem V2.mulDint_spec (ha : a.Normal) (hb : b.Normal) :
    ∃ r, V2.mulDint a b = some r ∧ r.wide.Within 128 6 (a.toRat * b.toRat) ∧ r.sgn = (a.sgn ^^ b.sgn) := by
  have hprod := Dint.r_mul_r a b
  have hhh := Dint.hi_mul_hi ha hb
  have hhh' := word_mul_le a.hi b.hi
  have hhl := word_mul_le a.hi b.lo
  have hlh := word_mul_le a.lo b.hi
  have hll := word_mul_le a.lo b.lo
  rw [V2.mulDint]
  generalize a.hi.toNat * b.hi.toNat = hh at *
  generalize a.hi.toNat * b.lo.toNat = hl at *
  generalize a.lo.toNat * b.hi.toNat = lh at *
  generalize a.lo.toNat * b.lo.toNat = ll at *
  rw [wrappingAdd_of_lt (by omega)]
  exact @V2.normalised_spec a b _ 3 ha hb (Dint.upperProduct (by omega) (by omega) (by omega))

theorem V2.mulDint21_spec (ha : a.Normal) (hb : b.Normal) (hlo : b.lo = 0) :
    ∃ r, V2.mulDint21 a b = some r ∧ r.wide.Within 128 2 (a.toRat * b.toRat) ∧ r.sgn = (a.sgn ^^ b.sgn) := by
  have hprod : a.r * b.r = a.hi.toNat * b.hi.toNat * 2 ^ 128 + a.lo.toNat * b.hi.toNat * 2 ^ 64 := by
    rw [Dint.r_mul_r, hlo, UInt64.toNat_zero]
    ring
  have hhh := Dint.hi_mul_hi ha hb
  have hhh' := word_mul_le a.hi b.hi
  have hlh := word_mul_le a.lo b.hi
  rw [V2.mulDint21]
  generalize a.hi.toNat * b.hi.toNat = hh at *
  generalize a.lo.toNat * b.hi.toNat = lh at *
  rw [wrappingAdd_of_lt (by omega)]
  exact @V2.normalised_spec a b _ 1 ha hb (Dint.upperProduct (by omega) (by omega) (by omega))

theorem V2.mulDint11_spec (ha : a.Normal) (hb : b.Normal) (hlo : a.lo = 0) (hlo' : b.lo = 0) :
    ∃ r, V2.mulDint11 a b = some r ∧ r.wide.Exactly 128 (a.toRat * b.toRat) ∧ r.sgn = (a.sgn ^^ b.sgn) := by
  have hprod : a.r * b.r = a.hi.toNat * b.hi.toNat * 2 ^ 128 := by
    rw [Dint.r_mul_r, hlo, hlo', UInt64.toNat_zero]
    ring
  have hhh := Dint.hi_mul_hi ha hb
  have hhh' := word_mul_le a.hi b.hi
  rw [V2.mulDint11]
  generalize a.hi.toNat * b.hi.toNat = hh at *
  obtain ⟨r, hr, hwide⟩ := @V2.normalised_eq a b hh hhh (by omega)
  refine ⟨r, hr, hwide ▸ exact_product (Dint.normal_iff.1 ha) (Dint.normal_iff.1 hb) (by norm_num) hprod.symm, ?_⟩
  have hsgn := congrArg WideFloat.sgn hwide
  rw [WideFloat.finishProduct] at hsgn
  split at hsgn <;> exact hsgn

/-! ### Integers -/

variable {c : Nat}

/-- The sign of a product with an integer. -/
theorem sgn_mul_int (n : Int64) : (if n < 0 then !a.sgn else a.sgn) = (decide (n.toInt < 0) ^^ a.sgn) := by
  have hlt : n < 0 ↔ n.toInt < 0 := Int64.lt_iff_toInt_lt
  by_cases h : n.toInt < 0
  · rw [if_pos (hlt.2 h), decide_eq_true h, Bool.true_xor]
  · rw [if_neg (fun hn => h (hlt.1 hn)), decide_eq_false h, Bool.false_xor]

/-- The first word of a product with an integer, shifted so that its first bit is set. -/
structure Shifted (a : Dint) (c m t l : Nat) : Prop where
  pos : 1 ≤ m
  le : m ≤ 64
  high : (if a.hi.toNat * c / 2 ^ 64 ≠ 0 then clz 64 (a.hi.toNat * c / 2 ^ 64) else 64) = m
  shl_high : shl 128 (a.hi.toNat * c) m = some t
  shl_low : (shl 128 (a.lo.toNat * c) ((m : Int) - 1)).map (· / 2 ^ 63) = some l
  t_lt : t < 2 ^ 128
  normal : 2 ^ 127 ≤ t
  l_lt : l < 2 ^ 65
  le_exact : (t + l) * 2 ^ (64 - m) ≤ c * a.r
  exact_lt : c * a.r < (t + l + 1) * 2 ^ (64 - m)

theorem exists_shifted (ha : a.Normal) (hc : 0 < c) (hlt : c < 2 ^ 62) : ∃ m t l, Shifted a c m t l := by
  have hhi := a.hi.toNat_lt
  have hlo := a.lo.toNat_lt
  obtain ⟨H, hH⟩ : ∃ H, H = a.hi.toNat * c := ⟨_, rfl⟩
  obtain ⟨L, hL⟩ : ∃ L, L = a.lo.toNat * c := ⟨_, rfl⟩
  have hHlo : 2 ^ 63 * c ≤ H := hH ▸ Nat.mul_le_mul_right c ha
  have hHhi : H < 2 ^ 64 * c := hH ▸ Nat.mul_lt_mul_of_pos_right hhi hc
  have hLhi : L < 2 ^ 64 * c := hL ▸ Nat.mul_lt_mul_of_pos_right hlo hc
  obtain ⟨m, hm, hm1, hm64, hlo', hhi'⟩ : ∃ m, (if H / 2 ^ 64 ≠ 0 then clz 64 (H / 2 ^ 64) else 64) = m ∧
      1 ≤ m ∧ m ≤ 64 ∧ 2 ^ 127 ≤ H * 2 ^ m ∧ H * 2 ^ m < 2 ^ 128 := by
    by_cases hzero : H / 2 ^ 64 = 0
    · exact ⟨64, by rw [if_neg (not_not.2 hzero)], by omega, by omega, by omega, by omega⟩
    · obtain ⟨hlz, hlo', hhi'⟩ := @clz_spec 64 (H / 2 ^ 64) (Nat.pos_of_ne_zero hzero) (by omega)
      obtain ⟨m, hm⟩ : ∃ m, m = clz 64 (H / 2 ^ 64) := ⟨_, rfl⟩
      rw [← hm] at hlz hlo' hhi'
      refine ⟨m, by rw [if_pos hzero, hm], ?_, hlz.le, ?_, ?_⟩
      · by_contra h0
        obtain rfl : m = 0 := by omega
        omega
      · calc 2 ^ 127 = 2 ^ 63 * 2 ^ 64 := by norm_num
          _ ≤ H / 2 ^ 64 * 2 ^ m * 2 ^ 64 := Nat.mul_le_mul_right _ hlo'
          _ = H / 2 ^ 64 * 2 ^ 64 * 2 ^ m := by ring
          _ ≤ H * 2 ^ m := Nat.mul_le_mul_right _ (Nat.div_mul_le_self _ _)
      · -- The bits of the second word do not reach the first one.
        have hbelow : (H / 2 ^ 64 + 1) * 2 ^ m ≤ 2 ^ 64 := by
          have hdvd : 2 ^ 64 = 2 ^ (64 - m) * 2 ^ m := by rw [← pow_add]; congr 1; omega
          rw [hdvd] at hhi' ⊢
          exact Nat.mul_le_mul_right _ (Nat.lt_of_mul_lt_mul_right hhi')
        calc H * 2 ^ m < (H / 2 ^ 64 + 1) * 2 ^ 64 * 2 ^ m :=
              Nat.mul_lt_mul_of_pos_right (by omega) (Nat.two_pow_pos m)
          _ = (H / 2 ^ 64 + 1) * 2 ^ m * 2 ^ 64 := by ring
          _ ≤ 2 ^ 64 * 2 ^ 64 := Nat.mul_le_mul_right _ hbelow
          _ = 2 ^ 128 := by norm_num
  have hcm : c * 2 ^ m < 2 ^ 65 := by
    refine Nat.lt_of_mul_lt_mul_left (a := 2 ^ 63) (lt_of_le_of_lt ?_ (hhi'.trans_eq (by norm_num)))
    rw [← Nat.mul_assoc]
    exact Nat.mul_le_mul_right _ hHlo
  have hpow : 2 ^ m = 2 * 2 ^ (m - 1) := by rw [← pow_succ']; congr 1; omega
  have hLm : L * 2 ^ (m - 1) < 2 ^ 128 := by
    calc L * 2 ^ (m - 1) < 2 ^ 64 * c * 2 ^ (m - 1) := Nat.mul_lt_mul_of_pos_right hLhi (Nat.two_pow_pos _)
      _ = 2 ^ 63 * (c * 2 ^ m) := by rw [hpow]; ring
      _ < 2 ^ 63 * 2 ^ 65 := Nat.mul_lt_mul_of_pos_left hcm (by norm_num)
      _ = 2 ^ 128 := by norm_num
  have hsub : (m : Int) - 1 = ((m - 1 : Nat) : Int) := by omega
  have hD : 2 ^ (m - 1) * 2 ^ (64 - m) = 2 ^ 63 := by rw [← pow_add]; congr 1; omega
  have hD' : 2 ^ m * 2 ^ (64 - m) = 2 ^ 64 := by rw [← pow_add]; congr 1; omega
  have hexact : c * a.r = H * 2 ^ m * 2 ^ (64 - m) + L := by
    rw [Nat.mul_assoc, hD', hH, hL, Dint.r]
    ring
  have hl := Nat.div_mul_le_self (L * 2 ^ (m - 1)) (2 ^ 63)
  have hl' := Nat.lt_div_mul_add (a := L * 2 ^ (m - 1)) (b := 2 ^ 63) (by norm_num)
  obtain ⟨l, hldef⟩ : ∃ l, l = L * 2 ^ (m - 1) / 2 ^ 63 := ⟨_, rfl⟩
  rw [← hldef] at hl hl'
  refine ⟨m, H * 2 ^ m, l, hm1, hm64, hH ▸ hm, ?_, ?_, hhi', hlo', ?_, ?_, ?_⟩
  · rw [← hH]
    by_cases h64 : m < 128
    · exact shl_of_lt h64 hhi'
    · omega
  · rw [← hL, hsub, shl_of_lt (by omega) hLm, Option.map_some, hldef]
  · refine Nat.lt_of_mul_lt_mul_right (a := 2 ^ 63) (hl.trans_lt (hLm.trans_eq (by norm_num)))
  · rw [hexact, Nat.add_mul]
    refine Nat.add_le_add_left (Nat.le_of_mul_le_mul_right (c := 2 ^ (m - 1)) ?_ (Nat.two_pow_pos _)) _
    calc l * 2 ^ (64 - m) * 2 ^ (m - 1) = l * 2 ^ 63 := by rw [← hD]; ring
      _ ≤ L * 2 ^ (m - 1) := hl
  · rw [hexact, Nat.add_assoc, Nat.add_mul]
    refine Nat.add_lt_add_left (Nat.lt_of_mul_lt_mul_right (a := 2 ^ (m - 1)) ?_) _
    calc L * 2 ^ (m - 1) < l * 2 ^ 63 + 2 ^ 63 := hl'
      _ = (l + 1) * 2 ^ (64 - m) * 2 ^ (m - 1) := by rw [← hD]; ring

/-- The shifted product, with the exponent that it has. -/
theorem Shifted.within {m t l d s k : Nat} {n : Int} {e : Int} (h : Shifted a n.natAbs m t l) (he : e = a.ex + d)
    (hlo : 2 ^ 127 ≤ s) (hhi : s < 2 ^ 128) (hle : s * 2 ^ d < (t + l) * 2 ^ (64 - m) + k * 2 ^ d)
    (hlt : (t + l + 1) * 2 ^ (64 - m) ≤ (s + k) * 2 ^ d) :
    (Dint.setR ⟨0, 0, e, decide (n < 0) ^^ a.sgn⟩ s).wide.Within 128 k (n * a.toRat) := by
  rw [Dint.wide_setR hhi]
  refine @scaled_within 128 a.wide ⟨_, s, e⟩ n d k rfl he ⟨hlo, hhi⟩ ?_ ?_
  · exact hle.trans_le (Nat.add_le_add_right h.le_exact _)
  · exact h.exact_lt.trans_le hlt

/-- A product with an integer below `2 ^ 62` is within a unit in the last place. -/
theorem V2.mulDintInt64_spec (ha : a.Normal) {n : Int64} (hn : n ≠ 0) (hlt : n.toInt.natAbs < 2 ^ 62) :
    ∃ r, V2.mulDintInt64 a n = some r ∧ r.wide.Within 128 1 (n.toInt * a.toRat) ∧
      r.sgn = (decide (n.toInt < 0) ^^ a.sgn) := by
  have hpos : 0 < n.toInt.natAbs := Int.natAbs_pos.2 fun h => hn (Int64.toInt_inj.1 h)
  obtain ⟨m, t, l, h⟩ := exists_shifted ha hpos hlt
  obtain ⟨L, hL, hl⟩ := Option.map_eq_some_iff.1 h.shl_low
  have ht := h.t_lt
  have hnormal := h.normal
  have hl65 := h.l_lt
  have hm := h.le
  rw [V2.mulDintInt64, if_neg hn]
  simp only [h.high, h.shl_high, hL, Option.bind_eq_bind, Option.bind_some, hl, sgn_mul_int]
  by_cases hcarry : 2 ^ 128 ≤ t + l
  · have hadd : wrappingAdd 128 t l = t + l - 2 ^ 128 := wrappingAdd_of_le ht (by omega) hcarry
    have hdouble : 2 ^ (65 - m) = 2 * 2 ^ (64 - m) := by rw [← pow_succ']; congr 1; omega
    have hD := Nat.two_pow_pos (64 - m)
    rw [if_pos (by omega), hadd, or_carry hcarry (by omega)]
    refine ⟨_, rfl, h.within (d := 65 - m) (k := 1) (by omega) (by omega) (by omega) ?_ ?_, rfl⟩
    · rw [hdouble, ← Nat.mul_assoc, ← Nat.mul_assoc, ← Nat.add_mul]
      exact Nat.mul_lt_mul_of_pos_right (by omega) hD
    · rw [hdouble, ← Nat.mul_assoc]
      exact Nat.mul_le_mul_right _ (by omega)
  · have hadd : wrappingAdd 128 t l = t + l := wrappingAdd_of_lt (by omega)
    rw [if_neg (by omega), hadd]
    refine ⟨_, rfl, h.within (d := 64 - m) (k := 1) (by omega) (by omega) (by omega) (Nat.lt_add_of_pos_right ?_) le_rfl,
      rfl⟩
    exact Nat.mul_pos (by norm_num) (Nat.two_pow_pos _)

/-- A product with an integer below `2 ^ 11` is within a unit in the last place, also where its carry is rounded. -/
theorem V1.mulDint2_spec (ha : a.Normal) {n : Int64} (hn : n ≠ 0) (hlt : n.toInt.natAbs < 2 ^ 11) :
    ∃ r, V1.mulDint2 n a = some r ∧ r.wide.Within 128 1 (n.toInt * a.toRat) ∧
      r.sgn = (decide (n.toInt < 0) ^^ a.sgn) := by
  have hpos : 0 < n.toInt.natAbs := Int.natAbs_pos.2 fun h => hn (Int64.toInt_inj.1 h)
  obtain ⟨m, t, l, h⟩ := exists_shifted ha hpos (by omega)
  obtain ⟨L, hL, hl⟩ := Option.map_eq_some_iff.1 h.shl_low
  have ht := h.t_lt
  have hnormal := h.normal
  have hl65 := h.l_lt
  have hm := h.le
  rw [V1.mulDint2, if_neg hn]
  simp only [h.high, h.shl_high, hL, Option.bind_eq_bind, Option.bind_some, hl, sgn_mul_int,
    V1.addu128_eq (show l < 2 ^ 128 by omega) ht, decide_eq_true_eq]
  by_cases hcarry : 2 ^ 128 ≤ l + t
  · obtain ⟨s, hs⟩ : ∃ s, s = l + t - 2 ^ 128 := ⟨_, rfl⟩
    have hadd : wrappingAdd 128 l t = s := by rw [wrappingAdd_of_le (by omega) ht hcarry, hs]
    have hround : wrappingAdd 128 s (s &&& 0x1) = s + s % 2 := by
      rw [Nat.and_one_is_mod, wrappingAdd_of_lt (by omega)]
    have hor : 2 ^ 127 ||| (s + s % 2) / 2 = (l + t + s % 2) / 2 := by
      have := @or_carry 127 (l + t + s % 2) (by omega) (by omega)
      rwa [show l + t + s % 2 - 2 ^ (127 + 1) = s + s % 2 by omega] at this
    have hdouble : 2 ^ (65 - m) = 2 * 2 ^ (64 - m) := by rw [← pow_succ']; congr 1; omega
    rw [if_pos hcarry, hadd, hround, hor]
    refine ⟨_, rfl, h.within (d := 65 - m) (k := 1) (by omega) (by omega) (by omega) ?_ ?_, rfl⟩
    · rw [hdouble, ← Nat.mul_assoc, ← Nat.mul_assoc, ← Nat.add_mul]
      exact Nat.mul_lt_mul_of_pos_right (by omega) (Nat.two_pow_pos _)
    · rw [hdouble, ← Nat.mul_assoc]
      exact Nat.mul_le_mul_right _ (by omega)
  · have hadd : wrappingAdd 128 l t = t + l := by rw [wrappingAdd_of_lt (by omega), Nat.add_comm]
    rw [if_neg hcarry, hadd]
    refine ⟨_, rfl, h.within (d := 64 - m) (k := 1) (by omega) (by omega) (by omega) (Nat.lt_add_of_pos_right ?_) le_rfl,
      rfl⟩
    exact Nat.mul_pos (by norm_num) (Nat.two_pow_pos _)

end Dint

/-! ## Four words -/

section Qint

variable {a b : Qint} {t6 t5 k : Nat}

/-- Two halves that are shifted to the left together. -/
theorem wide_double {e : Int} {s : Bool} (h6 : t6 < 2 ^ 127) (h5 : t5 < 2 ^ 128) :
    (Qint.ofHalves (t6 * 2 % 2 ^ 128 ||| t5 / 2 ^ 127) (t5 * 2 % 2 ^ 128) e s).wide =
      ⟨s, 2 * (t6 * 2 ^ 128 + t5), e⟩ := by
  have hor : t6 * 2 % 2 ^ 128 ||| t5 / 2 ^ 127 = t6 * 2 + t5 / 2 ^ 127 := by
    have := @or_shl 128 t6 t5 1 h5 (by norm_num)
    rw [pow_one] at this
    rw [this, Nat.mod_eq_of_lt (by omega)]
  have hsig : (t6 * 2 + t5 / 2 ^ 127) * 2 ^ 128 + t5 * 2 % 2 ^ 128 = 2 * (t6 * 2 ^ 128 + t5) := by omega
  rw [hor, Qint.wide_ofHalves (by omega) (Nat.mod_lt _ (by norm_num)), hsig]

theorem finishProduct_wide (h6 : t6 < 2 ^ 128) (h5 : t5 < 2 ^ 128) :
    (finishProduct t6 t5 a b).wide = WideFloat.finishProduct 256 a.wide b.wide (t6 * 2 ^ 128 + t5) := by
  rw [finishProduct, WideFloat.finishProduct]
  by_cases hsmall : t6 < 2 ^ 127
  · have hex : t6 / 2 ^ 127 = 0 := by omega
    simp only [hex, if_true, ne_eq, one_ne_zero, not_false_eq_true]
    rw [wide_double hsmall h5, if_pos (by omega)]
    have hexp : a.ex + b.ex + 1 - ((1 : Nat) : Int) = a.ex + b.ex := by omega
    rw [hexp]
    rfl
  · have hex : t6 / 2 ^ 127 ≠ 0 := by omega
    simp only [if_neg hex, ne_eq, not_true_eq_false, if_false]
    rw [Qint.wide_ofHalves h6 h5, if_neg (by omega)]
    have hexp : a.ex + b.ex + 1 - ((0 : Nat) : Int) = a.ex + b.ex + 1 := by omega
    rw [hexp]
    rfl

/-- The sum of the products of words, column by column: `t4` and `t5` with their carries, and the words of the result
    from them. -/
def columns (r33 r32 r23 r31 r13 r22 t3 : Nat) : Nat × Nat :=
  let (t4, c4a) := addu128 r22 t3
  let (t4, c4b) := addu128 r13 t4
  let (t4, c4c) := addu128 r31 t4
  let c4 := c4a + c4b + c4c
  let (t5, c5a) := addu128 r23 (t4 / 2 ^ 64)
  let (t5, c5b) := addu128 r32 t5
  let c5 := c5a + c5b
  let t6 := wrappingAdd 128 (wrappingAdd 128 r33 (c5 * 2 ^ 64 ||| t5 / 2 ^ 64)) c4
  let t5 := t5 * 2 ^ 64 % 2 ^ 128 ||| (t4 &&& 0xffffffffffffffff)
  (t6, t5)

theorem low_words (t5 t4 : Nat) :
    t5 * 2 ^ 64 % 2 ^ 128 ||| (t4 &&& 0xffffffffffffffff) = t5 % 2 ^ 64 * 2 ^ 64 + t4 % 2 ^ 64 := by
  have hmask : t4 &&& 0xffffffffffffffff = t4 % 2 ^ 64 := Nat.and_two_pow_sub_one_eq_mod t4 64
  have hmod : t5 * 2 ^ 64 % 2 ^ 128 = t5 % 2 ^ 64 * 2 ^ 64 := by omega
  rw [hmask, hmod, V1.or_low (Nat.mod_lt _ (by norm_num))]

/-- Nothing is lost in the columns, as long as the sum fits. -/
theorem columns_eq {r33 r32 r23 r31 r13 r22 t3 : Nat} (h32 : r32 < 2 ^ 128) (h23 : r23 < 2 ^ 128) (h31 : r31 < 2 ^ 128)
    (h13 : r13 < 2 ^ 128) (h22 : r22 < 2 ^ 128) (h3 : t3 < 2 ^ 128)
    (hfit : r33 * 2 ^ 128 + (r32 + r23) * 2 ^ 64 + (r31 + r13 + r22 + t3) < 2 ^ 256) :
    (columns r33 r32 r23 r31 r13 r22 t3).1 < 2 ^ 128 ∧ (columns r33 r32 r23 r31 r13 r22 t3).2 < 2 ^ 128 ∧
      (columns r33 r32 r23 r31 r13 r22 t3).1 * 2 ^ 128 + (columns r33 r32 r23 r31 r13 r22 t3).2 =
        r33 * 2 ^ 128 + (r32 + r23) * 2 ^ 64 + (r31 + r13 + r22 + t3) := by
  rw [columns]
  obtain ⟨ha, ha'⟩ := addu128_eq h22 h3
  obtain ⟨hb, hb'⟩ := addu128_eq h13 ha
  obtain ⟨hc, hc'⟩ := addu128_eq h31 hb
  obtain ⟨t4, ht4⟩ : ∃ t4, t4 = addu128 r31 (addu128 r13 (addu128 r22 t3).1).1 := ⟨_, rfl⟩
  rw [← ht4] at hc hc'
  obtain ⟨hd, hd'⟩ := addu128_eq h23 (show t4.1 / 2 ^ 64 < 2 ^ 128 by omega)
  obtain ⟨he, he'⟩ := addu128_eq h32 hd
  obtain ⟨t5, ht5⟩ : ∃ t5, t5 = addu128 r32 (addu128 r23 (t4.1 / 2 ^ 64)).1 := ⟨_, rfl⟩
  rw [← ht5] at he he'
  simp only [← ht4, ← ht5, low_words]
  generalize (addu128 r22 t3).2 = c4a at *
  generalize (addu128 r13 (addu128 r22 t3).1).2 = c4b at *
  generalize (addu128 r13 (addu128 r22 t3).1).1 = s4 at *
  generalize (addu128 r22 t3).1 = s4' at *
  generalize (addu128 r23 (t4.1 / 2 ^ 64)).2 = c5a at *
  generalize (addu128 r23 (t4.1 / 2 ^ 64)).1 = s5 at *
  generalize t4.1 = x4 at *
  generalize t4.2 = c4c at *
  generalize t5.1 = x5 at *
  generalize t5.2 = c5b at *
  rw [V1.or_low (show x5 / 2 ^ 64 < 2 ^ 64 by omega), wrappingAdd_of_lt (show r33 + _ < 2 ^ 128 by omega),
    wrappingAdd_of_lt (by omega)]
  omega

theorem Qint.upperProduct {t : Nat} (hlo : 2 ^ 254 ≤ t) (hle : t * 2 ^ 256 ≤ a.r * b.r)
    (hlt : a.r * b.r < (t + k) * 2 ^ 256) : UpperProduct 256 a.wide b.wide k t := ⟨by norm_num, hlo, hle, hlt⟩

theorem sgn_finishProduct : (finishProduct t6 t5 a b).sgn = (a.sgn ^^ b.sgn) := rfl

/-- A product that keeps all but less than `k` units of the upper half. -/
theorem finishProduct_spec (ha : a.Normal) (hb : b.Normal) (h6 : t6 < 2 ^ 128) (h5 : t5 < 2 ^ 128)
    (h : UpperProduct 256 a.wide b.wide k (t6 * 2 ^ 128 + t5)) :
    (finishProduct t6 t5 a b).wide.Within 256 (2 * k : Nat) (a.toRat * b.toRat) ∧
      (finishProduct t6 t5 a b).sgn = (a.sgn ^^ b.sgn) := by
  refine ⟨?_, sgn_finishProduct⟩
  rw [finishProduct_wide h6 h5]
  exact truncated_product (Qint.normal_iff.1 ha) (Qint.normal_iff.1 hb) h

/-- A product whose lower half is zero. -/
theorem finishProduct_exact (ha : a.Normal) (hb : b.Normal) (h6 : t6 < 2 ^ 128) (h5 : t5 < 2 ^ 128)
    (h : (t6 * 2 ^ 128 + t5) * 2 ^ 256 = a.r * b.r) :
    (finishProduct t6 t5 a b).wide.Exactly 256 (a.toRat * b.toRat) ∧
      (finishProduct t6 t5 a b).sgn = (a.sgn ^^ b.sgn) := by
  refine ⟨?_, sgn_finishProduct⟩
  rw [finishProduct_wide h6 h5]
  exact exact_product (Qint.normal_iff.1 ha) (Qint.normal_iff.1 hb) (by norm_num) h

theorem Qint.hh_mul_hh (ha : a.Normal) (hb : b.Normal) : 2 ^ 126 ≤ mul64 a.hh b.hh := by
  calc 2 ^ 126 = 2 ^ 63 * 2 ^ 63 := by norm_num
    _ ≤ a.hh.toNat * b.hh.toNat := Nat.mul_le_mul ha hb

theorem mul64_le (x y : UInt64) : mul64 x y ≤ (2 ^ 64 - 1) * (2 ^ 64 - 1) := word_mul_le x y

/-- The product of two significands, from the products of their words: those of the upper half and the rest. -/
theorem Qint.r_mul_r (a b : Qint) : a.r * b.r =
    (mul64 a.hh b.hh * 2 ^ 128 + (mul64 a.hh b.hl + mul64 a.hl b.hh) * 2 ^ 64 +
      (mul64 a.hh b.lh + mul64 a.lh b.hh + mul64 a.hl b.hl)) * 2 ^ 256 +
      ((mul64 a.lh b.hl + mul64 a.hl b.lh + mul64 a.ll b.hh + mul64 a.hh b.ll) * 2 ^ 192 +
      (mul64 a.hl b.ll + mul64 a.ll b.hl + mul64 a.lh b.lh) * 2 ^ 128 +
      (mul64 a.lh b.ll + mul64 a.ll b.lh) * 2 ^ 64 + mul64 a.ll b.ll) := by
  have h₂ : 2 ^ 128 = 2 ^ 64 * 2 ^ 64 := by norm_num
  have h₃ : 2 ^ 192 = 2 ^ 64 * 2 ^ 64 * 2 ^ 64 := by norm_num
  have h₄ : 2 ^ 256 = 2 ^ 64 * 2 ^ 64 * (2 ^ 64 * 2 ^ 64) := by norm_num
  simp only [Qint.r, Qint.rh, Qint.rl, mul64, h₂, h₃, h₄]
  generalize 2 ^ 64 = B
  ring

/-- An upper half whose sum is the words that are read, but for the last column. -/
theorem columns_spec {V S t3 : Nat} (ha : a.Normal) (hb : b.Normal) (hprod : a.r * b.r = V * 2 ^ 256 + S)
    (hV : 2 ^ 254 ≤ V) (hle : t3 * 2 ^ 256 ≤ S) (hlt : S < (t3 + k) * 2 ^ 256) (h6 : t6 < 2 ^ 128) (h5 : t5 < 2 ^ 128)
    (hsum : t6 * 2 ^ 128 + t5 = V + t3) :
    (finishProduct t6 t5 a b).wide.Within 256 (2 * k : Nat) (a.toRat * b.toRat) ∧
      (finishProduct t6 t5 a b).sgn = (a.sgn ^^ b.sgn) := by
  refine finishProduct_spec ha hb h6 h5 ?_
  rw [hsum]
  refine Qint.upperProduct (by omega) ?_ ?_
  · rw [hprod, Nat.add_mul]
    exact Nat.add_le_add_left hle _
  · rw [hprod, Nat.add_assoc, Nat.add_mul]
    exact Nat.add_lt_add_left hlt _

/-- The words of the upper half fit. -/
theorem columns_fit {V S t3 : Nat} (hprod : a.r * b.r = V * 2 ^ 256 + S) (hle : t3 * 2 ^ 256 ≤ S) :
    V + t3 < 2 ^ 256 := by
  refine Nat.lt_of_mul_lt_mul_right (a := 2 ^ 256) ?_
  calc (V + t3) * 2 ^ 256 ≤ a.r * b.r := by rw [hprod, Nat.add_mul]; exact Nat.add_le_add_left hle _
    _ < 2 ^ 256 * 2 ^ 256 := Nat.mul_lt_mul'' Qint.r_lt Qint.r_lt

/-- A last column from its upper words, and what it loses. -/
theorem last_column {T t3 j m rest : Nat} (hle : t3 * 2 ^ 64 ≤ T) (hlt : T < (t3 + j) * 2 ^ 64)
    (hrest : rest < m * 2 ^ 256 + 2 ^ 192) :
    t3 * 2 ^ 256 ≤ T * 2 ^ 192 + rest ∧ T * 2 ^ 192 + rest < (t3 + (j + m)) * 2 ^ 256 := by
  have hpow : 2 ^ 256 = 2 ^ 64 * 2 ^ 192 := by norm_num
  constructor
  · calc t3 * 2 ^ 256 = t3 * 2 ^ 64 * 2 ^ 192 := by rw [hpow, Nat.mul_assoc]
      _ ≤ T * 2 ^ 192 + rest := Nat.le_add_right_of_le (Nat.mul_le_mul_right _ hle)
  · calc T * 2 ^ 192 + rest < T * 2 ^ 192 + (m * 2 ^ 256 + 2 ^ 192) := Nat.add_lt_add_left hrest _
      _ = (T + 1) * 2 ^ 192 + m * 2 ^ 256 := by ring
      _ ≤ (t3 + j) * 2 ^ 64 * 2 ^ 192 + m * 2 ^ 256 := Nat.add_le_add_right (Nat.mul_le_mul_right _ hlt) _
      _ = (t3 + (j + m)) * 2 ^ 256 := by rw [Nat.mul_assoc, ← hpow, ← Nat.add_mul, Nat.add_assoc]

/-- A product with three columns of words that are read as they are, and a last one of which the upper words are. -/
theorem columns_within {r33 r32 r23 r31 r13 r22 t3 T rest j m : Nat} (ha : a.Normal) (hb : b.Normal)
    (h33 : 2 ^ 126 ≤ r33) (h32 : r32 < 2 ^ 128) (h23 : r23 < 2 ^ 128) (h31 : r31 < 2 ^ 128) (h13 : r13 < 2 ^ 128)
    (h22 : r22 < 2 ^ 128) (h3 : t3 < 2 ^ 128)
    (hprod : a.r * b.r = (r33 * 2 ^ 128 + (r32 + r23) * 2 ^ 64 + (r31 + r13 + r22)) * 2 ^ 256 + (T * 2 ^ 192 + rest))
    (hle : t3 * 2 ^ 64 ≤ T) (hlt : T < (t3 + j) * 2 ^ 64) (hrest : rest < m * 2 ^ 256 + 2 ^ 192) :
    (finishProduct (columns r33 r32 r23 r31 r13 r22 t3).1 (columns r33 r32 r23 r31 r13 r22 t3).2 a b).wide.Within 256
      (2 * (j + m) : Nat) (a.toRat * b.toRat) ∧
    (finishProduct (columns r33 r32 r23 r31 r13 r22 t3).1 (columns r33 r32 r23 r31 r13 r22 t3).2 a b).sgn =
      (a.sgn ^^ b.sgn) := by
  obtain ⟨hle', hlt'⟩ := last_column hle hlt hrest
  have hfit := columns_fit hprod hle'
  obtain ⟨h6, h5, hsum⟩ := @columns_eq r33 r32 r23 r31 r13 r22 t3 h32 h23 h31 h13 h22 h3
    (by rw [← Nat.add_assoc]; exact hfit)
  refine columns_spec ha hb hprod ?_ hle' hlt' h6 h5 ?_
  · clear * - h33
    omega
  · rw [hsum, Nat.add_assoc]
    ring

/-- A product of which all words are read. -/
theorem columns_exact {r33 r32 r23 r31 r13 r22 : Nat} (ha : a.Normal) (hb : b.Normal) (h32 : r32 < 2 ^ 128)
    (h23 : r23 < 2 ^ 128) (h31 : r31 < 2 ^ 128) (h13 : r13 < 2 ^ 128) (h22 : r22 < 2 ^ 128)
    (hprod : a.r * b.r = (r33 * 2 ^ 128 + (r32 + r23) * 2 ^ 64 + (r31 + r13 + r22)) * 2 ^ 256) :
    (finishProduct (columns r33 r32 r23 r31 r13 r22 0).1 (columns r33 r32 r23 r31 r13 r22 0).2 a b).wide.Exactly 256
      (a.toRat * b.toRat) ∧
    (finishProduct (columns r33 r32 r23 r31 r13 r22 0).1 (columns r33 r32 r23 r31 r13 r22 0).2 a b).sgn =
      (a.sgn ^^ b.sgn) := by
  have hfit := @columns_fit a b _ 0 0 (by rw [hprod, Nat.add_zero]) (Nat.zero_mul _).le
  obtain ⟨h6, h5, hsum⟩ := @columns_eq r33 r32 r23 r31 r13 r22 0 h32 h23 h31 h13 h22 (by norm_num)
    (by rw [← Nat.add_assoc]; exact hfit)
  exact finishProduct_exact ha hb h6 h5 (by rw [hsum, hprod, Nat.add_zero])

theorem mul64_lt (x y : UInt64) : mul64 x y < 2 ^ 128 := (mul64_le x y).trans_lt (by norm_num)

theorem mulQint_spec (ha : a.Normal) (hb : b.Normal) :
    (mulQint a b).wide.Within 256 14 (a.toRat * b.toRat) ∧ (mulQint a b).sgn = (a.sgn ^^ b.sgn) := by
  have hprod : a.r * b.r = (mul64 a.hh b.hh * 2 ^ 128 + (mul64 a.hh b.hl + mul64 a.hl b.hh) * 2 ^ 64 +
      (mul64 a.hh b.lh + mul64 a.lh b.hh + mul64 a.hl b.hl)) * 2 ^ 256 +
      ((mul64 a.lh b.hl + mul64 a.hl b.lh + mul64 a.ll b.hh + mul64 a.hh b.ll) * 2 ^ 192 +
      ((mul64 a.hl b.ll + mul64 a.ll b.hl + mul64 a.lh b.lh) * 2 ^ 128 +
      (mul64 a.lh b.ll + mul64 a.ll b.lh) * 2 ^ 64 + mul64 a.ll b.ll)) := by
    rw [Qint.r_mul_r]
    ring
  have h20 := mul64_le a.hl b.ll
  have h02 := mul64_le a.ll b.hl
  have h11 := mul64_le a.lh b.lh
  have h10 := mul64_le a.lh b.ll
  have h01 := mul64_le a.ll b.lh
  have h00 := mul64_le a.ll b.ll
  have h30 := mul64_lt a.hh b.ll
  have h03 := mul64_lt a.ll b.hh
  have h21 := mul64_lt a.hl b.lh
  have h12 := mul64_lt a.lh b.hl
  refine columns_within (j := 4) (m := 3) ha hb (Qint.hh_mul_hh ha hb) (mul64_lt _ _) (mul64_lt _ _) (mul64_lt _ _)
    (mul64_lt _ _) (mul64_lt _ _) ?_ hprod ?_ ?_ ?_
  · clear * - h30 h03 h21 h12
    omega
  · clear * -
    omega
  · clear * -
    omega
  · clear * - h20 h02 h11 h10 h01 h00
    omega

/-! ### The words that are read -/

theorem Qint.Normal.upper (ha : a.Normal) (n : Nat) : (a.upper n).Normal := ha

/-- A word that is not read. -/
@[simp] theorem mul64_zero (x : UInt64) : mul64 x 0 = 0 := Nat.mul_zero _

@[simp] theorem zero_mul64 (x : UInt64) : mul64 0 x = 0 := Nat.zero_mul _

theorem addu128_zero_left {x : Nat} (hx : x < 2 ^ 128) : addu128 0 x = (x, 0) := by
  rw [addu128, wrappingAdd_of_lt (by omega), Nat.zero_add]
  rfl

theorem addu128_zero_right {x : Nat} (hx : x < 2 ^ 128) : addu128 x 0 = (x, 0) := by
  rw [addu128, wrappingAdd_of_lt (by omega), Nat.add_zero]
  simp only [lt_irrefl, if_false]

theorem finishProduct_upper (m n : Nat) : finishProduct t6 t5 a b = finishProduct t6 t5 (a.upper m) (b.upper n) := rfl

theorem finishProduct_upper_right (n : Nat) : finishProduct t6 t5 a b = finishProduct t6 t5 a (b.upper n) := rfl

theorem mulQint33_spec (ha : a.Normal) (hb : b.Normal) :
    (mulQint33 a b).wide.Within 256 6 ((a.upper 3).toRat * (b.upper 3).toRat) ∧
      (mulQint33 a b).sgn = (a.sgn ^^ b.sgn) := by
  have hprod : (a.upper 3).r * (b.upper 3).r = (mul64 a.hh b.hh * 2 ^ 128 +
      (mul64 a.hh b.hl + mul64 a.hl b.hh) * 2 ^ 64 + (mul64 a.hh b.lh + mul64 a.lh b.hh + mul64 a.hl b.hl)) * 2 ^ 256 +
      ((mul64 a.lh b.hl + mul64 a.hl b.lh) * 2 ^ 192 + mul64 a.lh b.lh * 2 ^ 128) := by
    rw [Qint.r_mul_r]
    simp [Qint.upper]
  have hmul : mulQint33 a b = finishProduct (columns (mul64 a.hh b.hh) (mul64 a.hh b.hl) (mul64 a.hl b.hh)
      (mul64 a.hh b.lh) (mul64 a.lh b.hh) (mul64 a.hl b.hl) (mul64 a.lh b.hl / 2 ^ 64 + mul64 a.hl b.lh / 2 ^ 64)).1
      (columns (mul64 a.hh b.hh) (mul64 a.hh b.hl) (mul64 a.hl b.hh) (mul64 a.hh b.lh) (mul64 a.lh b.hh)
      (mul64 a.hl b.hl) (mul64 a.lh b.hl / 2 ^ 64 + mul64 a.hl b.lh / 2 ^ 64)).2 a b := rfl
  have h11 := mul64_lt a.lh b.lh
  have h21 := mul64_lt a.hl b.lh
  have h12 := mul64_lt a.lh b.hl
  rw [hmul, finishProduct_upper 3 3]
  refine columns_within (a := a.upper 3) (b := b.upper 3) (j := 2) (m := 1) (ha.upper 3) (hb.upper 3)
    (Qint.hh_mul_hh ha hb) (mul64_lt _ _) (mul64_lt _ _) (mul64_lt _ _) (mul64_lt _ _) (mul64_lt _ _) ?_ hprod ?_ ?_ ?_
  · clear * - h21 h12
    omega
  · clear * -
    omega
  · clear * -
    omega
  · clear * - h11
    omega

theorem addu128_lt {x y : Nat} : (addu128 x y).1 < 2 ^ 128 := wrappingAdd_lt

theorem wrappingAdd_zero (x y : Nat) : wrappingAdd 128 (wrappingAdd 128 x y) 0 = wrappingAdd 128 x y :=
  wrappingAdd_of_lt wrappingAdd_lt

/-- The columns of a product with a single word. -/
theorem columns_word {r33 r23 r13 t3 t4 c4 t5 c5 : Nat} (h3 : t3 < 2 ^ 128) (h4 : addu128 r13 t3 = (t4, c4))
    (h5 : addu128 r23 (t4 / 2 ^ 64) = (t5, c5)) :
    columns r33 0 r23 0 r13 0 t3 = (wrappingAdd 128 (wrappingAdd 128 r33 (c5 * 2 ^ 64 ||| t5 / 2 ^ 64)) c4,
      t5 * 2 ^ 64 % 2 ^ 128 ||| (t4 &&& 0xffffffffffffffff)) := by
  have ht4 : t4 < 2 ^ 128 := by
    rw [← show (addu128 r13 t3).1 = t4 by rw [h4]]
    exact addu128_lt
  have ht5 : t5 < 2 ^ 128 := by
    rw [← show (addu128 r23 (t4 / 2 ^ 64)).1 = t5 by rw [h5]]
    exact addu128_lt
  simp only [columns, addu128_zero_left h3, h4, addu128_zero_left ht4, h5, addu128_zero_left ht5, Nat.zero_add,
    Nat.add_zero]

theorem mulQint41_spec (ha : a.Normal) (hb : b.Normal) :
    (mulQint41 a b).wide.Within 256 2 (a.toRat * (b.upper 1).toRat) ∧ (mulQint41 a b).sgn = (a.sgn ^^ b.sgn) := by
  have hprod : a.r * (b.upper 1).r = (mul64 a.hh b.hh * 2 ^ 128 + (0 + mul64 a.hl b.hh) * 2 ^ 64 +
      (0 + mul64 a.lh b.hh + 0)) * 2 ^ 256 + (mul64 a.ll b.hh * 2 ^ 192 + 0) := by
    rw [Qint.r_mul_r]
    simp [Qint.upper]
  have h03 := mul64_lt a.ll b.hh
  have h3 : mul64 a.ll b.hh / 2 ^ 64 < 2 ^ 128 := (Nat.div_le_self _ _).trans_lt h03
  have hmul : mulQint41 a b = finishProduct (columns (mul64 a.hh b.hh) 0 (mul64 a.hl b.hh) 0 (mul64 a.lh b.hh) 0
      (mul64 a.ll b.hh / 2 ^ 64)).1 (columns (mul64 a.hh b.hh) 0 (mul64 a.hl b.hh) 0 (mul64 a.lh b.hh) 0
      (mul64 a.ll b.hh / 2 ^ 64)).2 a b := by
    obtain ⟨⟨t4, c4⟩, h4⟩ : ∃ x, addu128 (mul64 a.lh b.hh) (mul64 a.ll b.hh / 2 ^ 64) = x := ⟨_, rfl⟩
    obtain ⟨⟨t5, c5⟩, h5⟩ : ∃ x, addu128 (mul64 a.hl b.hh) (t4 / 2 ^ 64) = x := ⟨_, rfl⟩
    simp only [mulQint41, columns_word h3 h4 h5, h4, h5]
  rw [hmul, finishProduct_upper_right 1]
  refine columns_within (b := b.upper 1) (j := 1) (m := 0) ha (hb.upper 1) (Qint.hh_mul_hh ha hb) (by norm_num)
    (mul64_lt _ _) (by norm_num) (mul64_lt _ _) (by norm_num) h3 hprod ?_ ?_ (by norm_num)
  · exact Nat.div_mul_le_self _ _
  · rw [Nat.add_mul, Nat.one_mul]
    exact Nat.lt_div_mul_add (by norm_num)

theorem mulQint31_spec (ha : a.Normal) (hb : b.Normal) :
    (mulQint31 a b).wide.Exactly 256 ((a.upper 3).toRat * (b.upper 1).toRat) ∧
      (mulQint31 a b).sgn = (a.sgn ^^ b.sgn) := by
  have hprod : (a.upper 3).r * (b.upper 1).r = (mul64 a.hh b.hh * 2 ^ 128 + (0 + mul64 a.hl b.hh) * 2 ^ 64 +
      (0 + mul64 a.lh b.hh + 0)) * 2 ^ 256 := by
    rw [Qint.r_mul_r]
    simp [Qint.upper]
  have hmul : mulQint31 a b = finishProduct (columns (mul64 a.hh b.hh) 0 (mul64 a.hl b.hh) 0 (mul64 a.lh b.hh) 0 0).1
      (columns (mul64 a.hh b.hh) 0 (mul64 a.hl b.hh) 0 (mul64 a.lh b.hh) 0 0).2 a b := by
    obtain ⟨⟨t5, c5⟩, h5⟩ : ∃ x, addu128 (mul64 a.hl b.hh) (mul64 a.lh b.hh / 2 ^ 64) = x := ⟨_, rfl⟩
    simp only [mulQint31, columns_word (Nat.two_pow_pos _) (addu128_zero_right (mul64_lt _ _)) h5, h5, wrappingAdd_zero]
  rw [hmul, finishProduct_upper 3 1]
  exact columns_exact (ha.upper 3) (hb.upper 1) (by norm_num) (mul64_lt _ _) (by norm_num) (mul64_lt _ _) (by norm_num)
    hprod

theorem mulQint22_spec (ha : a.Normal) (hb : b.Normal) :
    (mulQint22 a b).wide.Exactly 256 ((a.upper 2).toRat * (b.upper 2).toRat) ∧
      (mulQint22 a b).sgn = (a.sgn ^^ b.sgn) := by
  have hprod : (a.upper 2).r * (b.upper 2).r = (mul64 a.hh b.hh * 2 ^ 128 +
      (mul64 a.hh b.hl + mul64 a.hl b.hh) * 2 ^ 64 + (0 + 0 + mul64 a.hl b.hl)) * 2 ^ 256 := by
    rw [Qint.r_mul_r]
    simp [Qint.upper]
  have hmul : mulQint22 a b = finishProduct (columns (mul64 a.hh b.hh) (mul64 a.hh b.hl) (mul64 a.hl b.hh) 0 0
      (mul64 a.hl b.hl) 0).1 (columns (mul64 a.hh b.hh) (mul64 a.hh b.hl) (mul64 a.hl b.hh) 0 0
      (mul64 a.hl b.hl) 0).2 a b := by
    simp only [mulQint22, columns, addu128_zero_right (mul64_lt _ _), addu128_zero_left (mul64_lt _ _), Nat.add_zero,
      wrappingAdd_zero]
  rw [hmul, finishProduct_upper 2 2]
  exact columns_exact (ha.upper 2) (hb.upper 2) (mul64_lt _ _) (mul64_lt _ _) (by norm_num) (by norm_num) (mul64_lt _ _)
    hprod

theorem mulQint21_spec (ha : a.Normal) (hb : b.Normal) :
    (mulQint21 a b).wide.Exactly 256 ((a.upper 2).toRat * (b.upper 1).toRat) ∧
      (mulQint21 a b).sgn = (a.sgn ^^ b.sgn) := by
  have hprod : (a.upper 2).r * (b.upper 1).r = (mul64 a.hh b.hh * 2 ^ 128 + (0 + mul64 a.hl b.hh) * 2 ^ 64 +
      (0 + 0 + 0)) * 2 ^ 256 := by
    rw [Qint.r_mul_r]
    simp [Qint.upper]
  have hmul : mulQint21 a b = finishProduct (columns (mul64 a.hh b.hh) 0 (mul64 a.hl b.hh) 0 0 0 0).1
      (columns (mul64 a.hh b.hh) 0 (mul64 a.hl b.hh) 0 0 0 0).2 a b := by
    have hzero : (0 : Nat) / 2 ^ 64 = 0 := Nat.zero_div _
    have h4 := @addu128_zero_right 0 (Nat.two_pow_pos _)
    have h5 := @addu128_zero_right (mul64 a.hl b.hh) (mul64_lt _ _)
    rw [← hzero] at h5
    simp only [mulQint21, columns_word (Nat.two_pow_pos _) h4 h5, hzero, wrappingAdd_zero, Nat.zero_mul, Nat.zero_or,
      Nat.zero_and, Nat.or_zero]
  rw [hmul, finishProduct_upper 2 1]
  exact columns_exact (ha.upper 2) (hb.upper 1) (by norm_num) (mul64_lt _ _) (by norm_num) (by norm_num) (by norm_num)
    hprod

theorem mulQint11_spec (ha : a.Normal) (hb : b.Normal) :
    ∃ r, mulQint11 a b = some r ∧ r.wide.Exactly 256 ((a.upper 1).toRat * (b.upper 1).toRat) ∧
      r.sgn = (a.sgn ^^ b.sgn) := by
  have hprod : (mul64 a.hh b.hh * 2 ^ 128 + 0) * 2 ^ 256 = (a.upper 1).r * (b.upper 1).r := by
    rw [Qint.r_mul_r]
    simp [Qint.upper]
  have h33 := Qint.hh_mul_hh ha hb
  have hlt := mul64_lt a.hh b.hh
  refine ⟨finishProduct (mul64 a.hh b.hh) 0 a b, ?_, ?_⟩
  · obtain ⟨t6, ht6⟩ : ∃ t6, t6 = mul64 a.hh b.hh := ⟨_, rfl⟩
    rw [← ht6] at h33 hlt
    rw [mulQint11, finishProduct, ← ht6]
    by_cases hsmall : t6 / 2 ^ 127 = 0
    · have hshl : shl 128 t6 (1 : Nat) = some (t6 * 2 ^ 1) := shl_of_lt (by norm_num) (by omega)
      rw [pow_one] at hshl
      have hmod : t6 * 2 % 2 ^ 128 = t6 * 2 := Nat.mod_eq_of_lt (by omega)
      have hzero : (0 : Nat) / 2 ^ 127 = 0 := Nat.zero_div _
      simp only [if_pos hsmall, hshl, hmod, hzero, Nat.or_zero, Nat.zero_mul, Nat.zero_mod, Option.bind_eq_bind,
        Option.bind_some, ne_eq, one_ne_zero, not_false_eq_true, if_true]
    · have hshl : shl 128 t6 (0 : Nat) = some (t6 * 2 ^ 0) := shl_of_lt (by norm_num) (by omega)
      rw [pow_zero, Nat.mul_one] at hshl
      simp only [if_neg hsmall, hshl, Option.bind_eq_bind, Option.bind_some, ne_eq, not_true_eq_false, if_false]
  · rw [finishProduct_upper 1 1]
    exact finishProduct_exact (ha.upper 1) (hb.upper 1) (mul64_lt _ _) (by norm_num) hprod

/-! ### Integers -/

/-- The words of a significand times a word, less the last one. -/
theorem word_columns {t3 t2 t1 t0 : Nat} (h3 : t3 ≤ (2 ^ 64 - 1) * (2 ^ 64 - 1)) (h2 : t2 ≤ (2 ^ 64 - 1) * (2 ^ 64 - 1))
    (h1 : t1 ≤ (2 ^ 64 - 1) * (2 ^ 64 - 1)) (h0 : t0 ≤ (2 ^ 64 - 1) * (2 ^ 64 - 1)) :
    ∃ s1 c1 s2 c2, addu128 (t0 / 2 ^ 64) t1 = (s1, c1) ∧ addu128 (c1 * 2 ^ 64 ||| s1 / 2 ^ 64) t2 = (s2, c2) ∧
      wrappingAdd 128 t3 (c2 * 2 ^ 64 ||| s2 / 2 ^ 64) < 2 ^ 128 ∧
      s2 * 2 ^ 64 % 2 ^ 128 ||| (s1 &&& 0xffffffffffffffff) < 2 ^ 128 ∧
      wrappingAdd 128 t3 (c2 * 2 ^ 64 ||| s2 / 2 ^ 64) * 2 ^ 128 +
        (s2 * 2 ^ 64 % 2 ^ 128 ||| (s1 &&& 0xffffffffffffffff)) =
        t3 * 2 ^ 128 + t2 * 2 ^ 64 + t1 + t0 / 2 ^ 64 := by
  obtain ⟨⟨s1, c1⟩, hs1⟩ : ∃ x, addu128 (t0 / 2 ^ 64) t1 = x := ⟨_, rfl⟩
  obtain ⟨hlt1, hsum1⟩ := @addu128_eq (t0 / 2 ^ 64) t1 (by omega) (by omega)
  rw [hs1] at hlt1 hsum1
  dsimp only at hlt1 hsum1
  have hor1 : c1 * 2 ^ 64 ||| s1 / 2 ^ 64 = c1 * 2 ^ 64 + s1 / 2 ^ 64 := V1.or_low (by omega)
  obtain ⟨⟨s2, c2⟩, hs2⟩ : ∃ x, addu128 (c1 * 2 ^ 64 ||| s1 / 2 ^ 64) t2 = x := ⟨_, rfl⟩
  obtain ⟨hlt2, hsum2⟩ := @addu128_eq (c1 * 2 ^ 64 ||| s1 / 2 ^ 64) t2 (by omega) (by omega)
  rw [hs2] at hlt2 hsum2
  rw [hor1] at hsum2
  dsimp only at hlt2 hsum2
  refine ⟨s1, c1, s2, c2, hs1, hs2, wrappingAdd_lt, ?_⟩
  rw [low_words, V1.or_low (show s2 / 2 ^ 64 < 2 ^ 64 by omega), wrappingAdd_of_lt (by omega)]
  omega

/-- The first words of a product with a scaled integer, in units of the product with the integer itself. -/
theorem upper_words {R c k n r : Nat} (hk : k ≤ 64) (hc : c = n * 2 ^ k) (hlo : R * 2 ^ 64 ≤ r * c)
    (hhi : r * c < (R + 1) * 2 ^ 64) : R * 2 ^ (64 - k) ≤ n * r ∧ n * r < (R + 1) * 2 ^ (64 - k) := by
  have hpow : 2 ^ 64 = 2 ^ (64 - k) * 2 ^ k := by rw [← pow_add]; congr 1; omega
  have hscale : r * c = n * r * 2 ^ k := by rw [hc]; ring
  rw [hscale, hpow, ← Nat.mul_assoc] at hlo hhi
  exact ⟨Nat.le_of_mul_le_mul_right hlo (Nat.two_pow_pos k), Nat.lt_of_mul_lt_mul_right hhi⟩

/-- A result with the first words of a product with an integer, or with them shifted by one. -/
theorem Qint.scaled {n : Int} {R d j : Nat} {e : Int} (he : e = a.ex + d) (hj : j = 1 ∨ j = 2)
    (hlo : 2 ^ 255 ≤ j * R) (hhi : j * R < 2 ^ 256) (hle : R * (j * 2 ^ d) ≤ n.natAbs * a.r)
    (hlt : n.natAbs * a.r < (R + 1) * (j * 2 ^ d)) :
    (⟨decide (n < 0) ^^ a.sgn, j * R, e⟩ : WideFloat).Within 256 2 (n * a.toRat) := by
  have hpos := Nat.two_pow_pos d
  refine @scaled_within 256 a.wide _ n d 2 rfl he ⟨hlo, hhi⟩ ?_ ?_
  · refine lt_of_le_of_lt ?_ (Nat.lt_add_of_pos_right (Nat.mul_pos (by norm_num) hpos))
    calc j * R * 2 ^ d = R * (j * 2 ^ d) := by ring
      _ ≤ n.natAbs * a.r := hle
  · refine lt_of_lt_of_le hlt ?_
    calc (R + 1) * (j * 2 ^ d) = (j * R + j) * 2 ^ d := by ring
      _ ≤ (j * R + 2) * 2 ^ d := Nat.mul_le_mul_right _ (by omega)

/-- The words of a product with a scaled integer: the first four of five, shifted so that the first bit is set. -/
theorem wide_mulScaled {c : Nat} {e : Int} {s : Bool} (ha : a.Normal) (hclo : 2 ^ 63 ≤ c) (hchi : c < 2 ^ 64) :
    ∃ R, R * 2 ^ 64 ≤ a.r * c ∧ a.r * c < (R + 1) * 2 ^ 64 ∧ 2 ^ 254 ≤ R ∧ R < 2 ^ 256 ∧
      (mulScaled a c e s).wide = if R < 2 ^ 255 then ⟨s, 2 * R, e - 1⟩ else ⟨s, 1 * R, e⟩ := by
  have hword (x : UInt64) : x.toNat * c ≤ (2 ^ 64 - 1) * (2 ^ 64 - 1) :=
    Nat.mul_le_mul (Nat.le_sub_one_of_lt x.toNat_lt) (Nat.le_sub_one_of_lt hchi)
  have hhh : 2 ^ 126 ≤ a.hh.toNat * c := by
    calc 2 ^ 126 = 2 ^ 63 * 2 ^ 63 := by norm_num
      _ ≤ a.hh.toNat * c := Nat.mul_le_mul ha hclo
  have hprod : a.r * c = (a.hh.toNat * c * 2 ^ 128 + a.hl.toNat * c * 2 ^ 64 + a.lh.toNat * c) * 2 ^ 64 +
      a.ll.toNat * c := by
    rw [Qint.r, Qint.rh, Qint.rl]
    ring
  obtain ⟨s1, c1, s2, c2, hs1, hs2, hlt3, hlt2, hsum⟩ :=
    word_columns (hword a.hh) (hword a.hl) (hword a.lh) (hword a.ll)
  rw [mulScaled]
  simp only [hs1, hs2]
  clear hs1 hs2 hword
  generalize wrappingAdd 128 (a.hh.toNat * c) (c2 * 2 ^ 64 ||| s2 / 2 ^ 64) = t3 at *
  generalize s2 * 2 ^ 64 % 2 ^ 128 ||| (s1 &&& 0xffffffffffffffff) = t2 at *
  rw [hprod]
  generalize a.hh.toNat * c = u3 at *
  generalize a.hl.toNat * c = u2 at *
  generalize a.lh.toNat * c = u1 at *
  generalize a.ll.toNat * c = u0 at *
  clear hprod
  refine ⟨t3 * 2 ^ 128 + t2, by omega, by omega, by omega, by omega, ?_⟩
  by_cases htop : t3 < 2 ^ 127
  · have hlz : clz 64 (t3 / 2 ^ 64) ≠ 0 := by
      rw [@clz_eq 64 (t3 / 2 ^ 64) 1 (by omega) (by omega) (by norm_num)]
      norm_num
    rw [if_pos hlz, if_pos (by omega), wide_double htop hlt2]
  · have hlz : clz 64 (t3 / 2 ^ 64) = 0 := clz_eq_zero (by norm_num) (by omega) (by omega)
    rw [if_neg (not_not.2 hlz), if_neg (by omega), Qint.wide_ofHalves hlt3 hlt2, Nat.one_mul]

theorem sgn_mulScaled {c : Nat} {e : Int} {s : Bool} : (mulScaled a c e s).sgn = s := by
  rw [mulScaled]
  dsimp only
  split <;> rfl

/-- A product with an integer is within two units in the last place. -/
theorem mulQint2_spec (ha : a.Normal) {n : Int64} (hn : n ≠ 0) :
    ∃ r, mulQint2 n a = some r ∧ r.wide.Within 256 2 (n.toInt * a.toRat) ∧
      r.sgn = (decide (n.toInt < 0) ^^ a.sgn) := by
  have hpos : 0 < n.toInt.natAbs := Int.natAbs_pos.2 fun h => hn (Int64.toInt_inj.1 h)
  have hneg : decide (n < 0) = decide (n.toInt < 0) := decide_eq_decide.2 Int64.lt_iff_toInt_lt
  have hlt : n.toInt.natAbs < 2 ^ 64 := by
    have := n.toInt_lt
    have := n.le_toInt
    omega
  have ha' := Qint.normal_iff.1 ha
  rw [mulQint2, if_neg hn]
  by_cases hone : n.toInt.natAbs = 1
  · refine ⟨{ a with sgn := decide (n.toInt < 0) ^^ a.sgn }, by simp only [if_pos hone, hneg], ?_, rfl⟩
    have hscaled := @Qint.scaled a n.toInt a.r 0 1 a.ex (by simp) (Or.inl rfl) (by rw [Nat.one_mul]; exact ha'.1)
      (by rw [Nat.one_mul]; exact ha'.2) (by rw [hone, pow_zero, Nat.mul_one, Nat.mul_one, Nat.one_mul])
      (by rw [hone, pow_zero, Nat.mul_one, Nat.mul_one, Nat.one_mul]; exact Nat.lt_succ_self _)
    rw [Nat.one_mul] at hscaled
    exact hscaled
  obtain ⟨hk, hclo, hchi⟩ := clz_spec hpos hlt
  obtain ⟨k, hkdef⟩ : ∃ k, k = clz 64 n.toInt.natAbs := ⟨_, rfl⟩
  rw [← hkdef] at hk hclo hchi
  have hshl : shl 64 n.toInt.natAbs k = some (n.toInt.natAbs * 2 ^ k) := shl_of_lt hk hchi
  simp only [if_neg hone, hneg, ← hkdef, hshl, Option.bind_eq_bind, Option.bind_some]
  refine ⟨_, rfl, ?_, sgn_mulScaled⟩
  obtain ⟨R, hRlo, hRhi, h254, h256, hwide⟩ := wide_mulScaled (e := a.ex + 64 - (k : Int))
    (s := decide (n.toInt < 0) ^^ a.sgn) ha hclo hchi
  obtain ⟨hlo, hhi⟩ := upper_words hk.le rfl hRlo hRhi
  rw [hwide]
  split
  · have hhalf : 2 ^ (64 - k) = 2 * 2 ^ (63 - k) := by rw [← pow_succ']; congr 1; omega
    have hexp : a.ex + 64 - (k : Int) - 1 = a.ex + ((63 - k : Nat) : Int) := by omega
    rw [hhalf] at hlo hhi
    exact Qint.scaled hexp (Or.inr rfl) (by omega) (by omega) hlo hhi
  · have hexp : a.ex + 64 - (k : Int) = a.ex + ((64 - k : Nat) : Int) := by omega
    rw [← Nat.one_mul (2 ^ (64 - k))] at hlo hhi
    exact Qint.scaled hexp (Or.inl rfl) (by omega) (by omega) hlo hhi

end Qint

/-! ## The bounds -/

/-- The products of two numbers of two words: normalised, with their sign, and within some units in the last place. -/
structure DintProducts (a b : Dint) : Prop where
  log : (V1.mulDint a b).wide.Within 128 3 (a.toRat * b.toRat) ∧ (V1.mulDint a b).sgn = (a.sgn ^^ b.sgn)
  pow : ∃ r, V2.mulDint a b = some r ∧ r.wide.Within 128 6 (a.toRat * b.toRat) ∧ r.sgn = (a.sgn ^^ b.sgn)
  pow21 : b.lo = 0 →
    ∃ r, V2.mulDint21 a b = some r ∧ r.wide.Within 128 2 (a.toRat * b.toRat) ∧ r.sgn = (a.sgn ^^ b.sgn)
  pow11 : a.lo = 0 → b.lo = 0 →
    ∃ r, V2.mulDint11 a b = some r ∧ r.wide.Exactly 128 (a.toRat * b.toRat) ∧ r.sgn = (a.sgn ^^ b.sgn)

/-- The products of a number of two words and an integer. -/
structure DintMultiples (a : Dint) (n : Int64) : Prop where
  log : n ≠ 0 → n.toInt.natAbs < 2 ^ 11 → ∃ r, V1.mulDint2 n a = some r ∧
    r.wide.Within 128 1 (n.toInt * a.toRat) ∧ r.sgn = (decide (n.toInt < 0) ^^ a.sgn)
  pow : n ≠ 0 → n.toInt.natAbs < 2 ^ 62 → ∃ r, V2.mulDintInt64 a n = some r ∧
    r.wide.Within 128 1 (n.toInt * a.toRat) ∧ r.sgn = (decide (n.toInt < 0) ^^ a.sgn)

/-- The products of two numbers of four words, those with a number of words in their name with the words they read. -/
structure QintProducts (a b : Qint) : Prop where
  all : (mulQint a b).wide.Within 256 14 (a.toRat * b.toRat) ∧ (mulQint a b).sgn = (a.sgn ^^ b.sgn)
  words33 : (mulQint33 a b).wide.Within 256 6 ((a.upper 3).toRat * (b.upper 3).toRat) ∧
    (mulQint33 a b).sgn = (a.sgn ^^ b.sgn)
  words41 : (mulQint41 a b).wide.Within 256 2 (a.toRat * (b.upper 1).toRat) ∧ (mulQint41 a b).sgn = (a.sgn ^^ b.sgn)
  words31 : (mulQint31 a b).wide.Exactly 256 ((a.upper 3).toRat * (b.upper 1).toRat) ∧
    (mulQint31 a b).sgn = (a.sgn ^^ b.sgn)
  words22 : (mulQint22 a b).wide.Exactly 256 ((a.upper 2).toRat * (b.upper 2).toRat) ∧
    (mulQint22 a b).sgn = (a.sgn ^^ b.sgn)
  words21 : (mulQint21 a b).wide.Exactly 256 ((a.upper 2).toRat * (b.upper 1).toRat) ∧
    (mulQint21 a b).sgn = (a.sgn ^^ b.sgn)
  words11 : ∃ r, mulQint11 a b = some r ∧ r.wide.Exactly 256 ((a.upper 1).toRat * (b.upper 1).toRat) ∧
    r.sgn = (a.sgn ^^ b.sgn)

/-- **Every product** of normalised numbers is normalised, has the right sign, and is as near to the exact product as
    it is documented to be; no shift is out of range. -/
theorem multiword_products {a b : Dint} {p q : Qint} (n : Int64) (ha : a.Normal) (hb : b.Normal) (hp : p.Normal)
    (hq : q.Normal) :
    DintProducts a b ∧ DintMultiples a n ∧ QintProducts p q ∧
      (n ≠ 0 → ∃ r, mulQint2 n p = some r ∧ r.wide.Within 256 2 (n.toInt * p.toRat) ∧
        r.sgn = (decide (n.toInt < 0) ^^ p.sgn)) :=
  ⟨⟨V1.mulDint_spec ha hb, V2.mulDint_spec ha hb, V2.mulDint21_spec ha hb, V2.mulDint11_spec ha hb⟩,
    ⟨V1.mulDint2_spec ha, V2.mulDintInt64_spec ha⟩,
    ⟨mulQint_spec hp hq, mulQint33_spec hp hq, mulQint41_spec hp hq, mulQint31_spec hp hq, mulQint22_spec hp hq,
      mulQint21_spec hp hq, mulQint11_spec hp hq⟩,
    mulQint2_spec hp⟩

/-- The products of one and a half, a bit more, with minus three and with three. -/
theorem multiword_products_three :
    Dint.Normal ⟨0xc000000000000000, 1, 0, false⟩ ∧
      DintProducts ⟨0xc000000000000000, 1, 0, false⟩ ⟨0xc000000000000000, 0, 1, true⟩ ∧
      DintMultiples ⟨0xc000000000000000, 1, 0, false⟩ 3 ∧
      ∃ r, mulQint2 3 ⟨0xc000000000000000, 0, 0, 1, 0, false⟩ = some r ∧ r.sgn = false := by
  obtain ⟨hdint, hmultiple, -, hqint⟩ := @multiword_products ⟨0xc000000000000000, 1, 0, false⟩
    ⟨0xc000000000000000, 0, 1, true⟩ ⟨0xc000000000000000, 0, 0, 1, 0, false⟩ ⟨0xc000000000000000, 0, 0, 1, 0, false⟩ 3
    (by decide) (by decide) (by decide) (by decide)
  obtain ⟨r, hr, -, hsgn⟩ := hqint (by decide)
  exact ⟨by decide, hdint, hmultiple, r, hr, hsgn⟩

end Dellingr.Crmath
