import Dellingr.Lib.RoundToOdd
import Mathlib.Tactic.LinearCombination

/-!
# The fused multiply-add in software

`soft_fma`: the product of two doubles and the sum with a third, rounded once, in integers of 128 bits.

Both terms are normalised, so that their leading bits are at one place; the smaller one is shifted below the
larger, and what it loses is kept as one sticky bit; their sum is rounded to the unit of the result. The steps
are checked: a product, a sum or a difference that does not fit, or a shift by 128 or more, is a failure.

* The shift with the sticky bit rounds to odd, and so does the sum (`fmaSum_spec`): the larger term is even, and a
  term that loses bits is far below it.
* The sum is more than two bits longer than the unit then, so that rounding it to nearest rounds the exact value
  (`soft_fma_exact`).
-/

namespace Dellingr.Crmath

open F64 (RoundsTo unit)

/-! ## Integers of 128 bits -/

def u128Mul (a b : Nat) : Option Nat := if a * b < 2 ^ 128 then some (a * b) else none
def u128Add (a b : Nat) : Option Nat := if a + b < 2 ^ 128 then some (a + b) else none
def u128Sub (a b : Nat) : Option Nat := if b ≤ a then some (a - b) else none

/-- A shift to the left. Bits that leave the integer are lost, and a shift by 128 or more overflows. -/
def u128Shl (a : Nat) (n : Int) : Option Nat :=
  if 0 ≤ n ∧ n < 128 then some (a * 2 ^ n.toNat % 2 ^ 128) else none

def u128Shr (a : Nat) (n : Int) : Option Nat := if 0 ≤ n ∧ n < 128 then some (a / 2 ^ n.toNat) else none

def leadingZeros (a : Nat) : Int := if a = 0 then 128 else 127 - Nat.log2 a

/-! ## The algorithm -/

/-- The significand and the exponent of a finite double that is not zero. -/
def split (x : F64) : Nat × Int :=
  if x.exponent = 0 then (x.fraction, -1074) else (x.fraction ||| 2 ^ 52, x.exponent - 1075)

/-- Shift the leading bit to position 125. -/
def normalise (m : Nat) (e : Int) : Option (Nat × Int) := do
  let shift := leadingZeros m - 2
  let p ← u128Shl m shift
  some (p, e - shift)

/-- Shift to the right; the last bit is set if a bit was lost. -/
def shiftRightSticky (value : Nat) (distance : Int) : Option Nat :=
  if distance = 0 then some value
  else if 128 ≤ distance then some (if value ≠ 0 then 1 else 0)
  else do
    let mask ← u128Sub (← u128Shl 1 distance) 1
    let kept ← u128Shr value distance
    some (kept ||| if value &&& mask ≠ 0 then 1 else 0)

/-- The sum of two magnitudes with their signs. -/
def addSigned (big : Nat) (bigNegative : Bool) (small : Nat) (smallNegative : Bool) : Option (Nat × Bool) :=
  if bigNegative = smallNegative then (u128Add big small).map (·, bigNegative)
  else if small ≤ big then (u128Sub big small).map (·, bigNegative)
  else (u128Sub small big).map (·, smallNegative)

/-- The sum of two terms, the smaller one aligned to the larger: its magnitude, whether it is negative, and its
    exponent. -/
def sumTerms (p : Nat) (productNegative : Bool) (ep : Int) (q : Nat) (addendNegative : Bool) (eq : Int) :
    Option (Nat × Bool × Int) :=
  if eq ≤ ep then do
    let (sum, negative) ← addSigned p productNegative (← shiftRightSticky q (ep - eq)) addendNegative
    some (sum, negative, ep)
  else do
    let (sum, negative) ← addSigned q addendNegative (← shiftRightSticky p (eq - ep)) productNegative
    some (sum, negative, eq)

/-- The terms of three finite doubles that are not zero, and their sum. -/
def fmaSum (a b c : F64) : Option (Nat × Bool × Int) := do
  let (ma, ea) := split a
  let (mb, eb) := split b
  let (mc, ec) := split c
  let (p, ep) ← normalise (← u128Mul ma mb) (ea + eb)
  let (q, eq) ← normalise mc ec
  sumTerms p (a.sign ^^ b.sign) ep q c.sign eq

/-- The exponent of the unit that a sum is rounded to. -/
def ulpOf (sum : Nat) (exponent : Int) : Int :=
  let msb := 127 - leadingZeros sum
  let top := msb + exponent
  if -1074 < top - 52 then top - 52 else -1074

/-- The multiple of the unit that is nearest to a sum. -/
def roundSum (sum : Nat) (exponent : Int) : Option Nat :=
  let shift := ulpOf sum exponent - exponent
  if shift ≤ 0 then u128Shl sum (-shift)
  else if 128 ≤ shift then some 0
  else do
    let kept ← u128Shr sum shift
    let rest := sum &&& (← u128Sub (← u128Shl 1 shift) 1)
    let half ← u128Shl 1 (shift - 1)
    if half < rest ∨ (rest = half ∧ kept &&& 1 = 1) then u128Add kept 1 else some kept

/-- The double of so many units. -/
def encode (negative : Bool) (ulp : Int) (significand : Nat) : Option F64 := do
  let sign := if negative then 2 ^ 63 else 0
  if significand = 0 then some (F64.ofBits sign)
  else
    let encoded ← u128Add (← u128Shl (ulp + 1074).toNat 52) significand
    if 0x7ff * 2 ^ 52 ≤ encoded then some (F64.ofBits (sign ||| 0x7ff * 2 ^ 52))
    else some (F64.ofBits (sign ||| encoded))

/-- `soft_fma`, with the product and the sum of the hardware for the operands that it forwards; `none` where
    an operation overflows. -/
def softFma (mul add : F64 → F64 → F64) (a b c : F64) : Option F64 :=
  if a.exponent = 0x7ff ∨ b.exponent = 0x7ff ∨ a.isZero = true ∨ b.isZero = true then some (add (mul a b) c)
  else if c.exponent = 0x7ff then some (add c c)
  else if c.isZero = true then some (mul a b)
  else do
    let (sum, negative, exponent) ← fmaSum a b c
    if sum = 0 then some (F64.ofBits 0)
    else encode negative (ulpOf sum exponent) (← roundSum sum exponent)

variable {x : F64} {m v sum : Nat} {e d : Int} {t : ℚ}

/-! ## The operations -/

theorem u128Shl_eq {n : Nat} (hn : n < 128) (h : v * 2 ^ n < 2 ^ 128) : u128Shl v n = some (v * 2 ^ n) := by
  rw [u128Shl, if_pos ⟨by omega, by omega⟩, Int.toNat_natCast, Nat.mod_eq_of_lt h]

theorem u128Shr_eq {n : Nat} (hn : n < 128) : u128Shr v n = some (v / 2 ^ n) := by
  rw [u128Shr, if_pos ⟨by omega, by omega⟩, Int.toNat_natCast]

/-- The bits below a position. -/
theorem u128_mask {n : Nat} (hn : n < 128) : (u128Shl 1 n).bind (u128Sub · 1) = some (2 ^ n - 1) := by
  have hpow : 2 ^ n < 2 ^ 128 := Nat.pow_lt_pow_right (by norm_num) hn
  rw [u128Shl_eq hn (by omega), Nat.one_mul, Option.bind_some]
  exact if_pos Nat.one_le_two_pow

theorem shiftRightSticky_eq {n : Nat} (hv : v < 2 ^ 128) : shiftRightSticky v n = some (stickyShift v n) := by
  rw [shiftRightSticky, stickyShift]
  by_cases hzero : n = 0
  · subst hzero
    simp [Nat.mod_one]
  rw [if_neg (by omega)]
  by_cases hfar : 128 ≤ n
  · have hlt : v < 2 ^ n := hv.trans_le (Nat.pow_le_pow_right (by norm_num) hfar)
    rw [if_pos (by omega), Nat.div_eq_of_lt hlt, Nat.mod_eq_of_lt hlt, Nat.zero_or]
    by_cases hv0 : v = 0 <;> simp [hv0]
  · have hn : n < 128 := by omega
    rw [if_neg (by omega)]
    have hmask := u128_mask hn
    obtain ⟨one, hone, hsub⟩ := Option.bind_eq_some_iff.1 hmask
    simp only [hone, hsub, u128Shr_eq hn, Option.bind_eq_bind, Option.bind_some,
      Nat.and_two_pow_sub_one_eq_mod]
    by_cases hlost : v % 2 ^ n = 0 <;> simp [hlost]

/-- A number shifted so that its leading bit is at position 125. -/
theorem normalise_spec (hm : 0 < m) (hlt : m < 2 ^ 106) (e : Int) :
    ∃ s : Nat, 20 ≤ s ∧ s ≤ 125 ∧ normalise m e = some (m * 2 ^ s, e - s) ∧ 2 ^ 125 ≤ m * 2 ^ s ∧
      m * 2 ^ s < 2 ^ 126 := by
  obtain ⟨hlo, hhi⟩ : 2 ^ m.log2 ≤ m ∧ m < 2 ^ (m.log2 + 1) := (Nat.log2_eq_iff hm.ne').1 rfl
  have hlog : m.log2 < 106 := (Nat.log2_lt hm.ne').2 hlt
  have hlo' : 2 ^ 125 ≤ m * 2 ^ (125 - m.log2) := by
    calc 2 ^ 125 = 2 ^ m.log2 * 2 ^ (125 - m.log2) := by rw [← pow_add]; congr 1; omega
      _ ≤ m * 2 ^ (125 - m.log2) := Nat.mul_le_mul_right _ hlo
  have hhi' : m * 2 ^ (125 - m.log2) < 2 ^ 126 := by
    calc m * 2 ^ (125 - m.log2) < 2 ^ (m.log2 + 1) * 2 ^ (125 - m.log2) :=
          Nat.mul_lt_mul_of_pos_right hhi (by positivity)
      _ = 2 ^ 126 := by rw [← pow_add]; congr 1; omega
  refine ⟨125 - m.log2, by omega, by omega, ?_, hlo', hhi'⟩
  have hshift : leadingZeros m - 2 = ((125 - m.log2 : Nat) : Int) := by
    rw [leadingZeros, if_neg hm.ne']
    omega
  rw [normalise]
  simp only [hshift]
  rw [u128Shl_eq (by omega) (hhi'.trans (by norm_num))]
  rfl

/-! ## Terms -/

/-- The factor of a sign. -/
def sgn (negative : Bool) : ℚ := if negative then -1 else 1

/-- A finite double that is not zero is its significand at its exponent. -/
theorem split_spec (hzero : x.isZero = false) :
    ∃ m : Nat, ∃ e : Int, split x = (m, e) ∧ 0 < m ∧ m < 2 ^ 53 ∧ -1074 ≤ e ∧ e ≤ 972 ∧
      x.toRat = sgn x.sign * (m * 2 ^ e) := by
  have hfrac := x.fraction_lt
  have hexplt := x.exponent_lt
  rw [split, F64.toRat]
  split
  · next hexp =>
    have hpos : 0 < x.fraction := Nat.pos_of_ne_zero fun h => by
      rw [F64.isZero, hexp, h] at hzero
      cases hzero
    exact ⟨_, _, rfl, hpos, by omega, le_rfl, by norm_num, rfl⟩
  · next hexp =>
    have hor : x.fraction ||| 2 ^ 52 = x.significand := by
      have := Nat.two_pow_add_eq_or_of_lt hfrac 1
      rw [Nat.mul_one] at this
      rw [Nat.or_comm, ← this, F64.significand]
    have hsig : 2 ^ 52 ≤ x.significand ∧ x.significand < 2 ^ 53 := by rw [F64.significand]; omega
    exact ⟨_, _, rfl, by rw [hor]; omega, by rw [hor]; exact hsig.2, by omega, by omega, by rw [hor]; rfl⟩

/-- The sum of the larger term and what is left of the smaller one rounds the exact sum to odd. A sum from which
    something was dropped is long. -/
theorem addSigned_spec {big small : Nat} {bigNegative smallNegative : Bool} (hbig : 2 ^ 125 ≤ big)
    (hbig' : big < 2 ^ 126) (heven : Even big) (hsmall : small < 2 ^ 126) (hodd : RoundsToOdd small t)
    (hclose : (small : ℚ) = t ∨ small ≤ 2 ^ 106) :
    ∃ sum negative, ∃ r : ℚ, addSigned big bigNegative small smallNegative = some (sum, negative) ∧
      sum < 2 ^ 127 ∧ RoundsToOdd sum r ∧ ((sum : ℚ) = r ∨ 2 ^ 124 ≤ sum) ∧
      sgn bigNegative * big + sgn smallNegative * t = sgn negative * r := by
  have hint : Even (big : ℤ) := by exact_mod_cast heven
  rw [addSigned]
  split
  · next hsame =>
    refine ⟨big + small, bigNegative, big + t, ?_, by omega, ?_, .inr (by omega), ?_⟩
    · rw [u128Add, if_pos (by omega)]
      rfl
    · have := hodd.add_even hint
      rwa [Int.cast_natCast, ← Nat.cast_add] at this
    · rw [hsame]
      ring
  · next hdiff =>
    have hopposite : sgn smallNegative = -sgn bigNegative := by
      revert hdiff
      cases bigNegative <;> cases smallNegative <;> simp [sgn]
    split
    · next hle =>
      refine ⟨big - small, bigNegative, big - t, ?_, by omega, ?_, ?_, ?_⟩
      · rw [u128Sub, if_pos hle]
        rfl
      · have := hodd.neg.add_even hint
        rwa [Int.cast_natCast, ← sub_eq_add_neg, ← sub_eq_add_neg, ← Nat.cast_sub hle] at this
      · refine hclose.imp (fun h => by rw [Nat.cast_sub hle, h]) fun h => by omega
      · rw [hopposite]
        ring
    · next hlt =>
      have hle : big ≤ small := by omega
      refine ⟨small - big, smallNegative, t - big, ?_, by omega, ?_, ?_, ?_⟩
      · rw [u128Sub, if_pos hle]
        rfl
      · have := hodd.add_even hint.neg
        rwa [Int.cast_neg, Int.cast_natCast, neg_add_eq_sub, neg_add_eq_sub, ← Nat.cast_sub hle] at this
      · refine hclose.imp (fun h => by rw [Nat.cast_sub hle, h]) fun h => by omega
      · rw [hopposite]
        ring

/-- What is left of a term with zeros at its end: all of it, or little. -/
theorem stickyShift_close {n : Nat} (hv : v < 2 ^ 126) (hzeros : 2 ^ 20 ∣ v) :
    stickyShift v n < 2 ^ 126 ∧ (((stickyShift v n : Nat) : ℚ) = v / 2 ^ n ∨ stickyShift v n ≤ 2 ^ 106) := by
  obtain ⟨w, rfl⟩ := hzeros
  by_cases hn : n ≤ 20
  · -- The bits that are dropped are zeros.
    have hdvd : 2 ^ n ∣ 2 ^ 20 * w := (Nat.pow_dvd_pow 2 hn).mul_right w
    have hmod : 2 ^ 20 * w % 2 ^ n = 0 := Nat.mod_eq_zero_of_dvd hdvd
    have hshift : stickyShift (2 ^ 20 * w) n = 2 ^ 20 * w / 2 ^ n := by
      rw [stickyShift, if_pos hmod, Nat.or_zero]
    rw [hshift]
    refine ⟨(Nat.div_le_self _ _).trans_lt hv, .inl ?_⟩
    have hmul : ((2 ^ 20 * w / 2 ^ n : Nat) : ℚ) * 2 ^ n = ((2 ^ 20 * w : Nat) : ℚ) := by
      exact_mod_cast Nat.div_mul_cancel hdvd
    rw [eq_div_iff (by positivity), hmul]
  · have hquot : 2 ^ 20 * w / 2 ^ n < 2 ^ 105 := by
      rw [Nat.div_lt_iff_lt_mul (by positivity)]
      calc 2 ^ 20 * w < 2 ^ 105 * 2 ^ 21 := by omega
        _ ≤ 2 ^ 105 * 2 ^ n := Nat.mul_le_mul_left _ (Nat.pow_le_pow_right (by norm_num) (by omega))
    have hle : stickyShift (2 ^ 20 * w) n ≤ 2 ^ 20 * w / 2 ^ n + 1 := by
      rw [stickyShift]
      split
      · rw [Nat.or_zero]
        omega
      · rw [or_one]
        split <;> omega
    exact ⟨by omega, .inr (by omega)⟩

/-- The sum of two normalised terms. -/
theorem sumTerms_spec {p q : Nat} {pn qn : Bool} {ep eq : Int} (hp : 2 ^ 125 ≤ p) (hp' : p < 2 ^ 126)
    (hpz : 2 ^ 20 ∣ p) (hq : 2 ^ 125 ≤ q) (hq' : q < 2 ^ 126) (hqz : 2 ^ 20 ∣ q) :
    ∃ sum negative, ∃ r : ℚ, sumTerms p pn ep q qn eq = some (sum, negative, max ep eq) ∧
      sum < 2 ^ 127 ∧ RoundsToOdd sum r ∧ ((sum : ℚ) = r ∨ 2 ^ 124 ≤ sum) ∧
      sgn pn * (p * 2 ^ ep) + sgn qn * (q * 2 ^ eq) = sgn negative * (r * 2 ^ max ep eq) := by
  have heven : ∀ {n : Nat}, 2 ^ 20 ∣ n → Even n := fun h =>
    even_iff_two_dvd.2 (dvd_trans (by norm_num) h)
  -- The smaller term, at the exponent of the larger.
  have hscale : ∀ (n : Nat) {e e' : Int} {d : Nat}, e' - e = d → (n : ℚ) * 2 ^ e = n / 2 ^ d * 2 ^ e' := by
    intro n e e' d hd
    obtain rfl : e' = e + d := by omega
    rw [zpow_add₀ (by norm_num), zpow_natCast]
    field_simp
  rw [sumTerms]
  split
  · next hle =>
    obtain ⟨d, hd⟩ := Int.eq_ofNat_of_zero_le (show 0 ≤ ep - eq by omega)
    obtain ⟨hsmall, hclose⟩ := @stickyShift_close q d hq' hqz
    obtain ⟨sum, negative, r, hadd, hsum, hodd, hlong, hval⟩ := @addSigned_spec _ _ _ pn qn hp hp' (heven hpz)
      hsmall (roundsToOdd_sticky q d) hclose
    refine ⟨sum, negative, r, ?_, hsum, hodd, hlong, ?_⟩
    · rw [hd, shiftRightSticky_eq (hq'.trans (by norm_num)), max_eq_left hle]
      simp only [Option.bind_eq_bind, Option.bind_some, hadd]
    · rw [max_eq_left hle, hscale q hd]
      linear_combination (2 : ℚ) ^ ep * hval
  · next hlt =>
    have hle : ep ≤ eq := by omega
    obtain ⟨d, hd⟩ := Int.eq_ofNat_of_zero_le (show 0 ≤ eq - ep by omega)
    obtain ⟨hsmall, hclose⟩ := @stickyShift_close p d hp' hpz
    obtain ⟨sum, negative, r, hadd, hsum, hodd, hlong, hval⟩ := @addSigned_spec _ _ _ qn pn hq hq' (heven hqz)
      hsmall (roundsToOdd_sticky p d) hclose
    refine ⟨sum, negative, r, ?_, hsum, hodd, hlong, ?_⟩
    · rw [hd, shiftRightSticky_eq (hp'.trans (by norm_num)), max_eq_right hle]
      simp only [Option.bind_eq_bind, Option.bind_some, hadd]
    · rw [max_eq_right hle, hscale p hd]
      linear_combination (2 : ℚ) ^ eq * hval

/-- The sum of three doubles. Its exponent is not below that of the least addend. -/
theorem fmaSum_spec {a b c : F64} (ha : a.isZero = false) (hb : b.isZero = false) (hc : c.isZero = false) :
    ∃ sum negative exponent, ∃ r : ℚ, fmaSum a b c = some (sum, negative, exponent) ∧ -1199 ≤ exponent ∧
      exponent ≤ 1944 ∧ sum < 2 ^ 127 ∧ RoundsToOdd sum r ∧ ((sum : ℚ) = r ∨ 2 ^ 124 ≤ sum) ∧
      a.toRat * b.toRat + c.toRat = sgn negative * (r * 2 ^ exponent) := by
  obtain ⟨ma, ea, hsa, hma, hma', -, hea, hva⟩ := split_spec ha
  obtain ⟨mb, eb, hsb, hmb, hmb', -, heb, hvb⟩ := split_spec hb
  obtain ⟨mc, ec, hsc, hmc, hmc', hec, hec', hvc⟩ := split_spec hc
  have hprod : ma * mb < 2 ^ 106 := by
    calc ma * mb < 2 ^ 53 * 2 ^ 53 := Nat.mul_lt_mul'' hma' hmb'
      _ = 2 ^ 106 := by norm_num
  obtain ⟨s, hs, -, hp, hlo, hhi⟩ := normalise_spec (Nat.mul_pos hma hmb) hprod (ea + eb)
  obtain ⟨s', hs', hs'', hq, hlo', hhi'⟩ := normalise_spec hmc (hmc'.trans (by norm_num)) ec
  have hzeros : ∀ {m s : Nat}, 20 ≤ s → 2 ^ 20 ∣ m * 2 ^ s := fun h => (Nat.pow_dvd_pow 2 h).mul_left _
  obtain ⟨sum, negative, r, hsum, hlt, hodd, hlong, hval⟩ := @sumTerms_spec _ _ (a.sign ^^ b.sign) c.sign
    (ea + eb - s) (ec - s') hlo hhi (hzeros hs) hlo' hhi' (hzeros hs')
  refine ⟨sum, negative, max (ea + eb - s) (ec - s'), r, ?_, by omega, by omega, hlt, hodd, hlong, ?_⟩
  · rw [fmaSum]
    simp only [hsa, hsb, hsc, u128Mul, if_pos (hprod.trans (show 2 ^ 106 < 2 ^ 128 by norm_num)),
      Option.bind_eq_bind, Option.bind_some, hp, hq, hsum]
  · -- Normalising does not change the value of a term.
    have hscale : ∀ (m s : Nat) (e : Int), ((m * 2 ^ s : Nat) : ℚ) * 2 ^ (e - s) = m * 2 ^ e := by
      intro m s e
      rw [zpow_sub₀ (by norm_num), zpow_natCast]
      push_cast
      field_simp
    have hsign : sgn (a.sign ^^ b.sign) = sgn a.sign * sgn b.sign := by
      cases a.sign <;> cases b.sign <;> simp [sgn]
    rw [hscale, hscale, hsign, zpow_add₀ (by norm_num)] at hval
    rw [← hval, hva, hvb, hvc]
    push_cast
    ring

/-! ## Rounding -/

theorem ulpOf_eq (hpos : 0 < sum) : ulpOf sum e = max (sum.log2 + e - 52) (-1074) := by
  rw [ulpOf]
  simp only [leadingZeros, if_neg hpos.ne']
  omega

/-- The sum is rounded once, to the unit of the result, and what was dropped from it does not matter. -/
theorem roundSum_spec (hpos : 0 < sum) (hlt : sum < 2 ^ 127) (he : -1199 ≤ e) (hodd : RoundsToOdd sum t)
    (hlong : (sum : ℚ) = t ∨ 2 ^ 124 ≤ sum) :
    ulpOf sum e - e < 128 ∧
      ∃ u : Nat, roundSum sum e = some u ∧ NearestEven u (t * 2 ^ e / 2 ^ ulpOf sum e) := by
  have hulp := @ulpOf_eq sum e hpos
  obtain ⟨hlo, hhi⟩ : 2 ^ sum.log2 ≤ sum ∧ sum < 2 ^ (sum.log2 + 1) := (Nat.log2_eq_iff hpos.ne').1 rfl
  have hlog : sum.log2 < 127 := (Nat.log2_lt hpos.ne').2 hlt
  have hbound : ulpOf sum e - e < 128 := by omega
  refine ⟨hbound, ?_⟩
  rw [roundSum]
  by_cases hshift : ulpOf sum e - e ≤ 0
  · -- A short sum, of which nothing was dropped, has all its bits in the result.
    obtain ⟨n, hn⟩ := Int.eq_ofNat_of_zero_le (show 0 ≤ -(ulpOf sum e - e) by omega)
    have hn52 : n + sum.log2 ≤ 52 := by omega
    have hexact : (sum : ℚ) = t := by
      refine hlong.resolve_right fun hge => ?_
      have : 124 ≤ sum.log2 := (Nat.le_log2 hpos.ne').2 hge
      omega
    have hfits : sum * 2 ^ n < 2 ^ 53 := by
      calc sum * 2 ^ n < 2 ^ (sum.log2 + 1) * 2 ^ n := Nat.mul_lt_mul_of_pos_right hhi (by positivity)
        _ = 2 ^ (sum.log2 + 1 + n) := by rw [← pow_add]
        _ ≤ 2 ^ 53 := Nat.pow_le_pow_right (by norm_num) (by omega)
    have hscale : t * 2 ^ e / 2 ^ ulpOf sum e = ((sum * 2 ^ n : Nat) : ℚ) := by
      have heq : e = ulpOf sum e + n := by omega
      rw [← hexact]
      nth_rewrite 1 [heq]
      rw [zpow_add₀ (by norm_num), zpow_natCast]
      push_cast
      field_simp
    simp only [if_pos hshift]
    rw [hn, u128Shl_eq (by omega) (hfits.trans (by norm_num))]
    exact ⟨_, rfl, .of_eq (by rw [hscale, Int.cast_natCast])⟩
  · obtain ⟨n, hn⟩ := Int.eq_ofNat_of_zero_le (show 0 ≤ ulpOf sum e - e by omega)
    have hn' : 0 < n ∧ n < 128 := by omega
    have hround : (do
        let kept ← u128Shr sum n
        let rest := sum &&& (← u128Sub (← u128Shl 1 n) 1)
        let half ← u128Shl 1 (n - 1)
        if half < rest ∨ (rest = half ∧ kept &&& 1 = 1) then u128Add kept 1 else some kept)
          = some (roundHalfEven sum n) := by
      obtain ⟨one, hone, hmask⟩ := Option.bind_eq_some_iff.1 (u128_mask hn'.2)
      have hpred : (n : Int) - 1 = ((n - 1 : Nat) : Int) := by omega
      have hhalf : u128Shl 1 ((n : Int) - 1) = some (2 ^ (n - 1)) := by
        have hpow : 2 ^ (n - 1) < 2 ^ 128 := Nat.pow_lt_pow_right (by norm_num) (by omega)
        rw [hpred, u128Shl_eq (by omega) (by omega), Nat.one_mul]
      have hadd : u128Add (sum / 2 ^ n) 1 = some (sum / 2 ^ n + 1) := by
        have := Nat.div_le_self sum (2 ^ n)
        exact if_pos (by omega)
      simp only [u128Shr_eq hn'.2, hone, hmask, hhalf, hadd, Option.bind_eq_bind, Option.bind_some,
        Nat.and_two_pow_sub_one_eq_mod, Nat.and_one_is_mod, roundHalfEven]
      split <;> rfl
    have hscale : t * 2 ^ e / 2 ^ ulpOf sum e = t / 2 ^ n := by
      have heq : ulpOf sum e = e + n := by omega
      rw [heq, zpow_add₀ (by norm_num), zpow_natCast]
      field_simp
    simp only [if_neg hshift, if_neg (show ¬128 ≤ ulpOf sum e - e by omega)]
    rw [hn, hround, hscale]
    refine ⟨_, rfl, ?_⟩
    have hnear := nearestEven_roundHalfEven hn'.1 (v := sum)
    obtain hexact | hge := hlong
    · rwa [← hexact]
    · have : 124 ≤ sum.log2 := (Nat.le_log2 hpos.ne').2 hge
      exact hodd.nearestEven (by omega) (by rwa [Int.cast_natCast])

/-- A double is its sign and the bits below. -/
theorem ofBits_signed {negative : Bool} {n : Nat} (hn : n < 2 ^ 63) :
    (F64.ofBits ((if negative then 2 ^ 63 else 0) ||| n)).sign = negative ∧
      (F64.ofBits ((if negative then 2 ^ 63 else 0) ||| n)).abs = F64.ofBits n := by
  cases negative with
  | false =>
    simp only [Bool.false_eq_true, if_false, Nat.zero_or]
    have hnat : (F64.ofBits n).bits.toNat = n := F64.toNat_ofBits (by omega)
    have hsign : (F64.ofBits n).sign = false := by
      rw [F64.sign_eq, hnat]
      exact decide_eq_false (by omega)
    exact ⟨hsign, F64.abs_of_sign hsign⟩
  | true =>
    have hor : 2 ^ 63 ||| n = 2 ^ 63 + n := by
      have := Nat.two_pow_add_eq_or_of_lt hn 1
      rw [Nat.mul_one] at this
      exact this.symm
    have hnat : (F64.ofBits (2 ^ 63 + n)).bits.toNat = 2 ^ 63 + n := F64.toNat_ofBits (by omega)
    simp only [if_true, hor]
    refine ⟨?_, F64.toNat_inj ?_⟩
    · rw [F64.sign_eq, hnat]
      exact decide_eq_true (by omega)
    · rw [F64.toNat_abs, hnat, F64.toNat_ofBits (by omega)]
      omega

/-- A value between the powers of two of the unit is encoded by its rounded number of units. -/
theorem encode_spec {q : ℚ} {negative : Bool} {k u : Nat} (hk : k ≤ 4000) (hlo : k = 0 ∨ 2 ^ 52 * unit k ≤ q)
    (hhi : q < 2 ^ 53 * unit k) (hu : NearestEven u (q / unit k)) :
    ∃ r, encode negative ((k : Int) - 1074) u = some r ∧ r.sign = negative ∧ RoundsTo q r.abs := by
  have hpos := F64.unit_pos k
  have hule : u ≤ 2 ^ 53 := F64.units_le ((div_lt_iff₀ hpos).2 hhi) hu
  have hulo : k = 0 ∨ 2 ^ 52 ≤ u := hlo.imp_right fun hle => F64.le_units ((le_div_iff₀ hpos).2 hle) hu
  have hround : k ≤ 2045 → RoundsTo q (F64.ofBits (k * 2 ^ 52 + u)) := fun hk =>
    F64.roundsTo_ofUnits hk hlo hhi hu
  rw [encode]
  by_cases hzero : u = 0
  · obtain rfl : k = 0 := hulo.resolve_right (by omega)
    subst hzero
    obtain ⟨hsign, habs⟩ := @ofBits_signed negative 0 (by norm_num)
    rw [Nat.or_zero] at hsign habs
    exact ⟨_, if_pos rfl, hsign, habs ▸ hround (by norm_num)⟩
  · have hexp : (((k : Int) - 1074) + 1074).toNat = k := by omega
    obtain ⟨E, hE⟩ : ∃ E, E = k * 2 ^ 52 := ⟨_, rfl⟩
    have hshl : u128Shl k 52 = some E := hE ▸ u128Shl_eq (n := 52) (by norm_num) (by omega)
    have hadd : u128Add E u = some (E + u) := if_pos (by omega)
    rw [← hE] at hround
    simp only [if_neg hzero, hexp, hshl, hadd, Option.bind_eq_bind, Option.bind_some]
    by_cases hover : 0x7ff * 2 ^ 52 ≤ E + u
    · obtain ⟨hsign, habs⟩ := @ofBits_signed negative (0x7ff * 2 ^ 52) (by norm_num)
      refine ⟨_, if_pos hover, hsign, ?_⟩
      rw [habs]
      by_cases hk : k ≤ 2045
      · -- Rounding has carried into the exponent of the infinities.
        have heq : E + u = 0x7ff * 2 ^ 52 := by omega
        exact heq ▸ hround hk
      · refine F64.roundsTo_infinity ?_
        have hunit : unit 2046 = 2 ^ 972 := by norm_num [unit]
        calc (2 : ℚ) ^ 1024 = 2 ^ 52 * unit 2046 := by rw [hunit, ← pow_add]
          _ ≤ 2 ^ 52 * unit k := mul_le_mul_of_nonneg_left (F64.unit_mono (by omega)) (by norm_num)
          _ ≤ q := hlo.resolve_left (by omega)
    · obtain ⟨hsign, habs⟩ := @ofBits_signed negative (E + u) (by omega)
      exact ⟨_, if_neg hover, hsign, habs ▸ hround (by omega)⟩

/-- What was rounded to odd lies between the same powers of two. -/
theorem pow_le_of_log2 (hpos : 0 < sum) (hodd : RoundsToOdd sum t) (hlong : (sum : ℚ) = t ∨ 2 ^ 124 ≤ sum) :
    2 ^ sum.log2 ≤ t ∧ t < 2 ^ (sum.log2 + 1) := by
  obtain ⟨hlo, hhi⟩ : 2 ^ sum.log2 ≤ sum ∧ sum < 2 ^ (sum.log2 + 1) := (Nat.log2_eq_iff hpos.ne').1 rfl
  obtain hexact | hge := hlong
  · rw [← hexact]
    exact ⟨by exact_mod_cast hlo, by exact_mod_cast hhi⟩
  · have hlog : 124 ≤ sum.log2 := (Nat.le_log2 hpos.ne').2 hge
    have heven : ∀ {n : Nat}, n ≠ 0 → Even ((2 : ℤ) ^ n) := fun hn => even_two.pow_of_ne_zero hn
    have hle := hodd.le_iff (heven (show sum.log2 ≠ 0 by omega))
    have hlt := hodd.lt_iff (heven (Nat.succ_ne_zero sum.log2))
    push_cast at hle hlt
    exact ⟨hle.2 (by exact_mod_cast hlo), hlt.2 (by exact_mod_cast hhi)⟩

/-- **The fused multiply-add.** For finite doubles that are not zero no operation overflows and the shift is below
    128; a product and an addend that cancel give the positive zero, and otherwise the result has the sign of the
    exact value and the nearest magnitude, ties to even. -/
theorem soft_fma_exact (mul add : F64 → F64 → F64) {a b c : F64} (ha : a.isFinite = true) (hb : b.isFinite = true)
    (hc : c.isFinite = true) (ha' : a.isZero = false) (hb' : b.isZero = false) (hc' : c.isZero = false) :
    (∃ sum negative exponent, fmaSum a b c = some (sum, negative, exponent) ∧
      (sum ≠ 0 → ulpOf sum exponent - exponent < 128)) ∧
    ∃ r, softFma mul add a b c = some r ∧
      if a.toRat * b.toRat + c.toRat = 0 then r = F64.ofBits 0
      else r.sign = decide (a.toRat * b.toRat + c.toRat < 0) ∧
        RoundsTo |a.toRat * b.toRat + c.toRat| r.abs := by
  obtain ⟨sum, negative, e, t, hsum, he, he', hlt, hodd, hlong, hval⟩ := fmaSum_spec ha' hb' hc'
  have hzero : sum = 0 ↔ t = 0 := by
    rw [hodd.eq_zero_iff, Int.natCast_eq_zero]
  have hpow : (0 : ℚ) < 2 ^ e := zpow_pos (by norm_num) e
  refine ⟨⟨sum, negative, e, hsum, fun hne => (roundSum_spec (Nat.pos_of_ne_zero hne) hlt he hodd hlong).1⟩, ?_⟩
  have hforward : softFma mul add a b c = if sum = 0 then some (F64.ofBits 0)
      else (roundSum sum e).bind (encode negative (ulpOf sum e)) := by
    rw [F64.isFinite, bne_iff_ne] at ha hb hc
    rw [softFma, if_neg (by simp [ha, hb, ha', hb']), if_neg hc, if_neg (by rw [hc']; exact Bool.false_ne_true)]
    simp only [hsum, Option.bind_eq_bind, Option.bind_some]
  rw [hforward, hval]
  by_cases hsum0 : sum = 0
  · rw [if_pos hsum0, hzero.1 hsum0]
    exact ⟨_, rfl, by rw [zero_mul, mul_zero, if_pos rfl]⟩
  have hpos := Nat.pos_of_ne_zero hsum0
  obtain ⟨-, u, hround, hnear⟩ := roundSum_spec hpos hlt he hodd hlong
  obtain ⟨hlo, hhi⟩ := pow_le_of_log2 hpos hodd hlong
  have htpos : 0 < t := (show (0 : ℚ) < 2 ^ sum.log2 from by positivity).trans_le hlo
  have hmag : 0 < t * 2 ^ e := mul_pos htpos hpow
  have hulp := @ulpOf_eq sum e hpos
  have hlog : sum.log2 < 127 := (Nat.log2_lt hpos.ne').2 hlt
  obtain ⟨k, hk⟩ := Int.eq_ofNat_of_zero_le (show 0 ≤ ulpOf sum e + 1074 by omega)
  have hunit : unit k = 2 ^ ulpOf sum e := by
    rw [unit]
    congr 1
    omega
  have hlo' : k = 0 ∨ 2 ^ 52 * unit k ≤ t * 2 ^ e := by
    by_cases hk0 : k = 0
    · exact .inl hk0
    · refine .inr ?_
      have hexp : ((2 : ℚ) ^ 52) * 2 ^ ulpOf sum e = 2 ^ sum.log2 * 2 ^ e := by
        rw [← zpow_natCast, ← zpow_natCast, ← zpow_add₀ (by norm_num), ← zpow_add₀ (by norm_num)]
        congr 1
        push_cast
        omega
      rw [hunit, hexp]
      exact mul_le_mul_of_nonneg_right hlo hpow.le
  have hhi' : t * 2 ^ e < 2 ^ 53 * unit k := by
    rw [hunit]
    calc t * 2 ^ e < 2 ^ (sum.log2 + 1) * 2 ^ e := mul_lt_mul_of_pos_right hhi hpow
      _ = 2 ^ ((sum.log2 : Int) + 1 + e) := by
          rw [zpow_add₀ (by norm_num), ← Nat.cast_succ, zpow_natCast]
      _ ≤ 2 ^ (53 + ulpOf sum e) := zpow_le_zpow_right₀ (by norm_num) (by omega)
      _ = 2 ^ 53 * 2 ^ ulpOf sum e := by rw [zpow_add₀ (by norm_num)]; rfl
  obtain ⟨r, henc, hsign, hr⟩ := @encode_spec _ negative k u (by omega) hlo' hhi' (by rw [hunit]; exact hnear)
  have hexp : (k : Int) - 1074 = ulpOf sum e := by omega
  rw [hexp] at henc
  refine ⟨r, ?_, ?_⟩
  · rw [if_neg hsum0, hround, Option.bind_some, henc]
  · have hne : sgn negative * (t * 2 ^ e) ≠ 0 := by
      refine mul_ne_zero ?_ hmag.ne'
      cases negative <;> simp [sgn]
    rw [if_neg hne]
    cases negative with
    | false =>
      have hv : sgn false * (t * 2 ^ e) = t * 2 ^ e := one_mul _
      rw [hv, abs_of_pos hmag]
      exact ⟨by rw [hsign, eq_comm, decide_eq_false_iff_not]; exact not_lt.2 hmag.le, hr⟩
    | true =>
      have hv : sgn true * (t * 2 ^ e) = -(t * 2 ^ e) := by rw [sgn, if_pos rfl, neg_one_mul]
      rw [hv, abs_neg, abs_of_pos hmag]
      exact ⟨by rw [hsign, eq_comm, decide_eq_true_eq]; exact neg_neg_of_pos hmag, hr⟩

/-- Three ones: the product and the addend are added exactly. -/
theorem soft_fma_exact_ones :
    (∃ sum negative exponent, fmaSum (F64.ofNat 1) (F64.ofNat 1) (F64.ofNat 1) = some (sum, negative, exponent) ∧
      (sum ≠ 0 → ulpOf sum exponent - exponent < 128)) ∧
    ∃ r, softFma (fun _ y => y) (fun _ y => y) (F64.ofNat 1) (F64.ofNat 1) (F64.ofNat 1) = some r ∧
      if (F64.ofNat 1).toRat * (F64.ofNat 1).toRat + (F64.ofNat 1).toRat = 0 then r = F64.ofBits 0
      else r.sign = decide ((F64.ofNat 1).toRat * (F64.ofNat 1).toRat + (F64.ofNat 1).toRat < 0) ∧
        RoundsTo |(F64.ofNat 1).toRat * (F64.ofNat 1).toRat + (F64.ofNat 1).toRat| r.abs :=
  soft_fma_exact _ _ (by decide) (by decide) (by decide) (by decide) (by decide) (by decide)

end Dellingr.Crmath
