import Mathlib.Algebra.Order.Field.Power
import Mathlib.Algebra.Order.Field.Rat
import Mathlib.Tactic.FieldSimp
import Mathlib.Tactic.Linarith
import Mathlib.Tactic.NormNum
import Mathlib.Tactic.Positivity
import Mathlib.Tactic.Ring

/-!
# Floats of several words

Numbers with a sign, a significand of `N` bits and an exponent, as software for extended precision keeps them in
several words. The first bit of a normalised significand is set, and an exponent of zero is that of the numbers from
one to two.

How far a result is from what it stands for is told in units of its last place (`Within`). A result with the sign of
the exact value is as far from it as its significand is from the exact value in units (`within_iff`), so that a bound
is an inequality of integers.

* `truncated_product`: a product of which less than `k` units of the upper half are lost is within `2 * k` units.
-/

structure WideFloat where
  sgn : Bool
  sig : Nat
  ex : Int
  deriving DecidableEq, Repr

namespace WideFloat

/-- The factor of a sign. -/
def sign (negative : Bool) : ℚ := if negative then -1 else 1

/-- The unit in the last place. -/
def ulp (N : Nat) (x : WideFloat) : ℚ := 2 ^ (x.ex - (N - 1 : Int))

def toRat (N : Nat) (x : WideFloat) : ℚ := sign x.sgn * (x.sig * x.ulp N)

/-- The first bit is set, and the significand fits. -/
def Normal (N : Nat) (x : WideFloat) : Prop := 2 ^ (N - 1) ≤ x.sig ∧ x.sig < 2 ^ N

instance (N : Nat) (x : WideFloat) : Decidable (x.Normal N) := inferInstanceAs (Decidable (_ ∧ _))

/-- A normalised result that is less than `k` units in its last place from a rational. -/
def Within (N : Nat) (k : ℚ) (r : WideFloat) (q : ℚ) : Prop := r.Normal N ∧ |r.toRat N - q| < k * r.ulp N

/-- A normalised result that is a rational. -/
def Exactly (N : Nat) (r : WideFloat) (q : ℚ) : Prop := r.Normal N ∧ r.toRat N = q

variable {N : Nat} {a b r x : WideFloat} {s : Bool} {k q : ℚ}

@[simp] theorem abs_sign (s : Bool) : |sign s| = 1 := by cases s <;> simp [sign]

theorem sign_xor (s t : Bool) : sign (s ^^ t) = sign s * sign t := by cases s <;> cases t <;> simp [sign]

theorem ulp_pos : 0 < x.ulp N := zpow_pos (by norm_num) _

theorem Within.mono {l : ℚ} (h : r.Within N k q) (hkl : k ≤ l) : r.Within N l q :=
  ⟨h.1, h.2.trans_le (mul_le_mul_of_nonneg_right hkl ulp_pos.le)⟩

theorem Exactly.within (h : r.Exactly N q) (hk : 0 < k) : r.Within N k q :=
  ⟨h.1, by rw [h.2, sub_self, abs_zero]; exact mul_pos hk ulp_pos⟩

/-- The distance of a number from a rational of its sign. -/
theorem abs_toRat_sub (hs : r.sgn = s) : |r.toRat N - sign s * q| = |(r.sig : ℚ) - q / r.ulp N| * r.ulp N := by
  have hpos : 0 < r.ulp N := ulp_pos
  have hfactor : r.toRat N - sign s * q = sign s * (((r.sig : ℚ) - q / r.ulp N) * r.ulp N) := by
    rw [toRat, hs, sub_mul, div_mul_cancel₀ _ hpos.ne']
    ring
  rw [hfactor, abs_mul, abs_sign, one_mul, abs_mul, abs_of_pos hpos]

theorem within_iff (hs : r.sgn = s) (hr : r.Normal N) :
    r.Within N k (sign s * q) ↔ |(r.sig : ℚ) - q / r.ulp N| < k := by
  rw [Within, abs_toRat_sub hs, mul_lt_mul_iff_left₀ ulp_pos]
  exact and_iff_right hr

theorem exactly_iff (hs : r.sgn = s) (hr : r.Normal N) :
    r.Exactly N (sign s * q) ↔ (r.sig : ℚ) = q / r.ulp N := by
  rw [Exactly, and_iff_right hr, ← sub_eq_zero, ← abs_eq_zero, abs_toRat_sub hs, mul_eq_zero, abs_eq_zero, sub_eq_zero]
  exact or_iff_left ulp_pos.ne'

/-- A bound by integers on the error of a result. -/
theorem within_of_div {P D k : Nat} (hs : r.sgn = s) (hr : r.Normal N) (hD : 0 < D)
    (hq : q / r.ulp N = (P : ℚ) / D) (hlo : r.sig * D < P + k * D) (hhi : P < (r.sig + k) * D) :
    r.Within N k (sign s * q) := by
  have hD' : (0 : ℚ) < D := by exact_mod_cast hD
  have hlo' : (r.sig : ℚ) * D < P + k * D := by exact_mod_cast hlo
  have hhi' : (P : ℚ) < (r.sig + k) * D := by exact_mod_cast hhi
  rw [within_iff hs hr, hq, abs_sub_comm, abs_lt, lt_sub_iff_add_lt, sub_lt_iff_lt_add, div_lt_iff₀ hD',
    lt_div_iff₀ hD']
  constructor <;> linarith

theorem exactly_of_div {P D : Nat} (hs : r.sgn = s) (hr : r.Normal N) (hD : 0 < D)
    (hq : q / r.ulp N = (P : ℚ) / D) (h : r.sig * D = P) : r.Exactly N (sign s * q) := by
  have hD' : (D : ℚ) ≠ 0 := by exact_mod_cast hD.ne'
  rw [exactly_iff hs hr, hq, ← h, Nat.cast_mul, mul_div_cancel_right₀ _ hD']

/-! ## Products -/

/-- The product of two numbers in units of a result whose exponent is `d` above the sum of theirs. -/
theorem mul_div_ulp {d : Nat} (hN : 0 < N) (he : r.ex = a.ex + b.ex + d) :
    (a.sig * a.ulp N) * (b.sig * b.ulp N) / r.ulp N = (a.sig * b.sig : Nat) / (2 ^ (N - 1 + d) : Nat) := by
  have hunits : a.ulp N * b.ulp N * 2 ^ (N - 1 + d) = r.ulp N := by
    rw [ulp, ulp, ulp, ← zpow_natCast, ← zpow_add₀ (by norm_num), ← zpow_add₀ (by norm_num), he]
    congr 1
    push_cast
    omega
  rw [← hunits]
  have ha : a.ulp N ≠ 0 := ulp_pos.ne'
  have hb : b.ulp N ≠ 0 := ulp_pos.ne'
  push_cast
  field_simp

theorem toRat_mul (hs : r.sgn = (a.sgn ^^ b.sgn)) :
    a.toRat N * b.toRat N = sign r.sgn * ((a.sig * a.ulp N) * (b.sig * b.ulp N)) := by
  rw [toRat, toRat, hs, sign_xor]
  ring

/-- A bound on the error of a product, as one on its significand. -/
theorem product_within {d k : Nat} (hN : 0 < N) (hs : r.sgn = (a.sgn ^^ b.sgn)) (he : r.ex = a.ex + b.ex + d)
    (hr : r.Normal N) (hlo : r.sig * 2 ^ (N - 1 + d) < a.sig * b.sig + k * 2 ^ (N - 1 + d))
    (hhi : a.sig * b.sig < (r.sig + k) * 2 ^ (N - 1 + d)) : r.Within N k (a.toRat N * b.toRat N) := by
  rw [toRat_mul hs]
  exact within_of_div rfl hr (Nat.two_pow_pos _) (mul_div_ulp hN he) hlo hhi

theorem product_exactly {d : Nat} (hN : 0 < N) (hs : r.sgn = (a.sgn ^^ b.sgn)) (he : r.ex = a.ex + b.ex + d)
    (hr : r.Normal N) (h : r.sig * 2 ^ (N - 1 + d) = a.sig * b.sig) : r.Exactly N (a.toRat N * b.toRat N) := by
  rw [toRat_mul hs]
  exact exactly_of_div rfl hr (Nat.two_pow_pos _) (mul_div_ulp hN he) h

/-- The product of two numbers, from the upper half of the product of their significands. -/
def finishProduct (N : Nat) (a b : WideFloat) (t : Nat) : WideFloat :=
  if t < 2 ^ (N - 1) then ⟨a.sgn ^^ b.sgn, 2 * t, a.ex + b.ex⟩ else ⟨a.sgn ^^ b.sgn, t, a.ex + b.ex + 1⟩

/-- The upper half of the product of two normalised numbers, of which less than `k` units are lost. -/
structure UpperProduct (N : Nat) (a b : WideFloat) (k t : Nat) : Prop where
  pos : 2 ≤ N
  normal : 2 ^ (N - 2) ≤ t
  le : t * 2 ^ N ≤ a.sig * b.sig
  lt : a.sig * b.sig < (t + k) * 2 ^ N

theorem UpperProduct.lt_pow {k t : Nat} (h : UpperProduct N a b k t) (ha : a.Normal N) (hb : b.Normal N) :
    t < 2 ^ N := by
  refine Nat.lt_of_mul_lt_mul_right (a := 2 ^ N) (h.le.trans_lt ?_)
  exact Nat.mul_lt_mul'' ha.2 hb.2

theorem finishProduct_normal {t : Nat} (hN : 2 ≤ N) (hlo : 2 ^ (N - 2) ≤ t) (hhi : t < 2 ^ N) :
    (finishProduct N a b t).Normal N := by
  have h₁ : 2 ^ (N - 1) = 2 * 2 ^ (N - 2) := by rw [← pow_succ']; congr 1; omega
  have h₂ : 2 ^ N = 2 * 2 ^ (N - 1) := by rw [← pow_succ']; congr 1; omega
  rw [finishProduct]
  split
  · exact ⟨by dsimp only; omega, by dsimp only; omega⟩
  · exact ⟨by dsimp only; omega, hhi⟩

/-- **A truncated product** is within twice the units that its upper half lacks. -/
theorem truncated_product {k t : Nat} (ha : a.Normal N) (hb : b.Normal N) (h : UpperProduct N a b k t) :
    (finishProduct N a b t).Within N (2 * k : Nat) (a.toRat N * b.toRat N) := by
  have hN := h.pos
  have hnormal : (finishProduct N a b t).Normal N := finishProduct_normal hN h.normal (h.lt_pow ha hb)
  have hk : 0 < k := by
    by_contra h0
    obtain rfl : k = 0 := by omega
    exact absurd (h.le.trans_lt h.lt) (lt_irrefl _)
  have hpow : 2 ^ N = 2 * 2 ^ (N - 1) := by rw [← pow_succ']; congr 1; omega
  rw [finishProduct] at hnormal ⊢
  split at hnormal
  · next hsmall =>
    rw [if_pos hsmall]
    refine @product_within N a b ⟨a.sgn ^^ b.sgn, 2 * t, a.ex + b.ex⟩ 0 _ (by omega) rfl (by simp) hnormal ?_ ?_
    · have hscale : 2 * t * 2 ^ (N - 1 + 0) = t * 2 ^ N := by rw [hpow, Nat.add_zero]; ring
      have hpos : 0 < 2 * k * 2 ^ (N - 1 + 0) := Nat.mul_pos (by omega) (Nat.two_pow_pos _)
      exact hscale ▸ lt_of_le_of_lt h.le (Nat.lt_add_of_pos_right hpos)
    · have hscale : (2 * t + 2 * k) * 2 ^ (N - 1 + 0) = (t + k) * 2 ^ N := by rw [hpow, Nat.add_zero]; ring
      exact hscale ▸ h.lt
  · next hlarge =>
    rw [if_neg hlarge]
    have hexp : N - 1 + 1 = N := by omega
    refine @product_within N a b ⟨a.sgn ^^ b.sgn, t, a.ex + b.ex + 1⟩ 1 _ (by omega) rfl (by simp) hnormal ?_ ?_
    · have hpos : 0 < 2 * k * 2 ^ (N - 1 + 1) := Nat.mul_pos (by omega) (Nat.two_pow_pos _)
      exact lt_of_le_of_lt (by rw [hexp]; exact h.le) (Nat.lt_add_of_pos_right hpos)
    · refine lt_of_lt_of_le h.lt ?_
      rw [hexp]
      exact Nat.mul_le_mul_right _ (by dsimp only; omega)

/-- A product whose lower half is zero. -/
theorem exact_product {t : Nat} (ha : a.Normal N) (hb : b.Normal N) (hN : 2 ≤ N) (h : t * 2 ^ N = a.sig * b.sig) :
    (finishProduct N a b t).Exactly N (a.toRat N * b.toRat N) := by
  have hprod : 2 ^ (N - 2) * 2 ^ N ≤ t * 2 ^ N := by
    calc 2 ^ (N - 2) * 2 ^ N = 2 ^ (N - 1) * 2 ^ (N - 1) := by rw [← pow_add, ← pow_add]; congr 1; omega
      _ ≤ t * 2 ^ N := by rw [h]; exact Nat.mul_le_mul ha.1 hb.1
  have hlo : 2 ^ (N - 2) ≤ t := Nat.le_of_mul_le_mul_right hprod (Nat.two_pow_pos N)
  have hupper : UpperProduct N a b 1 t := ⟨hN, hlo, h.le, by rw [← h, Nat.add_mul]; have := Nat.two_pow_pos N; omega⟩
  have hnormal : (finishProduct N a b t).Normal N := finishProduct_normal hN hlo (hupper.lt_pow ha hb)
  rw [finishProduct] at hnormal ⊢
  split at hnormal
  · next hsmall =>
    rw [if_pos hsmall]
    refine @product_exactly N a b ⟨a.sgn ^^ b.sgn, 2 * t, a.ex + b.ex⟩ 0 (by omega) rfl (by simp) hnormal ?_
    rw [← h]
    calc 2 * t * 2 ^ (N - 1 + 0) = t * (2 * 2 ^ (N - 1)) := by rw [Nat.add_zero]; ring
      _ = t * 2 ^ N := by rw [← pow_succ']; congr 2; omega
  · next hlarge =>
    rw [if_neg hlarge]
    refine @product_exactly N a b ⟨a.sgn ^^ b.sgn, t, a.ex + b.ex + 1⟩ 1 (by omega) rfl (by simp) hnormal ?_
    rw [← h]
    congr 2
    omega

/-! ## Products with integers -/

/-- A multiple of a number, in units of a result whose exponent is `d` above its. -/
theorem scale_div_ulp {c d : Nat} (he : r.ex = a.ex + d) :
    c * (a.sig * a.ulp N) / r.ulp N = (c * a.sig : Nat) / (2 ^ d : Nat) := by
  have hunits : a.ulp N * 2 ^ d = r.ulp N := by
    rw [ulp, ulp, ← zpow_natCast, ← zpow_add₀ (by norm_num), he]
    congr 1
    omega
  have ha : a.ulp N ≠ 0 := ulp_pos.ne'
  rw [← hunits]
  push_cast
  field_simp

theorem int_mul_toRat (n : Int) :
    n * a.toRat N = sign (decide (n < 0) ^^ a.sgn) * (n.natAbs * (a.sig * a.ulp N)) := by
  have hn : (n : ℚ) = sign (decide (n < 0)) * n.natAbs := by
    rcases lt_or_ge n 0 with h | h
    · rw [decide_eq_true h, sign, if_pos rfl, Nat.cast_natAbs, abs_of_neg h]
      push_cast
      ring
    · rw [decide_eq_false (not_lt.2 h), sign, if_neg Bool.false_ne_true, Nat.cast_natAbs, abs_of_nonneg h, one_mul]
  rw [hn, toRat, sign_xor]
  ring

/-- A bound on the error of a multiple, as one on its significand. -/
theorem scaled_within {n : Int} {d k : Nat} (hs : r.sgn = (decide (n < 0) ^^ a.sgn)) (he : r.ex = a.ex + d)
    (hr : r.Normal N) (hlo : r.sig * 2 ^ d < n.natAbs * a.sig + k * 2 ^ d)
    (hhi : n.natAbs * a.sig < (r.sig + k) * 2 ^ d) : r.Within N k (n * a.toRat N) := by
  rw [int_mul_toRat, ← hs]
  exact within_of_div rfl hr (Nat.two_pow_pos _) (scale_div_ulp he) hlo hhi

end WideFloat
