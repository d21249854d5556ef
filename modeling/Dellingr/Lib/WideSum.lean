import Dellingr.Lib.WideFloat
import Dellingr.Lib.Word

/-!
# Sums of floats of several words

The sum of two numbers of `N` bits whose exponents are `k` apart, computed on their significands: the smaller number is
shifted to the exponent of the larger one, and what leaves the significand is lost.

A difference may cancel. A first difference then tells by how many bits (`x` leading zeros), and a second one repeats
it with both significands shifted by as many, so that only bits below the new last place are lost.

* If `k` is at most one, the repeated difference is exact; otherwise at most one bit cancels (`Larger.repeated`). Its
  own cancellation is shifted out in the end (`Larger.isSum_subSig`).
* Numbers of opposite signs, each of less than twice the other's magnitude, have exponents at most one apart, and a
  difference of exponents of one cancels a bit: their sum is exact.
-/

namespace WideFloat

open Word

/-- What a sum computes: a normalised number or zero, within two units in its last place, of the right sign; exact if
    the numbers are of opposite signs, each of less than twice the magnitude of the other. -/
structure IsSum (N : Nat) (a b r : WideFloat) : Prop where
  normal : r.Normal N ∨ r.sig = 0
  zero : r.sig = 0 → a.toRat N + b.toRat N = 0
  within : |r.toRat N - (a.toRat N + b.toRat N)| < 2 * r.ulp N
  sign : 0 ≤ sign r.sgn * (a.toRat N + b.toRat N)
  exact : a.sgn ≠ b.sgn → |a.toRat N| < 2 * |b.toRat N| → |b.toRat N| < 2 * |a.toRat N| →
    r.toRat N = a.toRat N + b.toRat N

variable {N k x m : Nat} {a b r : WideFloat}

theorem IsSum.symm (h : IsSum N a b r) : IsSum N b a r where
  normal := h.normal
  zero hr := by rw [add_comm]; exact h.zero hr
  within := by rw [add_comm (b.toRat N)]; exact h.within
  sign := by rw [add_comm (b.toRat N)]; exact h.sign
  exact hs hb ha := by rw [add_comm (b.toRat N)]; exact h.exact hs.symm ha hb

/-- A number that is the sum. -/
theorem isSum_of_eq (hnormal : r.Normal N ∨ r.sig = 0) (heq : r.toRat N = a.toRat N + b.toRat N) : IsSum N a b r where
  normal := hnormal
  zero hr := by rw [← heq, toRat, hr]; simp
  within := by
    rw [heq, sub_self, abs_zero]
    exact mul_pos (by norm_num) ulp_pos
  sign := by
    rw [← heq, toRat, ← mul_assoc, ← sign_xor, Bool.xor_self]
    exact mul_nonneg (by simp [WideFloat.sign]) (mul_nonneg (Nat.cast_nonneg _) ulp_pos.le)
  exact _ _ _ := heq

theorem toRat_of_sig_eq_zero (h : a.sig = 0) : a.toRat N = 0 := by
  rw [toRat, h]
  simp

/-- The sum with zero. -/
theorem isSum_zero (ha : a.sig = 0) (hb : b.Normal N ∨ b.sig = 0) : IsSum N a b b :=
  isSum_of_eq hb (by rw [toRat_of_sig_eq_zero ha, zero_add])

/-! ## Equal magnitudes -/

theorem sign_not {s t : Bool} (h : s ≠ t) : WideFloat.sign t = -WideFloat.sign s := by
  cases s <;> cases t <;> simp_all [WideFloat.sign]

/-- Equal numbers of opposite signs. -/
theorem isSum_cancel (hr : r.sig = 0) (hs : a.sgn ≠ b.sgn) (hsig : a.sig = b.sig) (he : a.ex = b.ex) :
    IsSum N a b r := by
  refine isSum_of_eq (Or.inr hr) ?_
  rw [toRat_of_sig_eq_zero hr, toRat, toRat, ulp, ulp, sign_not hs, hsig, he]
  ring

/-- Equal numbers of the same sign. -/
theorem isSum_double (ha : a.Normal N) (hs : a.sgn = b.sgn) (hsig : a.sig = b.sig) (he : a.ex = b.ex) :
    IsSum N a b ⟨a.sgn, a.sig, a.ex + 1⟩ := by
  refine isSum_of_eq (Or.inl ha) ?_
  have hexp : b.ex + 1 - (N - 1 : Int) = b.ex - (N - 1 : Int) + 1 := by ring
  rw [toRat, toRat, toRat, ulp, ulp, ulp, hs, hsig, he]
  dsimp only
  rw [hexp, zpow_add_one₀ (by norm_num)]
  ring

/-! ## A larger number and a smaller one -/

/-- Normalised numbers, the first one of the larger magnitude and with an exponent that is `k` above the other's. -/
structure Larger (N : Nat) (a b : WideFloat) (k : Nat) : Prop where
  left : a.Normal N
  right : b.Normal N
  ex : a.ex = b.ex + k
  lt : b.sig < a.sig * 2 ^ k

/-- A larger exponent, or the same one and a larger significand. -/
theorem larger_of_lt (ha : a.Normal N) (hb : b.Normal N) (he : a.ex = b.ex + k) (h : 0 < k ∨ b.sig < a.sig) :
    Larger N a b k := by
  refine ⟨ha, hb, he, ?_⟩
  rcases Nat.eq_zero_or_pos k with rfl | hk
  · rw [pow_zero, Nat.mul_one]
    exact h.resolve_left (lt_irrefl 0)
  · have hpow : 2 ≤ 2 ^ k := Nat.le_self_pow hk.ne' 2
    have hN : 2 ^ N ≤ 2 * 2 ^ (N - 1) := by
      rw [← pow_succ']
      exact Nat.pow_le_pow_right (by norm_num) (by omega)
    calc b.sig < 2 ^ N := hb.2
      _ ≤ 2 ^ (N - 1) * 2 := by rw [Nat.mul_comm]; exact hN
      _ ≤ a.sig * 2 ^ k := Nat.mul_le_mul ha.1 hpow

theorem Larger.ulp_eq (h : Larger N a b k) : a.ulp N = 2 ^ k * b.ulp N := by
  rw [ulp, ulp, h.ex, ← zpow_natCast, ← zpow_add₀ (by norm_num)]
  congr 1
  ring

theorem abs_toRat : |a.toRat N| = a.sig * a.ulp N := by
  rw [toRat, abs_mul, abs_sign, one_mul, abs_of_nonneg (mul_nonneg (Nat.cast_nonneg _) ulp_pos.le)]

/-- Less than twice the magnitude of the smaller number. -/
theorem Larger.lt_two_mul (h : Larger N a b k) (hlt : |a.toRat N| < 2 * |b.toRat N|) : a.sig * 2 ^ k < 2 * b.sig := by
  have hulp : (0 : ℚ) < b.ulp N := ulp_pos
  rw [abs_toRat, abs_toRat, h.ulp_eq, ← mul_assoc, ← mul_assoc, mul_lt_mul_iff_left₀ hulp] at hlt
  exact_mod_cast hlt

/-- Numbers of less than twice each other's magnitude have exponents at most one apart; if they are, the larger number
    has the smaller significand. -/
theorem Larger.close (h : Larger N a b k) (hlt : a.sig * 2 ^ k < 2 * b.sig) : k = 0 ∨ k = 1 ∧ a.sig < b.sig := by
  have hsig : b.sig < 2 * a.sig := by
    have hN : 2 ^ N ≤ 2 * 2 ^ (N - 1) := by
      rw [← pow_succ']
      exact Nat.pow_le_pow_right (by norm_num) (by omega)
    have := h.left.1
    have := h.right.2
    omega
  match k, hlt with
  | 0, _ => exact Or.inl rfl
  | 1, hlt => exact Or.inr ⟨rfl, by omega⟩
  | k + 2, hlt =>
    have hfour : 4 ≤ 2 ^ (k + 2) := by
      rw [pow_add]
      exact Nat.le_mul_of_pos_left _ (Nat.two_pow_pos k)
    have := Nat.mul_le_mul_left a.sig hfour
    omega

/-- The sum of numbers of opposite signs is a difference of magnitudes, of the sign of the larger number. -/
theorem Larger.sum_of_ne (h : Larger N a b k) (hs : a.sgn ≠ b.sgn) :
    a.toRat N + b.toRat N = WideFloat.sign a.sgn * ((a.sig * 2 ^ k - b.sig : Nat) * b.ulp N) := by
  rw [toRat, toRat, sign_not hs, h.ulp_eq, Nat.cast_sub h.lt.le]
  push_cast
  ring

theorem Larger.sum_of_eq (h : Larger N a b k) (hs : a.sgn = b.sgn) :
    a.toRat N + b.toRat N = WideFloat.sign a.sgn * ((a.sig * 2 ^ k + b.sig : Nat) * b.ulp N) := by
  rw [toRat, toRat, ← hs, h.ulp_eq]
  push_cast
  ring

/-- Units of the smaller number, in units of a result whose exponent is `x` below that of the larger one. -/
theorem Larger.div_ulp_of_sub {P : Nat} (h : Larger N a b k) (he : r.ex = a.ex - x) :
    P * b.ulp N / r.ulp N = (P * 2 ^ x : Nat) / (2 ^ k : Nat) := by
  have hunits : b.ulp N * 2 ^ k = r.ulp N * 2 ^ x := by
    rw [ulp, ulp, ← zpow_natCast, ← zpow_natCast, ← zpow_add₀ (by norm_num), ← zpow_add₀ (by norm_num), he, h.ex]
    congr 1
    ring
  rw [div_eq_div_iff ulp_pos.ne' (by positivity)]
  push_cast
  rw [mul_assoc, hunits]
  ring

/-- The same, of a result whose exponent is `x` above that of the larger number. -/
theorem Larger.div_ulp_of_add {P : Nat} (h : Larger N a b k) (he : r.ex = a.ex + x) :
    P * b.ulp N / r.ulp N = (P : Nat) / (2 ^ (k + x) : Nat) := by
  have hunits : b.ulp N * 2 ^ (k + x) = r.ulp N := by
    rw [ulp, ulp, ← zpow_natCast, ← zpow_add₀ (by norm_num), he, h.ex]
    congr 1
    push_cast
    ring
  rw [← hunits]
  have hb : b.ulp N ≠ 0 := ulp_pos.ne'
  push_cast
  field_simp

/-- A result that has the sign of the larger number. -/
theorem Larger.isSum (h : Larger N a b k) (hs : r.sgn = a.sgn) (hr : r.Normal N)
    (hwithin : r.Within N 2 (a.toRat N + b.toRat N))
    (hexact : a.sgn ≠ b.sgn → a.sig * 2 ^ k < 2 * b.sig → r.Exactly N (a.toRat N + b.toRat N)) : IsSum N a b r where
  normal := Or.inl hr
  zero hzero := by
    have hpos := hr.1
    rw [hzero] at hpos
    exact absurd hpos (not_le.2 (Nat.two_pow_pos _))
  within := hwithin.2
  sign := by
    have hself : WideFloat.sign a.sgn * WideFloat.sign a.sgn = 1 := by
      rw [← sign_xor, Bool.xor_self]
      rfl
    rw [hs]
    rcases eq_or_ne a.sgn b.sgn with heq | hne
    · rw [h.sum_of_eq heq, ← mul_assoc, hself, one_mul]
      exact mul_nonneg (Nat.cast_nonneg _) ulp_pos.le
    · rw [h.sum_of_ne hne, ← mul_assoc, hself, one_mul]
      exact mul_nonneg (Nat.cast_nonneg _) ulp_pos.le
  exact hne hlt _ := (hexact hne (h.lt_two_mul hlt)).2

/-- A difference with a significand that is within two units. -/
theorem Larger.isSum_of_sub {R : Nat} (h : Larger N a b k) (hne : a.sgn ≠ b.sgn) (hlo : 2 ^ (N - 1) ≤ R)
    (hhi : R < 2 ^ N) (hle : R * 2 ^ k < (a.sig * 2 ^ k - b.sig) * 2 ^ x + 2 * 2 ^ k)
    (hlt : (a.sig * 2 ^ k - b.sig) * 2 ^ x < (R + 2) * 2 ^ k)
    (hexact : k = 0 ∨ k = 1 ∧ a.sig < b.sig → R * 2 ^ k = (a.sig * 2 ^ k - b.sig) * 2 ^ x) :
    IsSum N a b ⟨a.sgn, R, a.ex - x⟩ := by
  have hdiv := @Larger.div_ulp_of_sub N k x a b ⟨a.sgn, R, a.ex - x⟩ (a.sig * 2 ^ k - b.sig) h rfl
  refine h.isSum rfl ⟨hlo, hhi⟩ ?_ fun _ hclose => ?_
  · rw [h.sum_of_ne hne]
    exact within_of_div rfl ⟨hlo, hhi⟩ (Nat.two_pow_pos k) hdiv hle hlt
  · rw [h.sum_of_ne hne]
    exact exactly_of_div rfl ⟨hlo, hhi⟩ (Nat.two_pow_pos k) hdiv (hexact (h.close hclose))

/-- A sum of magnitudes with a significand that is within two units. -/
theorem Larger.isSum_of_add {R : Nat} (h : Larger N a b k) (heq : a.sgn = b.sgn) (hlo : 2 ^ (N - 1) ≤ R)
    (hhi : R < 2 ^ N) (hle : R * 2 ^ (k + x) < a.sig * 2 ^ k + b.sig + 2 * 2 ^ (k + x))
    (hlt : a.sig * 2 ^ k + b.sig < (R + 2) * 2 ^ (k + x)) : IsSum N a b ⟨a.sgn, R, a.ex + x⟩ := by
  have hdiv := @Larger.div_ulp_of_add N k x a b ⟨a.sgn, R, a.ex + x⟩ (a.sig * 2 ^ k + b.sig) h rfl
  refine h.isSum rfl ⟨hlo, hhi⟩ ?_ fun hne => absurd heq hne
  rw [h.sum_of_eq heq]
  exact within_of_div rfl ⟨hlo, hhi⟩ (Nat.two_pow_pos _) hdiv hle hlt

/-! ## Sums of magnitudes -/

/-- The significand of a sum of magnitudes, and by how much the exponent increases. -/
def addSig (N : Nat) (s : Nat) : Nat × Nat := if s < 2 ^ N then (s, 0) else (s / 2, 1)

/-- What a sum of magnitudes loses is below the last place. -/
theorem Larger.isSum_addSig (h : Larger N a b k) (heq : a.sgn = b.sgn) (hN : 0 < N) :
    IsSum N a b ⟨a.sgn, (addSig N (a.sig + b.sig / 2 ^ k)).1, a.ex + (addSig N (a.sig + b.sig / 2 ^ k)).2⟩ := by
  have hpow : 2 ^ N = 2 * 2 ^ (N - 1) := by rw [← pow_succ']; congr 1; omega
  have hpos := Nat.two_pow_pos k
  have hdiv := Nat.div_mul_le_self b.sig (2 ^ k)
  have hdiv' := Nat.lt_div_mul_add (a := b.sig) hpos
  have hsmall := Nat.div_le_self b.sig (2 ^ k)
  obtain ⟨halo, hahi⟩ := h.left
  have hbhi := h.right.2
  obtain ⟨q, hq⟩ : ∃ q, q = b.sig / 2 ^ k := ⟨_, rfl⟩
  rw [← hq] at hdiv hdiv' hsmall ⊢
  have hsum : (a.sig + q) * 2 ^ k ≤ a.sig * 2 ^ k + b.sig := by rw [Nat.add_mul]; omega
  have hsum' : a.sig * 2 ^ k + b.sig < (a.sig + q + 1) * 2 ^ k := by rw [Nat.add_mul, Nat.add_mul]; omega
  rw [addSig]
  split
  · next hlt =>
    refine h.isSum_of_add heq (by dsimp only; omega) hlt ?_ ?_
    · rw [Nat.add_zero]
      dsimp only
      omega
    · rw [Nat.add_zero]
      exact hsum'.trans_le (Nat.mul_le_mul_right _ (by dsimp only; omega))
  · next hlt =>
    refine h.isSum_of_add heq (by dsimp only; omega) (by dsimp only; omega) ?_ ?_
    · have hhalf : (a.sig + q) / 2 * 2 ^ (k + 1) ≤ (a.sig + q) * 2 ^ k := by
        rw [pow_succ', ← Nat.mul_assoc]
        exact Nat.mul_le_mul_right _ (by omega)
      have := Nat.two_pow_pos (k + 1)
      dsimp only
      omega
    · refine hsum'.trans_le ?_
      dsimp only
      rw [pow_succ', ← Nat.mul_assoc]
      exact Nat.mul_le_mul_right _ (by omega)

/-! ## Differences -/

/-- The first difference, with what leaves the smaller significand lost. -/
theorem Larger.first (h : Larger N a b k) : 0 < a.sig - b.sig / 2 ^ k ∧ a.sig - b.sig / 2 ^ k < 2 ^ N := by
  have hlt : b.sig / 2 ^ k < a.sig := (Nat.div_lt_iff_lt_mul (Nat.two_pow_pos k)).2 h.lt
  exact ⟨Nat.sub_pos_of_lt hlt, (Nat.sub_le _ _).trans_lt h.left.2⟩

/-- Numbers whose exponents are further apart cancel at most a bit. -/
theorem Larger.cancels (h : Larger N a b k) (hN : 2 ≤ N) (hx : (a.sig - b.sig / 2 ^ k) * 2 ^ x < 2 ^ N) (hk : 2 ≤ k) :
    2 ^ (N - 2) < a.sig - b.sig / 2 ^ k ∧ x ≤ 1 := by
  have h₁ : 2 ^ (N - 1) = 2 * 2 ^ (N - 2) := by rw [← pow_succ']; congr 1; omega
  have h₂ : 2 ^ N = 2 * 2 ^ (N - 1) := by rw [← pow_succ']; congr 1; omega
  have hquarter : b.sig / 2 ^ k < 2 ^ (N - 2) := by
    rw [Nat.div_lt_iff_lt_mul (Nat.two_pow_pos k)]
    calc b.sig < 2 ^ N := h.right.2
      _ = 2 ^ (N - 2) * 2 ^ 2 := by rw [h₂, h₁]; ring
      _ ≤ 2 ^ (N - 2) * 2 ^ k := Nat.mul_le_mul_left _ (Nat.pow_le_pow_right (by norm_num) hk)
  have hlo := h.left.1
  refine ⟨by omega, ?_⟩
  by_contra hx2
  have hfour : 2 ^ 2 ≤ 2 ^ x := Nat.pow_le_pow_right (by norm_num) (by omega)
  have := Nat.mul_le_mul_left (a.sig - b.sig / 2 ^ k) hfour
  omega

/-- The difference repeated with both significands shifted by `x`. -/
structure Repeated (N : Nat) (a b : WideFloat) (k x : Nat) (D : Nat) : Prop where
  le : b.sig * 2 ^ x / 2 ^ k ≤ a.sig * 2 ^ x
  eq : D = a.sig * 2 ^ x - b.sig * 2 ^ x / 2 ^ k
  le_mul : (a.sig * 2 ^ k - b.sig) * 2 ^ x ≤ D * 2 ^ k
  mul_lt : D * 2 ^ k < (a.sig * 2 ^ k - b.sig) * 2 ^ x + 2 ^ k
  half : 2 ^ (N - 2) ≤ D
  lt : D < 2 ^ N
  exact : k ≤ x → D * 2 ^ k = (a.sig * 2 ^ k - b.sig) * 2 ^ x
  normal : x < k → 2 ^ (N - 1) ≤ D

theorem Larger.repeated (h : Larger N a b k) (hN : 2 ≤ N) (hxN : x < N)
    (hlo : 2 ^ (N - 1) ≤ (a.sig - b.sig / 2 ^ k) * 2 ^ x) (hhi : (a.sig - b.sig / 2 ^ k) * 2 ^ x < 2 ^ N) :
    Repeated N a b k x (a.sig * 2 ^ x - b.sig * 2 ^ x / 2 ^ k) := by
  have h₁ : 2 ^ (N - 1) = 2 * 2 ^ (N - 2) := by rw [← pow_succ']; congr 1; omega
  have h₂ : 2 ^ N = 2 * 2 ^ (N - 1) := by rw [← pow_succ']; congr 1; omega
  obtain ⟨S, hS⟩ : ∃ S, S = b.sig * 2 ^ x / 2 ^ k := ⟨_, rfl⟩
  obtain ⟨D, hD⟩ : ∃ D, D = a.sig * 2 ^ x - S := ⟨_, rfl⟩
  have hk := Nat.two_pow_pos k
  have hSle : S * 2 ^ k ≤ b.sig * 2 ^ x := hS ▸ Nat.div_mul_le_self _ _
  have hSlt : b.sig * 2 ^ x < S * 2 ^ k + 2 ^ k := hS ▸ Nat.lt_div_mul_add hk
  have hB : b.sig * 2 ^ x < a.sig * 2 ^ x * 2 ^ k := by
    rw [Nat.mul_right_comm]
    exact Nat.mul_lt_mul_of_pos_right h.lt (Nat.two_pow_pos x)
  have hle : S ≤ a.sig * 2 ^ x := (Nat.lt_of_mul_lt_mul_right (hSle.trans_lt hB)).le
  have hP : (a.sig * 2 ^ k - b.sig) * 2 ^ x = a.sig * 2 ^ x * 2 ^ k - b.sig * 2 ^ x := by
    rw [Nat.sub_mul, Nat.mul_right_comm]
  have hDk : D * 2 ^ k = a.sig * 2 ^ x * 2 ^ k - S * 2 ^ k := by rw [hD, Nat.sub_mul]
  have hDle : D ≤ (a.sig - b.sig / 2 ^ k) * 2 ^ x := by
    have : b.sig / 2 ^ k * 2 ^ x ≤ S := by
      rw [hS, Nat.mul_comm, Nat.mul_comm b.sig]
      exact Nat.mul_div_le_mul_div_assoc _ _ _
    rw [Nat.sub_mul]
    omega
  have hexact : k ≤ x → D * 2 ^ k = (a.sig * 2 ^ k - b.sig) * 2 ^ x := fun hkx => by
    have hdvd : S * 2 ^ k = b.sig * 2 ^ x :=
      hS ▸ Nat.div_mul_cancel ((pow_dvd_pow 2 hkx).mul_left _)
    omega
  have hnormal : x < k → 2 ^ (N - 1) ≤ D := fun hxk => by
    rcases Nat.eq_zero_or_pos x with rfl | hx
    · rw [hD, hS, pow_zero, Nat.mul_one, Nat.mul_one]
      rwa [pow_zero, Nat.mul_one] at hlo
    · obtain ⟨hC, hx1⟩ := h.cancels hN hhi (by omega)
      obtain rfl : x = 1 := by omega
      have hSlt' : S < 2 * (b.sig / 2 ^ k + 1) := by
        rw [hS, Nat.div_lt_iff_lt_mul hk, pow_one, Nat.mul_comm b.sig, Nat.mul_assoc]
        refine Nat.mul_lt_mul_of_pos_left ?_ (by norm_num)
        rw [Nat.add_mul, Nat.one_mul]
        exact Nat.lt_div_mul_add hk
      generalize b.sig / 2 ^ k = q at hC hSlt'
      rw [pow_one] at hD
      omega
  rw [← hS, ← hD]
  refine ⟨hS ▸ hle, hS ▸ hD, by omega, by omega, ?_, by omega, hexact, hnormal⟩
  rcases Nat.lt_or_ge x k with hxk | hkx
  · have := hnormal hxk
    omega
  · have hexact' := hexact hkx
    obtain rfl | rfl | hk2 : k = 0 ∨ k = 1 ∨ 2 ≤ k := by omega
    · rw [pow_zero, Nat.div_one] at hlo
      rw [pow_zero, Nat.mul_one, Nat.mul_one] at hexact'
      omega
    · -- Half a unit is lost before the significands are shifted.
      have hxpow : 2 ^ x ≤ 2 ^ (N - 1) := Nat.pow_le_pow_right (by norm_num) (by omega)
      have hle' : (2 * (a.sig - b.sig / 2 ^ 1) - 1) * 2 ^ x ≤ (a.sig * 2 ^ 1 - b.sig) * 2 ^ x :=
        Nat.mul_le_mul_right _ (by omega)
      rw [Nat.sub_mul, Nat.mul_assoc] at hle'
      omega
    · have := (h.cancels hN hhi hk2).2
      omega

/-- The significand of a difference, and by how much the exponent decreases: the difference is repeated with the leading
    zeros of the first one shifted out, and its own leading zeros are shifted out in the end. -/
def subSig (N : Nat) (A B k : Nat) : Nat × Nat :=
  let x := clz N (A - B / 2 ^ k)
  let D := A * 2 ^ x - B * 2 ^ x / 2 ^ k
  (D * 2 ^ clz N D, x + clz N D)

/-- Numbers one exponent apart and of less than twice each other's magnitude cancel a bit. -/
theorem Larger.cancels_of_lt (h : Larger N a b 1) (hN : 0 < N) (hlt : a.sig < b.sig)
    (hlo : 2 ^ (N - 1) ≤ (a.sig - b.sig / 2 ^ 1) * 2 ^ x) : 1 ≤ x := by
  have hpow : 2 ^ N = 2 * 2 ^ (N - 1) := by rw [← pow_succ']; congr 1; omega
  have hb := h.right.2
  by_contra hx
  obtain rfl : x = 0 := by omega
  rw [pow_zero, Nat.mul_one] at hlo
  omega

/-- **A difference that is repeated** is within a unit in the last place, and exact if nothing is lost. -/
theorem Larger.isSum_subSig (h : Larger N a b k) (hne : a.sgn ≠ b.sgn) (hN : 2 ≤ N) :
    IsSum N a b ⟨a.sgn, (subSig N a.sig b.sig k).1, a.ex - (subSig N a.sig b.sig k).2⟩ := by
  obtain ⟨hxN, hlo, hhi⟩ := clz_spec h.first.1 h.first.2
  rw [subSig]
  obtain ⟨x, hx⟩ : ∃ x, x = clz N (a.sig - b.sig / 2 ^ k) := ⟨_, rfl⟩
  rw [← hx] at hxN hlo hhi ⊢
  have hrep := h.repeated hN hxN hlo hhi
  dsimp only
  generalize a.sig * 2 ^ x - b.sig * 2 ^ x / 2 ^ k = D at hrep ⊢
  have hpos : 0 < D := (Nat.two_pow_pos _).trans_le hrep.half
  have hk := Nat.two_pow_pos k
  rcases Nat.lt_or_ge x k with hxk | hkx
  · -- Something is lost, but nothing has to be shifted again.
    rw [clz_eq_zero (by omega) (hrep.normal hxk) hrep.lt, pow_zero, Nat.mul_one, Nat.add_zero]
    refine h.isSum_of_sub hne (hrep.normal hxk) hrep.lt ?_ ?_ ?_
    · exact hrep.mul_lt.trans_le (Nat.add_le_add_left (Nat.le_mul_of_pos_left _ (by norm_num)) _)
    · exact hrep.le_mul.trans_lt (Nat.mul_lt_mul_of_pos_right (by omega) hk)
    · rintro (rfl | ⟨rfl, hlt⟩)
      · omega
      · exact absurd (h.cancels_of_lt (by omega) hlt hlo) (by omega)
  · obtain ⟨-, hlo', hhi'⟩ := clz_spec hpos hrep.lt
    have hexact : D * 2 ^ clz N D * 2 ^ k =
        (a.sig * 2 ^ k - b.sig) * 2 ^ (x + clz N D) := by
      rw [Nat.mul_right_comm, hrep.exact hkx, pow_add, Nat.mul_assoc]
    refine h.isSum_of_sub hne hlo' hhi' ?_ ?_ fun _ => hexact
    · rw [hexact]
      exact Nat.lt_add_of_pos_right (Nat.mul_pos (by norm_num) hk)
    · rw [← hexact]
      exact Nat.mul_lt_mul_of_pos_right (by omega) hk

/-- A first difference that is only shifted is within two units in the last place, but for exponents one apart. -/
theorem Larger.isSum_first (h : Larger N a b k) (hne : a.sgn ≠ b.sgn) (hN : 2 ≤ N) (hk1 : k ≠ 1)
    (hx : x = clz N (a.sig - b.sig / 2 ^ k)) :
    IsSum N a b ⟨a.sgn, (a.sig - b.sig / 2 ^ k) * 2 ^ x, a.ex - x⟩ := by
  obtain ⟨-, hlo, hhi⟩ := clz_spec h.first.1 h.first.2
  rw [← hx] at hlo hhi
  rcases Nat.eq_zero_or_pos k with rfl | hk0
  · have hexact : (a.sig - b.sig / 2 ^ 0) * 2 ^ x * 2 ^ 0 = (a.sig * 2 ^ 0 - b.sig) * 2 ^ x := by
      rw [pow_zero, Nat.div_one, Nat.mul_one, Nat.mul_one]
    refine h.isSum_of_sub hne hlo hhi ?_ ?_ fun _ => hexact
    · rw [hexact]
      exact Nat.lt_add_of_pos_right (by norm_num)
    · rw [← hexact]
      exact Nat.mul_lt_mul_of_pos_right (by omega) (by norm_num)
  have hk2 : 2 ≤ k := by omega
  have hk := Nat.two_pow_pos k
  have hx1 : 2 ^ x ≤ 2 := Nat.pow_le_pow_right (by norm_num) (h.cancels hN hhi hk2).2
  have hle := Nat.div_mul_le_self b.sig (2 ^ k)
  have hlt := Nat.lt_div_mul_add (a := b.sig) hk
  have hq : b.sig / 2 ^ k < a.sig := (Nat.div_lt_iff_lt_mul hk).2 h.lt
  obtain ⟨q, hqdef⟩ : ∃ q, q = b.sig / 2 ^ k := ⟨_, rfl⟩
  rw [← hqdef] at hlo hhi hle hlt hq ⊢
  have hP : (a.sig * 2 ^ k - b.sig) * 2 ^ x ≤ (a.sig - q) * 2 ^ x * 2 ^ k := by
    rw [Nat.mul_right_comm]
    exact Nat.mul_le_mul_right _ (by rw [Nat.sub_mul]; omega)
  refine h.isSum_of_sub hne hlo hhi ?_ ?_ (by omega)
  · have hC : (a.sig - q) * 2 ^ k < a.sig * 2 ^ k - b.sig + 2 ^ k := by
      have := h.lt
      rw [Nat.sub_mul]
      omega
    calc (a.sig - q) * 2 ^ x * 2 ^ k = (a.sig - q) * 2 ^ k * 2 ^ x := Nat.mul_right_comm _ _ _
      _ < (a.sig * 2 ^ k - b.sig + 2 ^ k) * 2 ^ x := Nat.mul_lt_mul_of_pos_right hC (Nat.two_pow_pos x)
      _ = (a.sig * 2 ^ k - b.sig) * 2 ^ x + 2 ^ x * 2 ^ k := by rw [Nat.add_mul, Nat.mul_comm (2 ^ k)]
      _ ≤ (a.sig * 2 ^ k - b.sig) * 2 ^ x + 2 * 2 ^ k := Nat.add_le_add_left (Nat.mul_le_mul_right _ hx1) _
  · exact hP.trans_lt (Nat.mul_lt_mul_of_pos_right (by omega) hk)

end WideFloat
