import Mathlib.Data.Nat.Bitwise
import Mathlib.Data.Nat.ModEq
import Mathlib.Tactic.NormNum
import Mathlib.Tactic.Positivity
import Mathlib.Tactic.Ring

/-!
# Machine words

Unsigned words of `w` bits as natural numbers. A sum or a difference wraps; a shift loses the bits that leave the
word, and fails if its amount is not below the width.

* Where nothing leaves the word the operations are those of the natural numbers (`wrappingAdd_of_lt`,
  `wrappingSub_of_le`, `shl_of_lt`), and a difference of shifted words is the difference of what was shifted as long
  as that fits (`wrappingSub_mod`).
* The leading zeros of a word are what it is shifted by to set its first bit (`clz_spec`).
* Two words next to each other are shifted together by moving bits from one to the other (`or_shl`, `or_shr`).
-/

namespace Word

def wrappingAdd (w a b : Nat) : Nat := (a + b) % 2 ^ w

def wrappingSub (w a b : Nat) : Nat := (a + (2 ^ w - b)) % 2 ^ w

/-- A shift to the left; `none` if the amount is out of range. -/
def shl (w a : Nat) (n : Int) : Option Nat := if 0 ≤ n ∧ n < w then some (a * 2 ^ n.toNat % 2 ^ w) else none

/-- A shift to the right; `none` if the amount is out of range. -/
def shr (w a : Nat) (n : Int) : Option Nat := if 0 ≤ n ∧ n < w then some (a / 2 ^ n.toNat) else none

/-- The number of zeros before the first bit that is set. -/
def clz (w a : Nat) : Nat := if a = 0 then w else w - 1 - a.log2

variable {w a b n x y : Nat}

theorem wrappingAdd_lt : wrappingAdd w a b < 2 ^ w := Nat.mod_lt _ (Nat.two_pow_pos w)

theorem wrappingAdd_of_lt (h : a + b < 2 ^ w) : wrappingAdd w a b = a + b := Nat.mod_eq_of_lt h

/-- A sum that leaves the word is smaller than what was added. -/
theorem wrappingAdd_of_le (ha : a < 2 ^ w) (hb : b < 2 ^ w) (h : 2 ^ w ≤ a + b) : wrappingAdd w a b = a + b - 2 ^ w := by
  rw [wrappingAdd, Nat.mod_eq_sub_mod h, Nat.mod_eq_of_lt (by omega)]

/-- Whether a sum has left the word. -/
theorem wrappingAdd_lt_iff (ha : a < 2 ^ w) (hb : b < 2 ^ w) : wrappingAdd w a b < a ↔ 2 ^ w ≤ a + b := by
  by_cases h : a + b < 2 ^ w
  · rw [wrappingAdd_of_lt h]
    omega
  · rw [wrappingAdd_of_le ha hb (by omega)]
    omega

theorem wrappingSub_of_le (ha : a < 2 ^ w) (h : b ≤ a) : wrappingSub w a b = a - b := by
  have hsum : a + (2 ^ w - b) = a - b + 2 ^ w := by omega
  rw [wrappingSub, hsum, Nat.add_mod_right, Nat.mod_eq_of_lt (by omega)]

/-- A difference that does not fit is as much greater as the word has values. -/
theorem wrappingSub_of_lt (hb : b < 2 ^ w) (h : a < b) : wrappingSub w a b = a + (2 ^ w - b) :=
  Nat.mod_eq_of_lt (by omega)

/-- A difference of two words that have lost bits, where that of the numbers fits. -/
theorem wrappingSub_mod (h : y ≤ x) (hlt : x - y < 2 ^ w) : wrappingSub w (x % 2 ^ w) (y % 2 ^ w) = x - y := by
  have hy : y % 2 ^ w < 2 ^ w := Nat.mod_lt _ (Nat.two_pow_pos w)
  have hcong : x % 2 ^ w + (2 ^ w - y % 2 ^ w) ≡ x - y [MOD 2 ^ w] := by
    refine Nat.ModEq.add_right_cancel' (y % 2 ^ w) ?_
    have hx : x % 2 ^ w + (2 ^ w - y % 2 ^ w) + y % 2 ^ w = x % 2 ^ w + 2 ^ w := by omega
    rw [hx]
    calc x % 2 ^ w + 2 ^ w ≡ x [MOD 2 ^ w] := (Nat.add_mod_right _ _).trans (Nat.mod_mod _ _)
      _ = x - y + y := (Nat.sub_add_cancel h).symm
      _ ≡ x - y + y % 2 ^ w [MOD 2 ^ w] := Nat.ModEq.add_left _ (Nat.mod_mod _ _).symm
  rw [wrappingSub, hcong, Nat.mod_eq_of_lt hlt]

/-! ## Shifts -/

theorem shl_eq (hn : n < w) : shl w a n = some (a * 2 ^ n % 2 ^ w) := by
  rw [shl, if_pos ⟨by omega, by omega⟩, Int.toNat_natCast]

theorem shl_of_lt (hn : n < w) (h : a * 2 ^ n < 2 ^ w) : shl w a n = some (a * 2 ^ n) := by
  rw [shl_eq hn, Nat.mod_eq_of_lt h]

theorem shr_eq (hn : n < w) : shr w a n = some (a / 2 ^ n) := by
  rw [shr, if_pos ⟨by omega, by omega⟩, Int.toNat_natCast]

/-- A shift by the leading zeros sets the first bit. -/
theorem clz_spec (ha : 0 < a) (hlt : a < 2 ^ w) :
    clz w a < w ∧ 2 ^ (w - 1) ≤ a * 2 ^ clz w a ∧ a * 2 ^ clz w a < 2 ^ w := by
  obtain ⟨hlo, hhi⟩ : 2 ^ a.log2 ≤ a ∧ a < 2 ^ (a.log2 + 1) := (Nat.log2_eq_iff ha.ne').1 rfl
  have hlog : a.log2 < w := (Nat.log2_lt ha.ne').2 hlt
  rw [clz, if_neg ha.ne']
  refine ⟨by omega, ?_, ?_⟩
  · calc 2 ^ (w - 1) = 2 ^ a.log2 * 2 ^ (w - 1 - a.log2) := by rw [← pow_add]; congr 1; omega
      _ ≤ a * 2 ^ (w - 1 - a.log2) := Nat.mul_le_mul_right _ hlo
  · calc a * 2 ^ (w - 1 - a.log2) < 2 ^ (a.log2 + 1) * 2 ^ (w - 1 - a.log2) :=
          Nat.mul_lt_mul_of_pos_right hhi (Nat.two_pow_pos _)
      _ = 2 ^ w := by rw [← pow_add]; congr 1; omega

theorem clz_eq (h : 2 ^ (w - 1) ≤ a * 2 ^ n) (hlt : a * 2 ^ n < 2 ^ w) (hn : n < w) :
    clz w a = n := by
  have ha : 0 < a := by
    by_contra h0
    obtain rfl : a = 0 := by omega
    have := Nat.two_pow_pos (w - 1)
    omega
  have hlog : a.log2 = w - 1 - n := by
    refine (Nat.log2_eq_iff ha.ne').2 ⟨?_, ?_⟩
    · refine Nat.le_of_mul_le_mul_right ?_ (Nat.two_pow_pos n)
      rw [← pow_add]
      exact le_trans (Nat.pow_le_pow_right (by norm_num) (by omega)) h
    · refine Nat.lt_of_mul_lt_mul_right (a := 2 ^ n) (lt_of_lt_of_le hlt ?_)
      rw [← pow_add]
      exact Nat.pow_le_pow_right (by norm_num) (by omega)
  rw [clz, if_neg ha.ne', hlog]
  omega

/-- A word with its first bit set has no leading zeros. -/
theorem clz_eq_zero (hw : 0 < w) (h : 2 ^ (w - 1) ≤ a) (hlt : a < 2 ^ w) : clz w a = 0 :=
  clz_eq (by rwa [pow_zero, Nat.mul_one]) (by rwa [pow_zero, Nat.mul_one]) hw

/-- The leading zeros of two words next to each other. -/
theorem clz_double (ha : 0 < a) (hlt : a < 2 ^ (w + w)) :
    (if a / 2 ^ w ≠ 0 then clz w (a / 2 ^ w) else w + clz w (a % 2 ^ w)) =
      clz (w + w) a := by
  have hpow : 2 ^ (w + w) = 2 ^ w * 2 ^ w := pow_add 2 w w
  have hw : 0 < w := by
    by_contra h0
    obtain rfl : w = 0 := by omega
    rw [pow_zero] at hlt
    omega
  have hhalf : 2 ^ (w + w - 1) = 2 ^ (w - 1) * 2 ^ w := by rw [← pow_add]; congr 1; omega
  split
  · next hne =>
    obtain ⟨hn, hlo, hhi⟩ := clz_spec (Nat.pos_of_ne_zero hne) ((Nat.div_lt_iff_lt_mul (Nat.two_pow_pos w)).2
      (hpow ▸ hlt))
    obtain ⟨n, hndef⟩ : ∃ n, n = clz w (a / 2 ^ w) := ⟨_, rfl⟩
    rw [← hndef] at hn hlo hhi ⊢
    refine (clz_eq ?_ ?_ (by omega)).symm
    · calc 2 ^ (w + w - 1) ≤ a / 2 ^ w * 2 ^ n * 2 ^ w := by rw [hhalf]; exact Nat.mul_le_mul_right _ hlo
        _ = a / 2 ^ w * 2 ^ w * 2 ^ n := Nat.mul_right_comm _ _ _
        _ ≤ a * 2 ^ n := Nat.mul_le_mul_right _ (Nat.div_mul_le_self _ _)
    · -- The second word does not reach the bits that the shift leaves.
      have hstep : (a / 2 ^ w + 1) * 2 ^ n ≤ 2 ^ w := by
        have hdvd : 2 ^ w = 2 ^ (w - n) * 2 ^ n := by rw [← pow_add]; congr 1; omega
        rw [hdvd] at hhi ⊢
        exact Nat.mul_le_mul_right _ (Nat.lt_of_mul_lt_mul_right hhi)
      calc a * 2 ^ n < (a / 2 ^ w + 1) * 2 ^ w * 2 ^ n := by
            refine Nat.mul_lt_mul_of_pos_right ?_ (Nat.two_pow_pos n)
            rw [Nat.add_mul, Nat.one_mul]
            exact Nat.lt_div_mul_add (Nat.two_pow_pos w)
        _ = (a / 2 ^ w + 1) * 2 ^ n * 2 ^ w := Nat.mul_right_comm _ _ _
        _ ≤ 2 ^ (w + w) := by rw [hpow]; exact Nat.mul_le_mul_right _ hstep
  · next heq =>
    have hsmall : a < 2 ^ w := (Nat.div_eq_zero_iff_lt (Nat.two_pow_pos w)).1 (not_not.1 heq)
    rw [Nat.mod_eq_of_lt hsmall]
    obtain ⟨hn, hlo, hhi⟩ := clz_spec ha hsmall
    refine (clz_eq ?_ ?_ (by omega)).symm
    · rw [hhalf, Nat.add_comm, pow_add, ← Nat.mul_assoc]
      exact Nat.mul_le_mul_right _ hlo
    · rw [hpow, Nat.add_comm w (clz w a), pow_add, ← Nat.mul_assoc]
      exact Nat.mul_lt_mul_of_pos_right hhi (Nat.two_pow_pos w)

/-- A sum that has left the word, shifted to the right together with its carry. -/
theorem or_carry (hlo : 2 ^ (w + 1) ≤ a) (hhi : a < 2 ^ (w + 2)) : 2 ^ w ||| (a - 2 ^ (w + 1)) / 2 = a / 2 := by
  have h₁ : 2 ^ (w + 1) = 2 * 2 ^ w := pow_succ' 2 w
  have h₂ : 2 ^ (w + 2) = 4 * 2 ^ w := by rw [pow_add]; ring
  have hor := Nat.two_pow_add_eq_or_of_lt (show (a - 2 ^ (w + 1)) / 2 < 2 ^ w by omega) 1
  rw [Nat.mul_one] at hor
  omega

/-! ## Double words -/

/-- The upper of two words that are shifted to the left together. -/
theorem or_shl (hb : b < 2 ^ w) (hn : n ≤ w) :
    a * 2 ^ n % 2 ^ w ||| b / 2 ^ (w - n) = (a * 2 ^ n + b / 2 ^ (w - n)) % 2 ^ w := by
  have hpow : 2 ^ w = 2 ^ n * 2 ^ (w - n) := by rw [← pow_add, Nat.add_sub_cancel' hn]
  have hsmall : b / 2 ^ (w - n) < 2 ^ n := by
    rw [Nat.div_lt_iff_lt_mul (Nat.two_pow_pos _), ← hpow]
    exact hb
  generalize b / 2 ^ (w - n) = s at hsmall
  have hmul : a * 2 ^ n % 2 ^ w = 2 ^ n * (a % 2 ^ (w - n)) := by
    rw [hpow, Nat.mul_comm a, Nat.mul_mod_mul_left]
  have hsplit : a * 2 ^ n + s = 2 ^ n * (a % 2 ^ (w - n)) + s + 2 ^ w * (a / 2 ^ (w - n)) := by
    rw [hpow, Nat.mul_assoc, Nat.add_right_comm, ← Nat.mul_add, Nat.mod_add_div, Nat.mul_comm]
  have hlt : 2 ^ n * (a % 2 ^ (w - n)) + s < 2 ^ w := by
    have hmod : a % 2 ^ (w - n) < 2 ^ (w - n) := Nat.mod_lt _ (Nat.two_pow_pos _)
    calc 2 ^ n * (a % 2 ^ (w - n)) + s < 2 ^ n * (a % 2 ^ (w - n)) + 2 ^ n := Nat.add_lt_add_left hsmall _
      _ = 2 ^ n * (a % 2 ^ (w - n) + 1) := by ring
      _ ≤ 2 ^ w := by rw [hpow]; exact Nat.mul_le_mul_left _ hmod
  rw [hmul, ← Nat.two_pow_add_eq_or_of_lt hsmall, hsplit, Nat.add_mul_mod_self_left, Nat.mod_eq_of_lt hlt]

/-- Two words that are shifted to the left together. -/
theorem shl_double (hb : b < 2 ^ w) (hn : n ≤ w) :
    (a * 2 ^ n % 2 ^ w ||| b / 2 ^ (w - n)) * 2 ^ w + b * 2 ^ n % 2 ^ w = (a * 2 ^ w + b) * 2 ^ n % (2 ^ w * 2 ^ w) := by
  have hpow : 2 ^ w = 2 ^ n * 2 ^ (w - n) := by rw [← pow_add, Nat.add_sub_cancel' hn]
  have hlow : b * 2 ^ n = b / 2 ^ (w - n) * 2 ^ w + b * 2 ^ n % 2 ^ w := by
    have hmod : b * 2 ^ n % 2 ^ w = b % 2 ^ (w - n) * 2 ^ n := by
      rw [hpow, Nat.mul_comm b, Nat.mul_mod_mul_left, Nat.mul_comm]
    rw [hmod, hpow, Nat.mul_comm (2 ^ n), ← Nat.mul_assoc, ← Nat.add_mul, Nat.div_add_mod']
  have hall : (a * 2 ^ w + b) * 2 ^ n = (a * 2 ^ n + b / 2 ^ (w - n)) * 2 ^ w + b * 2 ^ n % 2 ^ w := by
    calc (a * 2 ^ w + b) * 2 ^ n = a * 2 ^ n * 2 ^ w + b * 2 ^ n := by ring
      _ = a * 2 ^ n * 2 ^ w + (b / 2 ^ (w - n) * 2 ^ w + b * 2 ^ n % 2 ^ w) := by rw [← hlow]
      _ = (a * 2 ^ n + b / 2 ^ (w - n)) * 2 ^ w + b * 2 ^ n % 2 ^ w := by ring
  have hrest : b * 2 ^ n % 2 ^ w < 2 ^ w := Nat.mod_lt _ (Nat.two_pow_pos w)
  rw [or_shl hb hn, hall]
  generalize b * 2 ^ n % 2 ^ w = low at hrest
  generalize a * 2 ^ n + b / 2 ^ (w - n) = high
  rw [Nat.mod_mul, Nat.mul_comm high, Nat.mul_add_mod, Nat.mod_eq_of_lt hrest, Nat.mul_add_div (Nat.two_pow_pos w),
    Nat.div_eq_of_lt hrest, Nat.add_zero, Nat.mul_comm, Nat.add_comm]

/-- Two words that are shifted to the right together. -/
theorem shr_double (hb : b < 2 ^ w) (hn : n ≤ w) :
    a / 2 ^ n * 2 ^ w + (b / 2 ^ n ||| a * 2 ^ (w - n) % 2 ^ w) = (a * 2 ^ w + b) / 2 ^ n := by
  have hpow : 2 ^ w = 2 ^ (w - n) * 2 ^ n := by rw [← pow_add, Nat.sub_add_cancel hn]
  have hsmall : b / 2 ^ n < 2 ^ (w - n) := by
    rw [Nat.div_lt_iff_lt_mul (Nat.two_pow_pos _), ← hpow]
    exact hb
  have hmul : a * 2 ^ (w - n) % 2 ^ w = 2 ^ (w - n) * (a % 2 ^ n) := by
    rw [hpow, Nat.mul_comm a, Nat.mul_mod_mul_left]
  have hdiv : (a * 2 ^ w + b) / 2 ^ n = a * 2 ^ (w - n) + b / 2 ^ n := by
    rw [hpow, ← Nat.mul_assoc, Nat.add_comm, Nat.add_mul_div_right _ _ (Nat.two_pow_pos _), Nat.add_comm]
  rw [hdiv, Nat.or_comm, hmul, ← Nat.two_pow_add_eq_or_of_lt hsmall]
  calc a / 2 ^ n * 2 ^ w + (2 ^ (w - n) * (a % 2 ^ n) + b / 2 ^ n)
      = (a / 2 ^ n * 2 ^ n + a % 2 ^ n) * 2 ^ (w - n) + b / 2 ^ n := by rw [hpow]; ring
    _ = a * 2 ^ (w - n) + b / 2 ^ n := by rw [Nat.div_add_mod']

end Word
