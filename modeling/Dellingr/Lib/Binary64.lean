import Mathlib.Data.Nat.Log
import Mathlib.Tactic.Ring
import Mathlib.Tactic.Linarith

/-!
# The binary64 format

A double is its 64 bits: a sign, an 11-bit biased exponent and a 52-bit
fraction.

* `feq`: the equality of the hardware, under which a NaN is not equal to itself
  and the two zeros are equal;
* `exactNat`: the natural number a double is equal to, if it is one;
* `ofNat`: the conversion of a natural number, rounded to nearest, ties to
  even, exact up to `2 ^ 53` (`exactNat_ofNat`);
* `feq_of_exactNat`: a natural number is represented once, up to `feq`.
-/

/-- A double, as its 64 bits. -/
structure F64 where
  bits : BitVec 64
  deriving DecidableEq, Repr

namespace F64

/-- The sign bit. -/
def sign (x : F64) : Bool := x.bits.msb

/-- The biased exponent. -/
def exponent (x : F64) : Nat := x.bits.toNat / 2 ^ 52 % 2 ^ 11

/-- The fraction, below the leading bit of the significand. -/
def fraction (x : F64) : Nat := x.bits.toNat % 2 ^ 52

def isNan (x : F64) : Bool := x.exponent == 2047 && x.fraction != 0

/-- Either zero: only the sign bit may be set. -/
def isZero (x : F64) : Bool := x.exponent == 0 && x.fraction == 0

/-- The significand of a normal double, its leading bit included: the double is
    `significand * 2 ^ (exponent - 1075)`, up to the sign. -/
def significand (x : F64) : Nat := 2 ^ 52 + x.fraction

/-- The equality of the hardware: NaN is unequal to everything, and the zeros
    are equal. -/
def feq (x y : F64) : Bool :=
  !x.isNan && !y.isNan && (x == y || (x.isZero && y.isZero))

/-- The natural number `x` is equal to, if it is a nonnegative integer. -/
def exactNat (x : F64) : Option Nat :=
  if x.isZero then some 0
  else if x.sign || x.exponent == 2047 || x.exponent < 1023 then none
  else if 1075 ≤ x.exponent then some (x.significand * 2 ^ (x.exponent - 1075))
  else if x.significand % 2 ^ (1075 - x.exponent) = 0 then
    some (x.significand / 2 ^ (1075 - x.exponent))
  else none

/-- The double of the given bits, as a number. -/
def ofBits (n : Nat) : F64 := ⟨BitVec.ofNat 64 n⟩

/-- The conversion of a natural number (below `2 ^ 64`), rounded to nearest,
    ties to even. The significand carries its leading bit into the exponent
    field, and so does a significand rounded up to the next power of two. -/
def ofNat (n : Nat) : F64 :=
  if n = 0 then ofBits 0
  else
    let k := Nat.log2 n
    if k ≤ 52 then ofBits ((k + 1022) * 2 ^ 52 + n * 2 ^ (52 - k))
    else
      let s := k - 52
      let q := n / 2 ^ s
      let r := n % 2 ^ s
      let q' := if 2 ^ s < 2 * r ∨ (2 ^ s = 2 * r ∧ q % 2 = 1) then q + 1 else q
      ofBits ((k + 1022) * 2 ^ 52 + q')

/-! ## Fields -/

theorem fraction_lt (x : F64) : x.fraction < 2 ^ 52 := Nat.mod_lt _ (by norm_num)

/-- The bits of a double are those of its fields. -/
theorem toNat_eq (x : F64) :
    x.bits.toNat = (if x.sign then 2 ^ 63 else 0) + x.exponent * 2 ^ 52 + x.fraction := by
  have hlt := x.bits.isLt
  have hs : x.sign = decide (2 ^ 63 ≤ x.bits.toNat) := by
    rw [sign, BitVec.msb_eq_decide]
  rw [hs]
  simp only [exponent, fraction, decide_eq_true_eq]
  split <;> omega

/-- A double is determined by its fields. -/
theorem ext_fields {x y : F64} (hs : x.sign = y.sign) (he : x.exponent = y.exponent)
    (hf : x.fraction = y.fraction) : x = y := by
  have h : x.bits = y.bits := BitVec.eq_of_toNat_eq (by rw [toNat_eq x, toNat_eq y, hs, he, hf])
  cases x
  cases y
  exact congrArg F64.mk h

/-! ## Equality -/

@[simp] theorem feq_self {x : F64} : x.feq x = !x.isNan := by
  simp [feq]

theorem feq_comm (x y : F64) : x.feq y = y.feq x := by
  have h : (x == y) = (y == x) := Bool.beq_comm
  rw [feq, feq, h, Bool.and_comm x.isZero, Bool.and_comm (!x.isNan)]

theorem feq_trans {x y z : F64} (hxy : x.feq y = true) (hyz : y.feq z = true) :
    x.feq z = true := by
  simp only [feq, Bool.and_eq_true, Bool.or_eq_true, beq_iff_eq, Bool.not_eq_true'] at *
  obtain ⟨⟨hx, _⟩, h₁⟩ := hxy
  obtain ⟨⟨_, hz⟩, h₂⟩ := hyz
  refine ⟨⟨hx, hz⟩, ?_⟩
  rcases h₁ with rfl | ⟨hx₀, hy₀⟩
  · exact h₂
  · rcases h₂ with rfl | ⟨_, hz₀⟩
    · exact .inr ⟨hx₀, hy₀⟩
    · exact .inr ⟨hx₀, hz₀⟩

/-! ## Natural numbers -/

/-- The doubles equal to a natural number: the zeros, and the positive normal
    numbers without a fractional part. -/
theorem exactNat_eq_some {x : F64} {n : Nat} : x.exactNat = some n ↔
    (x.isZero = true ∧ n = 0) ∨
      (x.isZero = false ∧ x.sign = false ∧ x.exponent ≠ 2047 ∧ 1023 ≤ x.exponent ∧
        n * 2 ^ (1075 - x.exponent) = x.significand * 2 ^ (x.exponent - 1075)) := by
  rw [exactNat]
  cases hz : x.isZero with
  | true => simp only [if_true, true_and, Option.some.injEq, eq_comm, reduceCtorEq, false_and, or_false]
  | false => ?_
  simp only [Bool.false_eq_true, if_false, false_and, false_or, true_and]
  by_cases hr : (x.sign || x.exponent == 2047 || decide (x.exponent < 1023)) = true
  · rw [if_pos hr]
    simp only [Bool.or_eq_true, beq_iff_eq, decide_eq_true_eq] at hr
    refine ⟨fun h => absurd h (by simp), fun ⟨hs, he, hlt, _⟩ => ?_⟩
    rcases hr with (h | h) | h
    · exact absurd (hs.symm.trans h) (by decide)
    · exact absurd h he
    · omega
  rw [if_neg hr]
  simp only [Bool.or_eq_true, beq_iff_eq, decide_eq_true_eq, not_or, Bool.not_eq_true,
    not_lt] at hr
  obtain ⟨⟨hs, he⟩, hlt⟩ := hr
  simp only [hs, he, hlt, ne_eq, not_false_eq_true, true_and]
  by_cases h : 1075 ≤ x.exponent
  · rw [if_pos h, Nat.sub_eq_zero_of_le h, pow_zero, Nat.mul_one, Option.some.injEq, eq_comm]
  · have hp : 0 < 2 ^ (1075 - x.exponent) := by positivity
    rw [if_neg h, show x.exponent - 1075 = 0 by omega, pow_zero, Nat.mul_one]
    constructor
    · intro hn
      split at hn
      · rename_i hd
        obtain rfl := Option.some.inj hn
        exact Nat.div_mul_cancel (Nat.dvd_of_mod_eq_zero hd)
      · simp at hn
    · intro hn
      rw [if_pos (by rw [← hn]; exact Nat.mul_mod_left _ _), ← hn, Nat.mul_div_cancel _ hp]

theorem not_isNan_of_exactNat {x : F64} {n : Nat} (h : x.exactNat = some n) :
    x.isNan = false := by
  rcases exactNat_eq_some.1 h with ⟨hz, _⟩ | ⟨_, _, he, _⟩
  · simp only [isZero, Bool.and_eq_true, beq_iff_eq] at hz
    simp [isNan, hz.1]
  · simp [isNan, he]

/-- The exponent of a double equal to a natural number is that of the number. -/
theorem exactNat_bounds {e n m : Nat} (he : 1023 ≤ e) (h₁ : 2 ^ 52 ≤ m) (h₂ : m < 2 ^ 53)
    (h : n * 2 ^ (1075 - e) = m * 2 ^ (e - 1075)) :
    2 ^ (e - 1023) ≤ n ∧ n < 2 ^ (e - 1023 + 1) := by
  by_cases hle : e ≤ 1075
  · rw [show e - 1075 = 0 by omega, pow_zero, Nat.mul_one] at h
    have hp : 0 < 2 ^ (1075 - e) := by positivity
    have h52 : 2 ^ 52 = 2 ^ (e - 1023) * 2 ^ (1075 - e) := by rw [← pow_add]; congr 1; omega
    have h53 : 2 ^ 53 = 2 ^ (e - 1023 + 1) * 2 ^ (1075 - e) := by rw [← pow_add]; congr 1; omega
    constructor
    · exact Nat.le_of_mul_le_mul_right (by rw [← h52, h]; exact h₁) hp
    · exact Nat.lt_of_mul_lt_mul_right (a := 2 ^ (1075 - e)) (by rw [← h53, h]; exact h₂)
  · rw [show 1075 - e = 0 by omega, pow_zero, Nat.mul_one] at h
    have hp : 0 < 2 ^ (e - 1075) := by positivity
    have h52 : 2 ^ (e - 1023) = 2 ^ 52 * 2 ^ (e - 1075) := by
      rw [show e - 1023 = 52 + (e - 1075) by omega, pow_add]
    have h53 : 2 ^ (e - 1023 + 1) = 2 ^ 53 * 2 ^ (e - 1075) := by
      rw [show e - 1023 + 1 = 53 + (e - 1075) by omega, pow_add]
    rw [h, h52, h53]
    exact ⟨Nat.mul_le_mul_right _ h₁, Nat.mul_lt_mul_of_pos_right h₂ hp⟩

/-- A natural number is represented once, up to the sign of zero. -/
theorem feq_of_exactNat {x y : F64} {n : Nat} (hx : x.exactNat = some n)
    (hy : y.exactNat = some n) : x.feq y = true := by
  have hnx := not_isNan_of_exactNat hx
  have hny := not_isNan_of_exactNat hy
  simp only [feq, hnx, hny, Bool.not_false, Bool.true_and, Bool.or_eq_true, beq_iff_eq,
    Bool.and_eq_true]
  have hfx := x.fraction_lt
  have hfy := y.fraction_lt
  rcases exactNat_eq_some.1 hx with ⟨hzx, hn⟩ | ⟨hzx, hsx, _, hex, hmx⟩
  · rcases exactNat_eq_some.1 hy with ⟨hzy, _⟩ | ⟨_, _, _, hey, hmy⟩
    · exact .inr ⟨hzx, hzy⟩
    · have := (exactNat_bounds hey (by simp [significand]) (by simp only [significand]; omega) hmy).1
      exact absurd this (by rw [hn]; exact Nat.not_le.2 (by positivity))
  · have hbx := exactNat_bounds hex (by simp [significand]) (by simp only [significand]; omega) hmx
    have hpx : 0 < 2 ^ (x.exponent - 1023) := by positivity
    rcases exactNat_eq_some.1 hy with ⟨_, hn⟩ | ⟨_, hsy, _, hey, hmy⟩
    · omega
    have hby := exactNat_bounds hey (by simp [significand]) (by simp only [significand]; omega) hmy
    have hn : n ≠ 0 := by omega
    have he : x.exponent = y.exponent := by
      have h₁ := (Nat.log2_eq_iff hn).2 hbx
      have h₂ := (Nat.log2_eq_iff hn).2 hby
      omega
    refine .inl (ext_fields (hsx.trans hsy.symm) he ?_)
    rw [he, hmy] at hmx
    have := Nat.eq_of_mul_eq_mul_right (by positivity) hmx
    simp only [significand] at this
    omega

/-- Equal doubles are equal to the same natural numbers. -/
theorem exactNat_congr {x y : F64} (h : x.feq y = true) : x.exactNat = y.exactNat := by
  simp only [feq, Bool.and_eq_true, Bool.or_eq_true, beq_iff_eq] at h
  rcases h.2 with rfl | ⟨hx, hy⟩
  · rfl
  · rw [exactNat, exactNat, if_pos hx, if_pos hy]

theorem toNat_ofBits {n : Nat} (h : n < 2 ^ 64) : (ofBits n).bits.toNat = n := by
  rw [ofBits, BitVec.toNat_ofNat, Nat.mod_eq_of_lt h]

/-- The double with exponent field `e + 1` and significand `m`, leading bit
    included. -/
theorem exactNat_ofBits {e m n : Nat} (h₀ : 1022 ≤ e) (he : e < 2046) (h₁ : 2 ^ 52 ≤ m)
    (h₂ : m < 2 ^ 53) (hn : n * 2 ^ (1074 - e) = m * 2 ^ (e - 1074)) :
    (ofBits (e * 2 ^ 52 + m)).exactNat = some n := by
  have hb : (ofBits (e * 2 ^ 52 + m)).bits.toNat = e * 2 ^ 52 + m := toNat_ofBits (by omega)
  have hexp : (ofBits (e * 2 ^ 52 + m)).exponent = e + 1 := by rw [exponent, hb]; omega
  have hsig : (ofBits (e * 2 ^ 52 + m)).significand = m := by
    rw [significand, fraction, hb]; omega
  refine exactNat_eq_some.2 (.inr ⟨?_, ?_, by omega, by omega, ?_⟩)
  · rw [isZero, hexp, beq_eq_false_iff_ne.2 (Nat.succ_ne_zero e), Bool.false_and]
  · rw [sign, BitVec.msb_eq_decide, hb]
    exact decide_eq_false (by omega)
  · rw [hexp, hsig, show 1075 - (e + 1) = 1074 - e by omega,
      show e + 1 - 1075 = e - 1074 by omega, hn]

/-- The conversion is exact up to `2 ^ 53`. -/
theorem exactNat_ofNat {n : Nat} (h : n ≤ 2 ^ 53) : (ofNat n).exactNat = some n := by
  by_cases h0 : n = 0
  · subst h0
    decide
  obtain ⟨hlo, hhi⟩ : 2 ^ n.log2 ≤ n ∧ n < 2 ^ (n.log2 + 1) := (Nat.log2_eq_iff h0).1 rfl
  rw [ofNat, if_neg h0]
  simp only
  split
  · rename_i hk
    have h52 : 2 ^ 52 = 2 ^ n.log2 * 2 ^ (52 - n.log2) := by rw [← pow_add]; congr 1; omega
    have h53 : 2 ^ 53 = 2 ^ (n.log2 + 1) * 2 ^ (52 - n.log2) := by rw [← pow_add]; congr 1; omega
    refine exactNat_ofBits (by omega) (by omega) ?_ ?_ ?_
    · rw [h52]; exact Nat.mul_le_mul_right _ hlo
    · rw [h53]; exact Nat.mul_lt_mul_of_pos_right hhi (by positivity)
    · rw [show n.log2 + 1022 - 1074 = 0 by omega, show 1074 - (n.log2 + 1022) = 52 - n.log2 by omega]
      rw [pow_zero, Nat.mul_one]
  · -- Above `2 ^ 53 - 1` there is only `2 ^ 53`, a power of two.
    rename_i hk
    have hn : n = 2 ^ 53 := by
      refine Nat.le_antisymm h ?_
      calc 2 ^ 53 ≤ 2 ^ n.log2 := Nat.pow_le_pow_right (by norm_num) (by omega)
        _ ≤ n := hlo
    have hk' : n.log2 = 53 := by rw [hn]; exact Nat.log2_two_pow
    rw [hk', hn]
    exact exactNat_ofBits (by norm_num) (by norm_num) (by norm_num) (by norm_num) (by norm_num)

/-- Doubles equal to the same natural number up to `2 ^ 53` are equal to its
    conversion. -/
theorem feq_ofNat_iff {x : F64} {n : Nat} (h : n ≤ 2 ^ 53) :
    x.feq (ofNat n) = true ↔ x.exactNat = some n := by
  refine ⟨fun hx => ?_, fun hx => feq_of_exactNat hx (exactNat_ofNat h)⟩
  rw [exactNat_congr hx, exactNat_ofNat h]

end F64
