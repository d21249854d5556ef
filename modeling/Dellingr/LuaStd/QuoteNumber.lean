import Dellingr.LuaStd.QuoteString

/-!
# Quoted numbers read back

What `%q` writes for a finite number is read back by the reader of numerals, bit for bit
(`parseLuaNumeral_quoteNumber`).

* An integer is written in decimal and read by the standard library, of which it is assumed
  that a decimal integer that a double represents is read as that double (`ReadsIntegers`).
* Any other number is written as a hexadecimal float: its significand, without the zeros at its
  end, and its exponent. Reading the digits gives the significand shifted right
  (`foldlM_step`), and assembling the bits shifts it back (`finishHex_significand`).
-/

namespace Dellingr.Numeral

open Patterns (ascii isAsciiDigit isAsciiHexdigit isLuaWhitespace)

/-- Decimal integers that a double represents are read as the double. This is all that is used of
    the standard library, whose reader rounds to the nearest double. -/
def FloatOps.ReadsIntegers (ops : FloatOps) : Prop :=
  ∀ (text : List UInt8) (x : F64), text ≠ [] → (∀ c ∈ text, isAsciiDigit c = true) → x.sign = false →
    x.exactNat = some (Digits.value 10 text) → ops.parseF64 text = some x

variable {ops : FloatOps}

/-! ## The parts of a numeral -/

/-- Text without whitespace is not trimmed. -/
theorem trimLuaWhitespace_eq {text : List UInt8} (h : ∀ c ∈ text, isLuaWhitespace c = false) :
    trimLuaWhitespace text = text := by
  have hdrop : text.dropWhile isLuaWhitespace = text := by
    cases text with
    | nil => rfl
    | cons c text => rw [List.dropWhile_cons_of_neg]; simp [h c List.mem_cons_self]
  rw [trimLuaWhitespace, hdrop, List.rdropWhile_eq_self_iff]
  intro hne
  simp [h _ (List.getLast_mem hne)]

/-- A minus before a digit is a sign, and a digit is none. -/
theorem parseLuaNumeral_signed {body : List UInt8} {d : UInt8} (hhead : body.head? = some d)
    (hd : isAsciiDigit d = true) (hspace : ∀ c ∈ body, isLuaWhitespace c = false) (negative : Bool) :
    parseLuaNumeral ops (if negative then ascii '-' :: body else body) =
      (parseUnsigned ops body).map fun value => if negative then value.neg else value := by
  have hsign : splitSign body = (false, body) := by
    cases body with
    | nil => cases hhead
    | cons c body =>
      obtain rfl : c = d := by simpa using hhead
      have hminus : c ≠ ascii '-' := by rintro rfl; revert hd; decide
      have hplus : c ≠ ascii '+' := by rintro rfl; revert hd; decide
      simp [splitSign, hminus, hplus]
  have htrim : ∀ c ∈ (if negative then ascii '-' :: body else body), isLuaWhitespace c = false := by
    cases negative with
    | false => exact hspace
    | true =>
      intro c hm
      rcases List.mem_cons.1 hm with rfl | hm
      · decide
      · exact hspace c hm
  rw [parseLuaNumeral, trimLuaWhitespace_eq htrim]
  cases negative with
  | false => rw [if_neg Bool.false_ne_true, hsign]
  | true => rfl

theorem isLuaWhitespace_of_isAsciiHexdigit {c : UInt8} (h : isAsciiHexdigit c = true) :
    isLuaWhitespace c = false := by
  simp only [isLuaWhitespace, Bool.or_eq_false_iff, beq_eq_false_iff_ne]
  refine ⟨⟨⟨⟨⟨?_, ?_⟩, ?_⟩, ?_⟩, ?_⟩, ?_⟩ <;> rintro rfl <;> revert h <;> decide

theorem isAsciiHexdigit_of_isAsciiDigit {c : UInt8} (h : isAsciiDigit c = true) :
    isAsciiHexdigit c = true := by
  rw [isAsciiHexdigit, h]
  rfl

/-! ## Decimal integers -/

/-- A decimal integer is left to the standard library. -/
theorem parseDecimal_bytes (n : Nat) : parseDecimal ops (Digits.bytes 10 n) = ops.parseF64 (Digits.bytes 10 n) := by
  have hdigit : ∀ c ∈ Digits.bytes 10 n, isAsciiDigit c = true := fun c hm => isAsciiDigit_of_mem_bytes hm
  have hmarker : ∀ c ∈ Digits.bytes 10 n, c ≠ ascii 'e' ∧ c ≠ ascii 'E' := by
    intro c hm
    have hd := hdigit c hm
    constructor <;> rintro rfl <;> revert hd <;> decide
  have hvalid : validateMantissa (Digits.bytes 10 n) isAsciiDigit = some (Digits.bytes 10 n).length := by
    have hloop := @validateMantissaLoop_digits isAsciiDigit (Digits.bytes 10 n) 0 0 (fun c hm =>
      ⟨hdigit c hm, by rintro rfl; have hd := hdigit _ hm; revert hd; decide⟩) []
    rw [List.append_nil, Nat.zero_add] at hloop
    exact hloop
  have hlen : (Digits.bytes 10 n).length ≠ 0 := fun h => Digits.bytes_ne_nil (List.eq_nil_of_length_eq_zero h)
  rw [parseDecimal, splitExponent_none hmarker]
  simp only [Option.bind_eq_bind, Option.bind_some, hvalid, hlen, if_false]

/-- A decimal integer that a double represents is read as the double, with its sign. -/
theorem parseLuaNumeral_bytes (hops : ops.ReadsIntegers) {x : F64} {n : Nat}
    (h : x.abs.exactNat = some n) :
    parseLuaNumeral ops (if x.sign then ascii '-' :: Digits.bytes 10 n else Digits.bytes 10 n) = some x := by
  have hdigit : ∀ c ∈ Digits.bytes 10 n, isAsciiDigit c = true := fun c hm => isAsciiDigit_of_mem_bytes hm
  obtain ⟨d, ds, hds⟩ := List.exists_cons_of_ne_nil (@Digits.bytes_ne_nil 10 n)
  have hhex : ∀ c ∈ [ascii 'x', ascii 'X'], ([ascii '0', c].isPrefixOf (Digits.bytes 10 n)) = false := by
    intro c hc
    rw [Bool.eq_false_iff]
    intro hpre
    have hmem : c ∈ Digits.bytes 10 n := (List.isPrefixOf_iff_prefix.1 hpre).subset (by simp)
    have hd := hdigit c hmem
    simp only [List.mem_cons, List.not_mem_nil, or_false] at hc
    rcases hc with rfl | rfl <;> revert hd <;> decide
  have hx : ops.parseF64 (Digits.bytes 10 n) = some x.abs :=
    hops _ _ Digits.bytes_ne_nil hdigit (F64.sign_abs x)
      (by rw [Digits.value_bytes (by norm_num) (by norm_num)]; exact h)
  have hhead : (Digits.bytes 10 n).head? = some d := by rw [hds]; rfl
  have hd : isAsciiDigit d = true := hdigit d (by rw [hds]; exact List.mem_cons_self)
  rw [parseLuaNumeral_signed hhead hd (fun c hm =>
    isLuaWhitespace_of_isAsciiHexdigit (isAsciiHexdigit_of_isAsciiDigit (hdigit c hm)))]
  rw [parseUnsigned, hhex _ (by simp), hhex _ (by simp), Bool.or_false, if_neg Bool.false_ne_true,
    parseDecimal_bytes, hx]
  cases hs : x.sign with
  | false => simp [F64.abs_of_sign hs]
  | true => simp [F64.neg_abs hs]

/-! ## Exponents -/

/-- The magnitude of an exponent within the limit is read exactly. -/
theorem foldl_magnitude {ds : List UInt8} {limit : Int} {n : Nat}
    (hds : ∀ c ∈ ds, isAsciiDigit c = true) (hlimit : limit ≤ 2 ^ 32)
    (hle : ((n * 10 ^ ds.length + Digits.value 10 ds : Nat) : Int) ≤ limit) :
    ds.foldl (fun magnitude byte =>
      min (saturate (saturate (magnitude * 10) + (byte - ascii '0').toNat)) limit) (n : Int) =
        ((n * 10 ^ ds.length + Digits.value 10 ds : Nat) : Int) := by
  induction ds generalizing n with
  | nil => simp
  | cons c ds ih =>
    have hvalue : n * 10 ^ (c :: ds).length + Digits.value 10 (c :: ds) =
        (n * 10 + Digits.digit c) * 10 ^ ds.length + Digits.value 10 ds := by
      rw [Digits.value_cons, List.length_cons, pow_succ]
      ring
    rw [hvalue] at hle ⊢
    -- Each prefix of the digits is at most the whole number.
    have hpos : 1 ≤ 10 ^ ds.length := Nat.one_le_pow _ _ (by norm_num)
    have hpart : n * 10 + Digits.digit c ≤ (n * 10 + Digits.digit c) * 10 ^ ds.length :=
      Nat.le_mul_of_pos_right _ hpos
    have hdigit := toNat_sub_of_isAsciiDigit (hds c List.mem_cons_self)
    have hstep : min (saturate (saturate ((n : Int) * 10) + (c - ascii '0').toNat)) limit =
        ((n * 10 + Digits.digit c : Nat) : Int) := by
      have hten : saturate ((n : Int) * 10) = n * 10 := saturate_of_mem (by omega) (by omega)
      rw [hdigit, hten, saturate_of_mem (by omega) (by omega), min_eq_left (by omega)]
      push_cast
      rfl
    rw [List.foldl_cons, hstep]
    exact ih (fun c hm => hds c (List.mem_cons_of_mem _ hm)) hle

/-- An exponent within the limit is read exactly. -/
theorem parseSignedI64Saturating_signedText {e limit : Int} (hlimit : limit ≤ 2 ^ 32)
    (hle : (e.natAbs : Int) ≤ limit) :
    parseSignedI64Saturating (StringFormat.signedText e) limit = some e := by
  have hdigit : ∀ c ∈ Digits.bytes 10 e.natAbs, isAsciiDigit c = true := fun c hm =>
    isAsciiDigit_of_mem_bytes hm
  have hsplit : splitSign (StringFormat.signedText e) = (decide (e < 0), Digits.bytes 10 e.natAbs) := by
    rw [StringFormat.signedText]
    by_cases he : e < 0
    · simp [he, splitSign]
    · simp only [he, if_false, splitSign]
      rfl
  have hvalid : validateSignedDigits (StringFormat.signedText e) = some () := by
    have hall : (Digits.bytes 10 e.natAbs).all isAsciiDigit = true := List.all_eq_true.2 hdigit
    have hne : (Digits.bytes 10 e.natAbs).isEmpty = false := by
      rw [List.isEmpty_eq_false_iff]
      exact Digits.bytes_ne_nil
    rw [validateSignedDigits, hsplit]
    simp [hall, hne]
  have hvalue : Digits.value 10 (Digits.bytes 10 e.natAbs) = e.natAbs :=
    Digits.value_bytes (by norm_num) (by norm_num)
  have hfold := @foldl_magnitude (Digits.bytes 10 e.natAbs) limit 0 hdigit hlimit
    (by rw [Nat.zero_mul, Nat.zero_add, hvalue]; exact hle)
  rw [Nat.zero_mul, Nat.zero_add, hvalue] at hfold
  rw [parseSignedI64Saturating, hvalid]
  simp only [Option.bind_eq_bind, Option.bind_some, hsplit]
  rw [show ((0 : Nat) : Int) = 0 from rfl] at hfold
  rw [hfold]
  by_cases he : e < 0
  · simp only [he, decide_true, if_true, pure, Option.some.injEq]
    omega
  · simp only [he, decide_false, Bool.false_eq_true, if_false, pure, Option.some.injEq]
    omega

/-! ## Hexadecimal digits -/

theorem hexValue_byte {d : Nat} (h : d < 16) : hexValue (Digits.byte d) = some (UInt8.ofNat d) := by
  interval_cases d <;> rfl

theorem isAsciiHexdigit_byte {d : Nat} (h : d < 16) : isAsciiHexdigit (Digits.byte d) = true := by
  interval_cases d <;> rfl

namespace HexState

/-- No digit has been dropped: the digits read are the prefix, the first of them not zero. -/
structure Exact (s : HexState) (significant fractional : Nat) : Prop where
  significantDigits : s.significantDigits = significant
  fractionalDigits : s.fractionalDigits = fractional
  droppedDigits : s.droppedDigits = 0
  droppedNonzero : s.droppedNonzero = false
  prefix_lt : s.prefixBits < 16 ^ significant
  prefix_pos : significant ≠ 0 → 0 < s.prefixBits

variable {s : HexState} {significant fractional : Nat}

theorem exact_start : Exact start 0 0 := ⟨rfl, rfl, rfl, rfl, by decide, fun h => absurd rfl h⟩

/-- Reading a digit that fits. -/
theorem Exact.step (h : s.Exact significant fractional) (hs : significant < 16)
    (hf : fractional < 2 ^ 32) {d : Nat} (hd : d < 16) :
    ∃ s' significant', s.step (Digits.byte d) = some s' ∧ significant' ≤ significant + 1 ∧
      s'.Exact significant' (if s.fractional then fractional + 1 else fractional) ∧
      s'.prefixBits = s.prefixBits * 16 + d ∧ s'.fractional = s.fractional := by
  have hbyte : Digits.byte d ≠ ascii '.' := (ne_of_isAsciiHexdigit (isAsciiHexdigit_byte hd)).1
  have hdigit : (UInt8.ofNat d).toNat = d := by
    rw [UInt8.toNat_ofNat']
    omega
  have hzero : UInt8.ofNat d = 0 ↔ d = 0 := by
    rw [← UInt8.toNat_inj, hdigit]
    rfl
  have hfrac : saturate (s.fractionalDigits + 1) = ((fractional + 1 : Nat) : Int) := by
    rw [h.fractionalDigits, saturate_of_mem (by omega) (by omega)]
    rfl
  have hstep : s.step (Digits.byte d) = some (s.readDigit (UInt8.ofNat d)) := by
    rw [HexState.step, hexValue_byte hd]
    simp [hbyte]
  -- The point is counted first.
  obtain ⟨s₁, hs₁, h₁, hbits, hpoint⟩ : ∃ s₁ : HexState,
      (if s.fractional then { s with fractionalDigits := saturate (s.fractionalDigits + 1) } else s) = s₁ ∧
        s₁.Exact significant (if s.fractional then fractional + 1 else fractional) ∧
        s₁.prefixBits = s.prefixBits ∧ s₁.fractional = s.fractional := by
    refine ⟨_, rfl, ?_⟩
    cases hp : s.fractional with
    | true => exact ⟨⟨h.1, hfrac, h.3, h.4, h.5, h.6⟩, rfl, rfl⟩
    | false => exact ⟨h, rfl, hp⟩
  rw [hstep, readDigit, hs₁]
  by_cases hskip : significant = 0 ∧ d = 0
  · obtain ⟨rfl, rfl⟩ := hskip
    have hnone : s.prefixBits = 0 := by
      have := h.prefix_lt
      omega
    refine ⟨s₁, 0, ?_, by omega, h₁, by omega, hpoint⟩
    simp [h₁.significantDigits]
  · have hlt := h.prefix_lt
    have hpow : (16 : Nat) ^ (significant + 1) ≤ 16 ^ 16 := Nat.pow_le_pow_right (by norm_num) (by omega)
    have hnext : s.prefixBits * 16 + d < 16 ^ (significant + 1) := by
      rw [pow_succ]
      omega
    have hnot : ¬ (s₁.significantDigits = 0 ∧ UInt8.ofNat d = 0) := by
      rw [h₁.significantDigits, hzero]
      omega
    have hfits : s₁.significantDigits < MAX_SIGNIFICANT_HEX_DIGITS := by
      rw [h₁.significantDigits, MAX_SIGNIFICANT_HEX_DIGITS]
      omega
    have hpre : saturateU (saturateU (s₁.prefixBits * 16) + (UInt8.ofNat d).toNat) =
        s.prefixBits * 16 + d := by
      have hshift : saturateU (s₁.prefixBits * 16) = s.prefixBits * 16 := by
        rw [hbits]
        exact saturateU_of_lt (by omega)
      rw [hshift, hdigit]
      exact saturateU_of_lt (by omega)
    have hcount : saturate (s₁.significantDigits + 1) = ((significant + 1 : Nat) : Int) := by
      rw [h₁.significantDigits, saturate_of_mem (by omega) (by omega)]
      rfl
    simp only [hnot, if_false, hfits, if_true]
    refine ⟨_, significant + 1, rfl, le_rfl, ⟨hcount, h₁.2, h₁.3, h₁.4, ?_, fun _ => ?_⟩, hpre, hpoint⟩
    · simpa only [hpre] using hnext
    · -- The first digit that counts is not zero.
      simp only [hpre]
      rcases Nat.eq_zero_or_pos significant with h0 | hpos
      · omega
      · have := h.prefix_pos (by omega)
        omega

/-- Reading digits that fit. -/
theorem Exact.foldlM (h : s.Exact significant fractional) {ds : List UInt8}
    (hds : ∀ c ∈ ds, ∃ d, d < 16 ∧ c = Digits.byte d) (hs : significant + ds.length ≤ 16)
    (hf : fractional + ds.length ≤ 2 ^ 32) :
    ∃ s' significant', ds.foldlM HexState.step s = some s' ∧ significant' ≤ significant + ds.length ∧
      s'.Exact significant' (if s.fractional then fractional + ds.length else fractional) ∧
      s'.prefixBits = s.prefixBits * 16 ^ ds.length + Digits.value 16 ds ∧
      s'.fractional = s.fractional := by
  induction ds generalizing s significant fractional with
  | nil =>
    refine ⟨s, significant, rfl, le_rfl, ?_, by simp, rfl⟩
    simpa using h
  | cons c ds ih =>
    rw [List.length_cons] at hs hf
    obtain ⟨d, hd, rfl⟩ := hds c List.mem_cons_self
    obtain ⟨s₁, n₁, hstep, hn₁, h₁, hbits₁, hpoint₁⟩ := h.step (by omega) (by omega) hd
    obtain ⟨s', n', hfold, hn', h', hbits', hpoint'⟩ := ih h₁ (fun c hm => hds c (List.mem_cons_of_mem _ hm))
      (by omega) (by split <;> omega)
    refine ⟨s', n', ?_, by rw [List.length_cons]; omega, ?_, ?_, hpoint'.trans hpoint₁⟩
    · rw [List.foldlM_cons, hstep]
      exact hfold
    · rw [hpoint₁] at h'
      rw [List.length_cons]
      cases hp : s.fractional with
      | true =>
        simp only [hp, if_true] at h' ⊢
        rwa [Nat.add_assoc, Nat.add_comm 1] at h'
      | false =>
        simp only [hp, Bool.false_eq_true, if_false] at h' ⊢
        exact h'
    · rw [hbits', hbits₁, Digits.value_cons, Digits.digit_byte hd, List.length_cons, pow_succ]
      ring

end HexState

/-! ## The bits of the result -/

/-- The significand of a normal double, shifted right by its last zeros. -/
theorem finishHex_normal {x : F64} {m z : Nat} (hs : x.sign = false) (hf : x.exponent ≠ 2047)
    (hn : x.exponent ≠ 0) (hz : z ≤ 13) (hm : m * 16 ^ z = 2 ^ 52 + x.fraction) :
    finishHex ops m false (x.exponent - 1023 - 52 + 4 * z) = x := by
  have hfrac := x.fraction_lt
  have hexp := x.exponent_lt
  have hpow : (16 : Nat) ^ z = 2 ^ (4 * z) := by rw [pow_mul]; norm_num
  rw [hpow] at hm
  have hpos : 0 < 2 ^ (4 * z) := by positivity
  have hmpos : 0 < m := by
    rcases Nat.eq_zero_or_pos m with rfl | h
    · omega
    · exact h
  have h52 : (2 : Nat) ^ 52 = 2 ^ (52 - 4 * z) * 2 ^ (4 * z) := by rw [← pow_add]; congr 1; omega
  have h53 : (2 : Nat) ^ 53 = 2 ^ (52 - 4 * z + 1) * 2 ^ (4 * z) := by rw [← pow_add]; congr 1; omega
  have hlog : m.log2 = 52 - 4 * z := by
    refine (Nat.log2_eq_iff (by omega)).2 ⟨?_, ?_⟩
    · refine Nat.le_of_mul_le_mul_right ?_ hpos
      rw [← h52, hm]
      omega
    · refine Nat.lt_of_mul_lt_mul_right (a := 2 ^ (4 * z)) ?_
      rw [← h53, hm]
      omega
  have hbits : bitCount m = 53 - 4 * z := by rw [bitCount_of_pos hmpos, hlog]; omega
  -- The significand is the fraction of the integer `m`, and its exponent is `52 - 4 * z`.
  have hof : F64.ofNat m = F64.ofBits ((1074 - 4 * z) * 2 ^ 52 + (2 ^ 52 + x.fraction)) := by
    rw [F64.ofNat, if_neg (by omega)]
    simp only [hlog]
    rw [if_pos (by omega), show 52 - (52 - 4 * z) = 4 * z by omega, hm,
      show 52 - 4 * z + 1022 = 1074 - 4 * z by omega]
  have hnat : (F64.ofNat m).bits.toNat = (1074 - 4 * z) * 2 ^ 52 + (2 ^ 52 + x.fraction) := by
    rw [hof, F64.toNat_ofBits (by omega)]
  have hexponent : (F64.ofNat m).exponent = 1075 - 4 * z := by rw [F64.exponent, hnat]; omega
  have hfraction : (F64.ofNat m).fraction = x.fraction := by rw [F64.fraction, hnat]; omega
  have htop : saturate ((x.exponent : Int) - 1023 - 52 + 4 * z + ((53 - 4 * z - 1 : Nat) : Int)) =
      x.exponent - 1023 := by
    rw [saturate_of_mem (by omega) (by omega)]
    omega
  have hshift : 53 - 4 * z - F64_PRECISION_BITS = 0 := by rw [F64_PRECISION_BITS]; omega
  rw [finishHex]
  simp only [hbits, htop, hshift, roundShiftRight, if_true]
  rw [if_neg (by rw [MAX_NORMAL_EXPONENT]; omega), if_neg (by rw [HALF_MIN_SUBNORMAL_EXPONENT]; omega),
    if_neg (by rw [MIN_NORMAL_EXPONENT]; omega)]
  have hscale : saturate ((x.exponent : Int) - 1023 - 52 + 4 * z + ((0 : Nat) : Int)) =
      x.exponent - 1023 - 52 + 4 * z := by
    rw [saturate_of_mem (by omega) (by omega)]
    omega
  have hvalue : saturate (((1075 - 4 * z : Nat) : Int) - 1023) = 52 - 4 * z := by
    rw [saturate_of_mem (by omega) (by omega)]
    omega
  have hsum : saturate ((x.exponent : Int) - 1023 - 52 + 4 * z + (52 - 4 * z)) = x.exponent - 1023 := by
    rw [saturate_of_mem (by omega) (by omega)]
    omega
  rw [scaleFiniteByPowerOfTwo]
  simp only [hexponent, hfraction, hscale, hvalue, hsum]
  rw [if_neg (by rw [MAX_NORMAL_EXPONENT]; omega), if_pos (by rw [MIN_NORMAL_EXPONENT]; omega)]
  refine F64.toNat_inj ?_
  rw [F64.toNat_of_sign hs, F64.toNat_ofBits (by omega)]
  omega

/-- The fraction of a double below the normal ones, shifted right by its last zeros. -/
theorem finishHex_subnormal {x : F64} {m z : Nat} (hs : x.sign = false) (hn : x.exponent = 0)
    (hpos : 0 < x.fraction) (hz : z ≤ 13) (hm : m * 16 ^ z = x.fraction) :
    finishHex ops m false (-1022 - 52 + 4 * z) = x := by
  have hfrac := x.fraction_lt
  have hpow : (16 : Nat) ^ z = 2 ^ (4 * z) := by rw [pow_mul]; norm_num
  rw [hpow] at hm
  have hmpos : 0 < m := by
    rcases Nat.eq_zero_or_pos m with rfl | h
    · omega
    · exact h
  have hlog : m.log2 + 4 * z < 52 := by
    have hle : 2 ^ m.log2 ≤ m := (Nat.log2_eq_iff (by omega)).1 rfl |>.1
    have hlt : 2 ^ (m.log2 + 4 * z) < 2 ^ 52 := by
      rw [pow_add]
      calc 2 ^ m.log2 * 2 ^ (4 * z) ≤ m * 2 ^ (4 * z) := Nat.mul_le_mul_right _ hle
        _ < 2 ^ 52 := by rw [hm]; exact hfrac
    exact (Nat.pow_lt_pow_iff_right (by norm_num)).1 hlt
  have htop : saturate (-1022 - 52 + 4 * (z : Int) + ((m.log2 + 1 - 1 : Nat) : Int)) =
      -1074 + 4 * z + m.log2 := by
    rw [saturate_of_mem (by omega) (by omega)]
    omega
  rw [finishHex]
  simp only [bitCount_of_pos hmpos, htop]
  rw [if_neg (by rw [MAX_NORMAL_EXPONENT]; omega), if_neg (by rw [HALF_MIN_SUBNORMAL_EXPONENT]; omega),
    if_pos (by rw [MIN_NORMAL_EXPONENT]; omega)]
  have hshift : saturate (-1074 - (-1022 - 52 + 4 * (z : Int))) = -(4 * z) := by
    rw [saturate_of_mem (by omega) (by omega)]
    omega
  have hleft : (max 0 (min (saturate (- -(4 * (z : Int)))) 63)).toNat = 4 * z := by
    rw [saturate_of_mem (by omega) (by omega)]
    omega
  rw [roundHexSubnormal]
  simp only [hshift]
  rw [if_pos (by omega), hleft, hm, Nat.mod_eq_of_lt (by omega)]
  refine F64.toNat_inj ?_
  rw [F64.toNat_of_sign hs, F64.toNat_ofBits (by omega), hn]
  omega

/-! ## Hexadecimal floats -/

/-- A leading digit and the digits after the point, without a point if there are none. -/
def mantissaText (leading : Nat) (fraction : List UInt8) : List UInt8 :=
  Digits.byte leading :: (if fraction.isEmpty then [] else [ascii '.']) ++ fraction

section Mantissa

variable {leading : Nat} {fraction : List UInt8} (hl : leading < 16)
  (hfr : ∀ c ∈ fraction, ∃ d, d < 16 ∧ c = Digits.byte d) (hlen : fraction.length ≤ 13)
include hl hfr

theorem mem_mantissaText {c : UInt8} (hm : c ∈ mantissaText leading fraction) :
    isAsciiHexdigit c = true ∨ c = ascii '.' := by
  simp only [mantissaText, List.cons_append, List.mem_cons, List.mem_append] at hm
  rcases hm with rfl | hm | hm
  · exact .inl (isAsciiHexdigit_byte hl)
  · split at hm
    · cases hm
    · exact .inr (List.mem_singleton.1 hm)
  · obtain ⟨d, hd, rfl⟩ := hfr c hm
    exact .inl (isAsciiHexdigit_byte hd)

theorem validateMantissa_mantissaText :
    validateMantissa (mantissaText leading fraction) isAsciiHexdigit = some (fraction.length + 1) := by
  have hdigits : ∀ {ds : List UInt8}, (∀ c ∈ ds, ∃ d, d < 16 ∧ c = Digits.byte d) →
      ∀ c ∈ ds, isAsciiHexdigit c = true ∧ c ≠ ascii '.' := by
    intro ds hds c hm
    obtain ⟨d, hd, rfl⟩ := hds c hm
    exact ⟨isAsciiHexdigit_byte hd, (ne_of_isAsciiHexdigit (isAsciiHexdigit_byte hd)).1⟩
  have hlead : ∀ c ∈ [Digits.byte leading], ∃ d, d < 16 ∧ c = Digits.byte d := by
    intro c hm
    exact ⟨leading, hl, List.mem_singleton.1 hm⟩
  have hfirst : ∀ rest, validateMantissaLoop isAsciiHexdigit (Digits.byte leading :: rest) 0 0 =
      validateMantissaLoop isAsciiHexdigit rest 0 1 := fun rest =>
    validateMantissaLoop_digits (hdigits hlead) rest
  have hrest : ∀ dots, validateMantissaLoop isAsciiHexdigit fraction dots 1 = some (fraction.length + 1) := by
    intro dots
    have hloop := @validateMantissaLoop_digits isAsciiHexdigit fraction dots 1 (hdigits hfr) []
    rw [List.append_nil] at hloop
    rw [hloop, Nat.add_comm]
    rfl
  rw [validateMantissa, mantissaText, List.cons_append, hfirst]
  split
  · exact hrest 0
  · show validateMantissaLoop isAsciiHexdigit fraction 1 1 = _
    exact hrest 1

include hlen

/-- The digits of a mantissa are read as one number. -/
theorem foldlM_mantissaText : ∃ (s : HexState) (n : Nat), (mantissaText leading fraction).foldlM HexState.step .start = some s ∧
    s.Exact n fraction.length ∧
    s.prefixBits = leading * 16 ^ fraction.length + Digits.value 16 fraction := by
  have hlead : ∀ c ∈ [Digits.byte leading], ∃ d, d < 16 ∧ c = Digits.byte d := by
    intro c hm
    exact ⟨leading, hl, List.mem_singleton.1 hm⟩
  obtain ⟨s₁, n₁, hfold₁, hn₁, h₁, hbits₁, hpoint₁⟩ :=
    HexState.exact_start.foldlM hlead (by simp) (by simp)
  rw [List.foldlM_cons] at hfold₁
  have hvalue : s₁.prefixBits = leading := by
    rw [hbits₁, Digits.value_cons, Digits.digit_byte hl]
    simp [HexState.start]
  have hstep : HexState.start.step (Digits.byte leading) = some s₁ := by
    cases h : HexState.start.step (Digits.byte leading) with
    | none => rw [h] at hfold₁; cases hfold₁
    | some s => rw [h] at hfold₁; exact hfold₁
  rw [List.length_singleton] at hn₁
  rw [mantissaText, List.cons_append, List.foldlM_cons, hstep]
  cases fraction with
  | nil =>
    refine ⟨s₁, n₁, rfl, h₁, ?_⟩
    simp [hvalue]
  | cons c fraction =>
    -- The point changes nothing but how the digits after it are counted.
    have h₂ : ({ s₁ with fractional := true } : HexState).Exact n₁ 0 := ⟨h₁.1, h₁.2, h₁.3, h₁.4, h₁.5, h₁.6⟩
    obtain ⟨s, n, hfold, -, h, hbits, -⟩ := h₂.foldlM hfr (by omega) (by omega)
    refine ⟨s, n, hfold, ?_, ?_⟩
    · simpa using h
    · rw [hbits]
      simp only [hvalue]

/-- A hexadecimal float is read digit by digit. -/
theorem parseHex_mantissaText (ops : FloatOps) {e : Int} (he : e.natAbs ≤ 1074) : ∃ (s : HexState) (n : Nat),
    parseHex ops (mantissaText leading fraction ++ ascii 'p' :: StringFormat.signedText e) =
      some (s.finish ops e) ∧
    s.Exact n fraction.length ∧
    s.prefixBits = leading * 16 ^ fraction.length + Digits.value 16 fraction := by
  obtain ⟨s, n, hfold, hexact, hbits⟩ := foldlM_mantissaText hl hfr hlen
  refine ⟨s, n, ?_, hexact, hbits⟩
  have hmantissa : ∀ c ∈ mantissaText leading fraction, c ≠ ascii 'p' ∧ c ≠ ascii 'P' := by
    intro c hm
    rcases mem_mantissaText hl hfr hm with hc | rfl
    · exact (ne_of_isAsciiHexdigit hc).2
    · decide
  have hexponent : ∀ c ∈ StringFormat.signedText e, c ≠ ascii 'p' ∧ c ≠ ascii 'P' := by
    intro c hm
    rcases List.mem_cons.1 hm with rfl | hm
    · split <;> decide
    · exact (ne_of_isAsciiHexdigit (isAsciiHexdigit_of_isAsciiDigit (isAsciiDigit_of_mem_bytes hm))).2
  have hcount : (mantissaText leading fraction).length ≤ 15 := by
    rw [mantissaText, List.length_append, List.length_cons]
    split
    · simp only [List.length_nil]
      omega
    · simp only [List.length_cons, List.length_nil]
      omega
  have hlimit : saturate (saturate (((mantissaText leading fraction).length : Int) * 4) + 2048) =
      (mantissaText leading fraction).length * 4 + 2048 := by
    have hfour : saturate (((mantissaText leading fraction).length : Int) * 4) =
        (mantissaText leading fraction).length * 4 := saturate_of_mem (by omega) (by omega)
    rw [hfour]
    exact saturate_of_mem (by omega) (by omega)
  rw [parseHex, splitExponent_append hmantissa hexponent]
  have hread : parseSignedI64Saturating (StringFormat.signedText e)
      ((mantissaText leading fraction).length * 4 + 2048) = some e :=
    parseSignedI64Saturating_signedText (by omega) (by omega)
  simp only [Option.bind_eq_bind, Option.bind_some, validateMantissa_mantissaText hl hfr, Nat.add_one_ne_zero,
    if_false, hlimit, hread, hfold]
  rfl

end Mantissa

/-- The digits of a significand after its leading one, without the zeros at their end. -/
def fractionText (significand : Nat) : List UInt8 :=
  (Digits.padded 16 13 (significand % 2 ^ 52)).rdropWhile (· == Digits.byte 0)

theorem mem_fractionText {n : Nat} {c : UInt8} (h : c ∈ fractionText n) : ∃ d, d < 16 ∧ c = Digits.byte d :=
  Digits.exists_of_mem_padded (by norm_num) (( List.rdropWhile_prefix _ _).subset h)

/-- What a significand is of the digits that are written. -/
theorem fractionText_spec (n : Nat) : ∃ z, (fractionText n).length + z = 13 ∧
    (n / 2 ^ 52 * 16 ^ (fractionText n).length + Digits.value 16 (fractionText n)) * 16 ^ z = n := by
  have hlt : n % 2 ^ 52 < 16 ^ 13 := Nat.mod_lt _ (by norm_num)
  have hlen : (Digits.padded 16 13 (n % 2 ^ 52)).length = 13 :=
    Digits.length_padded (by norm_num) (by norm_num) hlt
  have hval : Digits.value 16 (Digits.padded 16 13 (n % 2 ^ 52)) = n % 2 ^ 52 :=
    Digits.value_padded (by norm_num) (by norm_num)
  obtain ⟨z, hz, hv⟩ := @Digits.value_rdropWhile_zero 16 (Digits.padded 16 13 (n % 2 ^ 52))
  rw [← fractionText] at hz hv
  rw [hlen] at hz
  rw [hval] at hv
  refine ⟨z, hz, ?_⟩
  have hpow : (16 : Nat) ^ (fractionText n).length * 16 ^ z = 2 ^ 52 := by
    rw [← pow_add, hz]
    norm_num
  rw [Nat.add_mul, Nat.mul_assoc, hpow]
  exact (congrArg _ hv).trans (Nat.div_add_mod' n (2 ^ 52))

theorem parseUnsigned_hex (rest : List UInt8) :
    parseUnsigned ops ([ascii '0', ascii 'x'] ++ rest) = parseHex ops rest := by
  have hpre : [ascii '0', ascii 'x'].isPrefixOf ([ascii '0', ascii 'x'] ++ rest) = true :=
    List.isPrefixOf_iff_prefix.2 (List.prefix_append _ _)
  rw [parseUnsigned, hpre, Bool.true_or, if_pos rfl]
  rfl

/-- The exponent and the significand that a double is written with. -/
theorem formatHexFloat_eq {x : F64} (hf : x.isFinite = true) : ∃ (e : Int) (n : Nat),
    (e = if x.exponent = 0 then if x.fraction = 0 then 0 else -1022 else (x.exponent : Int) - 1023) ∧
    (n = if x.exponent = 0 then x.fraction else 2 ^ 52 + x.fraction) ∧ n / 2 ^ 52 < 16 ∧
    StringFormat.formatHexFloat x none false false =
      [ascii '0', ascii 'x'] ++ (mantissaText (n / 2 ^ 52) (fractionText n) ++
        ascii 'p' :: StringFormat.signedText e) := by
  have hfrac := x.fraction_lt
  obtain ⟨e, he⟩ : ∃ e : Int, e = if x.exponent = 0 then if x.fraction = 0 then 0 else -1022
    else (x.exponent : Int) - 1023 := ⟨_, rfl⟩
  obtain ⟨n, hn⟩ : ∃ n, n = if x.exponent = 0 then x.fraction else 2 ^ 52 + x.fraction := ⟨_, rfl⟩
  have hlead : n / 2 ^ 52 < 16 := by
    rw [hn]
    split <;> omega
  have hbytes : Digits.bytes 16 (n / 2 ^ 52) = [Digits.byte (n / 2 ^ 52)] := by
    rw [Digits.bytes, Nat.toDigits_of_lt_base hlead]
    rfl
  refine ⟨e, n, he, hn, hlead, ?_⟩
  rw [StringFormat.formatHexFloat, hf]
  simp only [Bool.not_true, Bool.false_eq_true, if_false, ← he, ← hn, StringFormat.hexDigits,
    StringFormat.hexText, hbytes, Bool.not_false, Bool.and_true]
  rw [mantissaText, fractionText]
  simp only [List.append_assoc, List.cons_append, List.nil_append]
  rfl

/-- The text of a hexadecimal float starts with a digit and has no whitespace. -/
theorem formatHexFloat_text {x : F64} (hf : x.isFinite = true) :
    (StringFormat.formatHexFloat x none false false).head? = some (ascii '0') ∧
      ∀ c ∈ StringFormat.formatHexFloat x none false false, isLuaWhitespace c = false := by
  obtain ⟨e, n, -, -, hlead, htext⟩ := formatHexFloat_eq hf
  rw [htext]
  refine ⟨rfl, fun c hm => ?_⟩
  simp only [List.mem_append, List.mem_cons, List.not_mem_nil, or_false, StringFormat.signedText] at hm
  rcases hm with (rfl | rfl) | hm | rfl | hm | hm
  · decide
  · decide
  · rcases mem_mantissaText hlead (fun c hc => mem_fractionText hc) hm with hc | rfl
    · exact isLuaWhitespace_of_isAsciiHexdigit hc
    · decide
  · decide
  · rw [hm]
    split <;> decide
  · exact isLuaWhitespace_of_isAsciiHexdigit (isAsciiHexdigit_of_isAsciiDigit (isAsciiDigit_of_mem_bytes hm))

/-- A positive double written as a hexadecimal float is read back. -/
theorem parseUnsigned_formatHexFloat {x : F64} (hs : x.sign = false) (hf : x.isFinite = true) :
    parseUnsigned ops (StringFormat.formatHexFloat x none false false) = some x := by
  have hfin : x.exponent ≠ 2047 := by simpa [F64.isFinite] using hf
  have hexp := x.exponent_lt
  have hfrac := x.fraction_lt
  obtain ⟨e, n, he, hn, hlead, htext⟩ := formatHexFloat_eq hf
  have habs : e.natAbs ≤ 1074 := by
    rw [he]
    split
    · split <;> omega
    · omega
  obtain ⟨z, hz, hvalue⟩ := fractionText_spec n
  have hcount : (fractionText n).length ≤ 13 := by omega
  obtain ⟨s, k, hparse, hexact, hbits⟩ := parseHex_mantissaText hlead
    (fun c hm => mem_fractionText hm) hcount ops habs
  rw [← hbits] at hvalue
  have hunsigned : parseUnsigned ops (StringFormat.formatHexFloat x none false false) = some (s.finish ops e) := by
    rw [htext, parseUnsigned_hex]
    exact hparse
  rw [hunsigned, Option.some.injEq, HexState.finish]
  rcases Nat.eq_zero_or_pos n with hzero | hpos
  · -- Zero has no significant digit.
    have hpre : s.prefixBits = 0 := by
      rw [hzero] at hvalue
      rcases Nat.mul_eq_zero.1 hvalue with h | h
      · exact h
      · exact absurd h (by positivity)
    have hk : k = 0 := by
      by_contra hk
      have := hexact.prefix_pos hk
      omega
    rw [if_pos (by rw [hexact.significantDigits, hk]; rfl)]
    refine F64.toNat_inj ?_
    rw [F64.toNat_of_sign hs, F64.toNat_ofBits (by norm_num)]
    rw [hzero] at hn
    split at hn
    · omega
    · omega
  · have hk : k ≠ 0 := by
      rintro rfl
      have := hexact.prefix_lt
      have hpre : s.prefixBits = 0 := by omega
      rw [hpre] at hvalue
      omega
    have hadjust : saturate (saturate (s.droppedDigits - s.fractionalDigits) * 4) =
        -((fractionText n).length * 4 : Int) := by
      have hneg : saturate (s.droppedDigits - s.fractionalDigits) = -((fractionText n).length : Int) := by
        rw [hexact.droppedDigits, hexact.fractionalDigits, saturate_of_mem (by omega) (by omega)]
        omega
      rw [hneg, saturate_of_mem (by omega) (by omega)]
      omega
    have hscale : saturate (e + -((fractionText n).length * 4 : Int)) = e - 52 + 4 * z := by
      rw [saturate_of_mem (by omega) (by omega)]
      omega
    rw [if_neg (by rw [hexact.significantDigits]; omega)]
    simp only [hadjust, hscale, hexact.droppedNonzero]
    by_cases hnormal : x.exponent = 0
    · have hfraction : 0 < x.fraction := by
        rw [if_pos hnormal] at hn
        omega
      rw [if_pos hnormal, if_neg (by omega)] at he
      rw [if_pos hnormal] at hn
      rw [he]
      exact finishHex_subnormal hs hnormal hfraction (by omega) (by rw [hvalue, hn])
    · rw [if_neg hnormal] at he hn
      rw [he]
      exact finishHex_normal hs hfin hnormal (by omega) (by rw [hvalue, hn])

/-! ## Numbers -/

/-- The magnitude of an integer is within the range of a signed integer. -/
theorem truncNat_le {x : F64} (he : x.exponent ≤ 1086) (h : x.exponent = 1086 → x.fraction = 0) :
    x.truncNat ≤ 2 ^ 63 ∧ (x.exponent ≤ 1085 → x.truncNat < 2 ^ 63) := by
  have hfrac := x.fraction_lt
  have hsig : x.significand < 2 ^ 53 := by rw [F64.significand]; omega
  rw [F64.truncNat]
  split
  · norm_num
  split
  · have hdiv : x.significand / 2 ^ (1075 - x.exponent) ≤ x.significand := Nat.div_le_self _ _
    omega
  · rcases Nat.lt_or_ge x.exponent 1086 with hlt | hge
    · have hpow : 2 ^ (x.exponent - 1075) ≤ 2 ^ 10 := Nat.pow_le_pow_right (by norm_num) (by omega)
      have hmul : x.significand * 2 ^ (x.exponent - 1075) < 2 ^ 53 * 2 ^ 10 := by
        calc x.significand * 2 ^ (x.exponent - 1075) ≤ x.significand * 2 ^ 10 := Nat.mul_le_mul_left _ hpow
          _ < 2 ^ 53 * 2 ^ 10 := Nat.mul_lt_mul_of_pos_right hsig (by norm_num)
      omega
    · have hexp : x.exponent = 1086 := by omega
      rw [F64.significand, h hexp, hexp]
      norm_num

/-- The integers that are written in decimal. -/
theorem exactI64_eq_some {x : F64} {k : Int} (h : exactI64 x = some k) :
    x.isFinite = true ∧ x.trunc = x ∧ k = if x.sign then -(x.truncNat : Int) else (x.truncNat : Int) := by
  rw [exactI64] at h
  have hmin : (F64.ofNat (2 ^ 63)).neg.totalKey = -1 - 1086 * 2 ^ 52 := by decide
  have hmax : (F64.ofBits ((F64.ofNat (2 ^ 63 - 1)).bits.toNat - 1)).totalKey = 1086 * 2 ^ 52 - 1 := by decide
  simp only [hmin, hmax] at h
  split at h
  · rename_i hc
    obtain ⟨hf, hrange, htrunc⟩ := hc
    refine ⟨hf, htrunc, ?_⟩
    have hfin : x.exponent ≠ 2047 := by simpa [F64.isFinite] using hf
    have hnan : x.isNan = false := by simp [F64.isNan, hfin]
    have hbits := x.toNat_eq
    have hfrac := x.fraction_lt
    have hexp := x.exponent_lt
    rw [not_or, F64.totalKey] at hrange
    rw [F64.toI64, hnan] at h
    simp only [Bool.false_eq_true, if_false, Option.some.injEq] at h
    rw [← h]
    cases hsign : x.sign with
    | true =>
      simp only [hsign, if_true] at hrange hbits ⊢
      have hle : x.exponent * 2 ^ 52 + x.fraction ≤ 1086 * 2 ^ 52 := by omega
      have := (truncNat_le (x := x) (by omega) (by omega)).1
      omega
    | false =>
      simp only [hsign, Bool.false_eq_true, if_false] at hrange hbits ⊢
      have := (truncNat_le (x := x) (by omega) (by omega)).2 (by omega)
      omega
  · cases h

end Dellingr.Numeral

namespace Dellingr.StringFormat

open Patterns (ascii)
open Numeral (FloatOps parseLuaNumeral exactI64)

/-- A finite number is read back from its text, bit for bit. -/
theorem parseLuaNumeral_quoteNumber {ops : FloatOps} (hops : ops.ReadsIntegers) {x : F64}
    (hf : x.isFinite = true) : parseLuaNumeral ops (quoteNumber x) = some x := by
  have hfin : x.exponent ≠ 2047 := by simpa [F64.isFinite] using hf
  have hnan : x.isNan = false := by simp [F64.isNan, hfin]
  have hinf : x ≠ Numeral.infinity := by rintro rfl; exact absurd hf (by decide)
  have hneg : x ≠ Numeral.infinity.neg := by rintro rfl; exact absurd hf (by decide)
  rw [quoteNumber, hnan, if_neg Bool.false_ne_true, if_neg hinf, if_neg hneg]
  cases hk : (exactI64 x).filter fun _ => x != (F64.ofBits 0).neg with
  | some k =>
    obtain ⟨hk, hzero⟩ := Option.filter_eq_some_iff.1 hk
    obtain ⟨-, htrunc, rfl⟩ := Numeral.exactI64_eq_some hk
    have hread := Numeral.parseLuaNumeral_bytes hops (F64.exactNat_abs_of_trunc htrunc hf)
    suffices htext : integerText (if x.sign then -(x.truncNat : Int) else x.truncNat) =
        if x.sign then ascii '-' :: Digits.bytes 10 x.truncNat else Digits.bytes 10 x.truncNat by
      simp only [htext]
      exact hread
    cases hs : x.sign with
    | false => simp [integerText]
    | true =>
      -- A negative integer is not zero: the negative zero is not written in decimal.
      have hpos : x.truncNat ≠ 0 := by
        intro h0
        have hx := F64.eq_neg_zero (F64.isZero_of_truncNat htrunc h0) hs
        rw [hx] at hzero
        exact absurd hzero (by decide)
      simp only [if_true, integerText, Int.natAbs_neg, Int.natAbs_natCast]
      rw [if_pos (by omega)]
  | none =>
    have habs : x.abs.isFinite = true := by rw [F64.isFinite, F64.exponent_abs]; exact hf
    obtain ⟨hhead, hspace⟩ := Numeral.formatHexFloat_text habs
    have hread := @Numeral.parseLuaNumeral_signed ops _ _ hhead (by decide) hspace x.sign
    simp only
    rw [hread, Numeral.parseUnsigned_formatHexFloat (F64.sign_abs x) habs, Option.map_some]
    cases hs : x.sign with
    | false => rw [if_neg Bool.false_ne_true, F64.abs_of_sign hs]
    | true => rw [if_pos rfl, F64.neg_abs hs]

/-! ## Both -/

theorem length_quoteText_le (bytes : List UInt8) : (quoteText bytes).length ≤ 4 * bytes.length := by
  induction bytes with
  | nil => exact Nat.le_refl _
  | cons byte rest ih =>
    have hle : (quoteByte byte rest).length ≤ 4 := by
      obtain ⟨he, -⟩ | ⟨ds, he, hds⟩ | ⟨he, -⟩ := quoteByte_cases byte rest
      · simp [he]
      · have := hds.length_le
        rw [he, List.length_cons]
        omega
      · simp [he]
    rw [quoteText, List.length_append, List.length_cons]
    omega

/-- A reader that is right on decimal integers. -/
def readIntegers : FloatOps := ⟨fun text => some (F64.ofNat (Digits.value 10 text)), fun x _ => x⟩

theorem readsIntegers_readIntegers : readIntegers.ReadsIntegers :=
  fun _ _ _ _ hs hx => congrArg some (F64.ofNat_of_exactNat hs hx)

end Dellingr.StringFormat
