import Dellingr.HexNumeral
import Dellingr.Lib.RoundToOdd
import Dellingr.LuaStd.QuoteNumber
import Mathlib.Algebra.Order.Field.Power
import Mathlib.Data.Int.Log
import Mathlib.Data.Rat.Floor

/-!
# Hexadecimal floats

A finite double is written with one hexadecimal digit, the digits of the precision after a point and the
exponent of the power of two at or below it, or of the least normal double (`hexExponent`).

* The digits are those of the significand shifted right and rounded to nearest, ties to even
  (`hexDigits_spec`). Rounding may carry into the leading digit, which stays below sixteen.
* What is written is a numeral of the value of its digits (`hexRational_hexNumeral`), and the reader of
  numerals takes it and rounds it (`parseLuaNumeral_hexNumeral`). Where no digit is left out it is read as
  the double itself.

`format_hex_float_rounds` puts the two together.
-/

namespace Dellingr.StringFormat

open Patterns (ascii isAsciiDigit isAsciiHexdigit isLuaWhitespace)
open Numeral (FloatOps hexRational isExponentMarker mantissaDigits fractionDigits exponentValue parseHex parseUnsigned
  parseLuaNumeral validateMantissa validateMantissaLoop splitExponent ne_of_isAsciiHexdigit)

/-! ## The digits -/

variable {ds digits : List UInt8} {n width leading : Nat} {uppercase alternate : Bool} {precision : Option Nat}

theorem upper_byte {d : Nat} (h : d < 16) :
    ∀ c ∈ makeAsciiUppercase [Digits.byte d], isAsciiHexdigit c = true ∧ Digits.digit c = d := by
  interval_cases d <;> decide +kernel

/-- Digits in upper case are as many, and stand for the same number. -/
theorem uppercase_spec (hds : ∀ c ∈ ds, ∃ d, d < 16 ∧ c = Digits.byte d) :
    (if uppercase then makeAsciiUppercase ds else ds).length = ds.length ∧
      Digits.value 16 (if uppercase then makeAsciiUppercase ds else ds) = Digits.value 16 ds ∧
      ∀ c ∈ (if uppercase then makeAsciiUppercase ds else ds), isAsciiHexdigit c = true := by
  induction ds with
  | nil => cases uppercase <;> exact ⟨rfl, rfl, by simp [makeAsciiUppercase]⟩
  | cons c ds ih =>
    obtain ⟨hlen, hvalue, hhex⟩ := ih fun c hc => hds c (List.mem_cons_of_mem _ hc)
    obtain ⟨d, hd, rfl⟩ := hds c List.mem_cons_self
    cases uppercase with
    | false =>
      refine ⟨rfl, rfl, fun c hc => ?_⟩
      obtain rfl | hc := List.mem_cons.1 hc
      · exact Numeral.isAsciiHexdigit_byte hd
      · exact hhex c hc
    | true =>
      have hcons : makeAsciiUppercase (Digits.byte d :: ds) =
          makeAsciiUppercase [Digits.byte d] ++ makeAsciiUppercase ds := rfl
      obtain ⟨u, hu⟩ : ∃ u, makeAsciiUppercase [Digits.byte d] = [u] := ⟨_, rfl⟩
      obtain ⟨hu₁, hu₂⟩ := upper_byte hd u (hu ▸ List.mem_cons_self)
      simp only [if_true] at hlen hvalue hhex ⊢
      rw [hcons, hu, List.singleton_append]
      refine ⟨by rw [List.length_cons, List.length_cons, hlen], ?_, fun c hc => ?_⟩
      · rw [Digits.value_cons, Digits.value_cons, hu₂, Digits.digit_byte hd, hlen, hvalue]
      · obtain rfl | hc := List.mem_cons.1 hc
        · exact hu₁
        · exact hhex c hc

theorem hexText_spec (hw : 0 < width) (hn : n < 16 ^ width) :
    (hexText width n uppercase).length = width ∧ Digits.value 16 (hexText width n uppercase) = n ∧
      ∀ c ∈ hexText width n uppercase, isAsciiHexdigit c = true := by
  obtain ⟨hlen, hvalue, hhex⟩ := @uppercase_spec (Digits.padded 16 width n) uppercase
    fun c hc => Digits.exists_of_mem_padded (by norm_num) hc
  exact ⟨hlen.trans (Digits.length_padded (by norm_num) hw hn),
    hvalue.trans (Digits.value_padded (by norm_num) (by norm_num)), hhex⟩

/-- The digits of a significand: their number is the precision, and they are the significand rounded to it. -/
structure Rounded (n : Nat) (precision : Option Nat) (leading : Nat) (digits : List UInt8) : Prop where
  leading_lt : leading < 16
  hexdigit : ∀ c ∈ digits, isAsciiHexdigit c = true
  length : ∀ p ∈ precision, digits.length = p
  nearest : ∀ p ∈ precision, p < 13 →
    leading * 16 ^ digits.length + Digits.value 16 digits = roundHalfEven n (52 - p * 4)
  exact : (∀ p ∈ precision, 13 ≤ p) →
    (leading * 16 ^ digits.length + Digits.value 16 digits) * 2 ^ 52 = n * 16 ^ digits.length

/-- The leading digit and the thirteen after it. -/
theorem div_add_value (n : Nat) (hvalue : Digits.value 16 ds = n % 2 ^ 52) (hlen : ds.length = 13) :
    n / 2 ^ 52 * 16 ^ ds.length + Digits.value 16 ds = n := by
  have hpow : (16 : Nat) ^ 13 = 2 ^ 52 := by norm_num
  rw [hvalue, hlen, hpow]
  exact Nat.div_add_mod' n (2 ^ 52)

theorem hexDigits_spec (hn : n < 2 ^ 53) :
    Rounded n precision (hexDigits n precision uppercase).1 (hexDigits n precision uppercase).2 := by
  have hpow : (2 : Nat) ^ 52 = 16 ^ 13 := by norm_num
  obtain ⟨hlen, hvalue, hhex⟩ := @hexText_spec (n % 2 ^ 52) 13 uppercase (by norm_num)
    (hpow ▸ Nat.mod_lt _ (by norm_num))
  have hall := div_add_value n hvalue hlen
  have hlead : n / 2 ^ 52 < 16 := by omega
  cases precision with
  | none =>
    -- The zeros at the end are left out: the other digits stand for the same multiple of a greater power.
    obtain ⟨z, hz, hstripped⟩ := @Digits.value_rdropWhile_zero 16 (hexText 13 (n % 2 ^ 52) uppercase)
    refine ⟨hlead, fun c hc => hhex c (( List.rdropWhile_prefix _ _).subset hc),
      fun p hp => absurd hp (Option.not_mem_none p), fun p hp => absurd hp (Option.not_mem_none p), fun _ => ?_⟩
    rw [hexDigits]
    obtain ⟨kept, hkept⟩ : ∃ kept, kept = (hexText 13 (n % 2 ^ 52) uppercase).rdropWhile (· == Digits.byte 0) :=
      ⟨_, rfl⟩
    rw [← hkept] at hz hstripped
    show (n / 2 ^ 52 * 16 ^ (List.rdropWhile (· == Digits.byte 0) _).length + Digits.value 16 (List.rdropWhile
      (· == Digits.byte 0) _)) * 2 ^ 52 = n * 16 ^ (List.rdropWhile (· == Digits.byte 0) _).length
    rw [← hkept]
    have hscale : (2 : Nat) ^ 52 = 16 ^ kept.length * 16 ^ z := by rw [← pow_add, hz, hlen, hpow]
    have hn' : (n / 2 ^ 52 * 16 ^ kept.length + Digits.value 16 kept) * 16 ^ z = n := by
      rw [← hstripped, ← hz, pow_add] at hall
      rw [Nat.add_mul, Nat.mul_assoc]
      exact hall
    calc (n / 2 ^ 52 * 16 ^ kept.length + Digits.value 16 kept) * 2 ^ 52
        = (n / 2 ^ 52 * 16 ^ kept.length + Digits.value 16 kept) * 16 ^ z * 16 ^ kept.length := by
          rw [hscale, Nat.mul_assoc, Nat.mul_comm (16 ^ z)]
      _ = n * 16 ^ kept.length := by rw [hn']
  | some p =>
    by_cases hp : p < 13
    · obtain ⟨r, hr⟩ : ∃ r, r = roundHalfEven n (52 - p * 4) := ⟨_, rfl⟩
      have hdigits : hexDigits n (some p) uppercase =
          (r / 2 ^ (p * 4), if p = 0 then [] else hexText p (r % 2 ^ (p * 4)) uppercase) := by
        rw [hexDigits, hr]
        simp only [if_pos hp]
        rfl
      have hbase : (2 : Nat) ^ (p * 4) = 16 ^ p := by rw [Nat.mul_comm, pow_mul]; norm_num
      have hbound : r ≤ 2 * 16 ^ p := by
        have hquot : n / 2 ^ (52 - p * 4) < 2 * 16 ^ p := by
          rw [Nat.div_lt_iff_lt_mul (by positivity), ← hbase, Nat.mul_assoc, ← pow_add]
          calc n < 2 ^ 53 := hn
            _ = 2 * 2 ^ (p * 4 + (52 - p * 4)) := by rw [← pow_succ']; congr 1; omega
        rw [hr, roundHalfEven]
        split <;> omega
      have hsplit := Nat.div_add_mod' r (16 ^ p)
      have hlead' : r / 16 ^ p < 16 := by
        rw [Nat.div_lt_iff_lt_mul (by positivity)]
        have : 0 < 16 ^ p := by positivity
        omega
      rw [hdigits, hbase]
      refine ⟨hlead', ?_, ?_, ?_, fun h => absurd (h p rfl) (not_le.2 hp)⟩
      · rcases Nat.eq_zero_or_pos p with rfl | hpos
        · exact fun c hc => absurd hc List.not_mem_nil
        · rw [if_neg hpos.ne']
          exact (hexText_spec hpos (Nat.mod_lt _ (by positivity))).2.2
      · rintro _ ⟨⟩
        rcases Nat.eq_zero_or_pos p with rfl | hpos
        · rfl
        · rw [if_neg hpos.ne']
          exact (hexText_spec hpos (Nat.mod_lt _ (by positivity))).1
      · rintro _ ⟨⟩ -
        rcases Nat.eq_zero_or_pos p with rfl | hpos
        · rw [← hr]
          simp
        · obtain ⟨hlen', hvalue', -⟩ := @hexText_spec (r % 16 ^ p) p uppercase hpos (Nat.mod_lt _ (by positivity))
          rw [if_neg hpos.ne', hlen', hvalue', hsplit, hr]
    · have hdigits : hexDigits n (some p) uppercase = (n / 2 ^ 52,
          hexText 13 (n % 2 ^ 52) uppercase ++ List.replicate (p - 13) (Digits.byte 0)) := by
        rw [hexDigits]
        simp only [if_neg hp]
        rfl
      rw [hdigits]
      refine ⟨hlead, fun c hc => ?_, ?_, fun q hq hlt => absurd hlt (by cases hq; exact hp), fun _ => ?_⟩
      · rcases List.mem_append.1 hc with hc | hc
        · exact hhex c hc
        · rw [(List.mem_replicate.1 hc).2]
          decide
      · rintro _ ⟨⟩
        rw [List.length_append, hlen, List.length_replicate]
        omega
      · rw [List.length_append, List.length_replicate, Digits.value_append, Digits.value_replicate_zero,
          List.length_replicate, Nat.add_zero, pow_add, ← Nat.mul_assoc, ← Nat.add_mul, hall, hlen, hpow]
        ring

/-! ## The text -/

/-- A mantissa; its point is left out if there are no digits after it and it is not asked for. -/
def hexMantissa (alternate : Bool) (leading : Nat) (digits : List UInt8) : List UInt8 :=
  Digits.byte leading :: (if digits.isEmpty && !alternate then [] else [ascii '.']) ++ digits

def exponentMarker (uppercase : Bool) : UInt8 := ascii (if uppercase then 'P' else 'p')

/-- What follows the `0x`. -/
def hexNumeral (uppercase alternate : Bool) (leading : Nat) (digits : List UInt8) (e : Int) : List UInt8 :=
  hexMantissa alternate leading digits ++ exponentMarker uppercase :: signedText e

section Numeral

variable (hl : leading < 16) (hds : ∀ c ∈ digits, isAsciiHexdigit c = true) {e : Int}
include hl hds

theorem mem_hexMantissa {c : UInt8} (hc : c ∈ hexMantissa alternate leading digits) :
    c = ascii '.' ∨ isAsciiHexdigit c = true := by
  simp only [hexMantissa, List.cons_append, List.mem_cons, List.mem_append] at hc
  obtain rfl | hc | hc := hc
  · exact .inr (Numeral.isAsciiHexdigit_byte hl)
  · split at hc
    · cases hc
    · exact .inl (List.mem_singleton.1 hc)
  · exact .inr (hds c hc)

theorem isExponentMarker_hexMantissa {c : UInt8} (hc : c ∈ hexMantissa alternate leading digits) :
    isExponentMarker c = false := by
  obtain rfl | hhex := mem_hexMantissa hl hds hc
  · decide
  · obtain ⟨-, hp, hP⟩ := ne_of_isAsciiHexdigit hhex
    rw [isExponentMarker, beq_eq_false_iff_ne.2 hp, beq_eq_false_iff_ne.2 hP, Bool.or_self]

omit hl hds in
theorem isExponentMarker_signedText {c : UInt8} (hc : c ∈ signedText e) : isExponentMarker c = false := by
  obtain rfl | hc := List.mem_cons.1 hc
  · split <;> decide
  · obtain ⟨-, hp, hP⟩ := ne_of_isAsciiHexdigit
      (Numeral.isAsciiHexdigit_of_isAsciiDigit (isAsciiDigit_of_mem_bytes hc))
    rw [isExponentMarker, beq_eq_false_iff_ne.2 hp, beq_eq_false_iff_ne.2 hP, Bool.or_self]

omit hl hds in
theorem isExponentMarker_exponentMarker : isExponentMarker (exponentMarker uppercase) = true := by
  cases uppercase <;> decide

/-- The parts of the numeral, as it is split at the letter of the exponent. -/
theorem parts_hexNumeral :
    (hexNumeral uppercase alternate leading digits e).takeWhile (!isExponentMarker ·) =
        hexMantissa alternate leading digits ∧
      (hexNumeral uppercase alternate leading digits e).dropWhile (!isExponentMarker ·) =
        exponentMarker uppercase :: signedText e := by
  have hm : ∀ c ∈ hexMantissa alternate leading digits, (!isExponentMarker c) = true := fun c hc => by
    rw [isExponentMarker_hexMantissa hl hds hc, Bool.not_false]
  have hmark : (!isExponentMarker (exponentMarker uppercase)) = false := by
    rw [isExponentMarker_exponentMarker, Bool.not_true]
  rw [hexNumeral, List.takeWhile_append_of_pos hm, List.dropWhile_append_of_pos hm, List.takeWhile_cons,
    List.dropWhile_cons, hmark, if_neg Bool.false_ne_true, if_neg Bool.false_ne_true, List.append_nil]
  exact ⟨rfl, rfl⟩

theorem mantissaDigits_hexMantissa :
    mantissaDigits (hexMantissa alternate leading digits) = Digits.byte leading :: digits ∧
      fractionDigits (hexMantissa alternate leading digits) = digits := by
  have hne : ∀ {c : UInt8}, isAsciiHexdigit c = true → (c != ascii '.') = true := fun h =>
    bne_iff_ne.2 (ne_of_isAsciiHexdigit h).1
  have hlead := hne (Numeral.isAsciiHexdigit_byte hl)
  have hall : mantissaDigits digits = digits := List.filter_eq_self.2 fun c hc => hne (hds c hc)
  have hcons : ∀ t, mantissaDigits (Digits.byte leading :: t) = Digits.byte leading :: mantissaDigits t := fun t =>
    List.filter_cons_of_pos hlead
  have hpoint : ∀ t, mantissaDigits (ascii '.' :: t) = mantissaDigits t := fun t =>
    List.filter_cons_of_neg (by decide)
  rw [hexMantissa, fractionDigits, List.cons_append, hcons, List.dropWhile_cons, if_pos hlead]
  by_cases hdot : (digits.isEmpty && !alternate) = true
  · obtain rfl := List.isEmpty_iff.1 (Bool.and_eq_true_iff.1 hdot).1
    rw [if_pos hdot]
    exact ⟨rfl, rfl⟩
  · rw [if_neg hdot, List.singleton_append, hpoint, hall, List.dropWhile_cons, if_neg (by decide), hpoint, hall]
    exact ⟨rfl, rfl⟩

omit hl hds in
theorem exponentValue_signedText : exponentValue (signedText e) = e := by
  have hvalue : Digits.value 10 (Digits.bytes 10 e.natAbs) = e.natAbs :=
    Digits.value_bytes (by norm_num) (by norm_num)
  rw [exponentValue, signedText]
  by_cases he : e < 0
  · have hsign : Numeral.splitSign (ascii '-' :: Digits.bytes 10 e.natAbs) =
        (true, Digits.bytes 10 e.natAbs) := rfl
    rw [if_pos he, hsign, if_pos rfl, hvalue]
    omega
  · have hsign : Numeral.splitSign (ascii '+' :: Digits.bytes 10 e.natAbs) =
        (false, Digits.bytes 10 e.natAbs) := rfl
    rw [if_neg he, hsign, if_neg Bool.false_ne_true, hvalue]
    omega

/-- The value of the numeral is that of its digits, scaled by its exponent. -/
theorem hexRational_hexNumeral :
    hexRational (hexNumeral uppercase alternate leading digits e) =
      ((leading * 16 ^ digits.length + Digits.value 16 digits : Nat) : ℚ) / 16 ^ digits.length * 2 ^ e := by
  obtain ⟨hmantissa, hexponent⟩ := @parts_hexNumeral _ _ uppercase alternate hl hds e
  obtain ⟨hall, hfraction⟩ := @mantissaDigits_hexMantissa _ _ alternate hl hds
  rw [hexRational, hmantissa, hexponent, List.drop_one, List.tail_cons, hall, hfraction, exponentValue_signedText,
    Digits.value_cons, Digits.digit_byte hl]

theorem validateMantissa_hexMantissa :
    validateMantissa (hexMantissa alternate leading digits) isAsciiHexdigit = some (digits.length + 1) := by
  have hdigits : ∀ {bytes : List UInt8}, (∀ c ∈ bytes, isAsciiHexdigit c = true) → ∀ dots count,
      validateMantissaLoop isAsciiHexdigit bytes dots count = some (count + bytes.length) := by
    intro bytes hbytes dots count
    have hloop := @Numeral.validateMantissaLoop_digits isAsciiHexdigit bytes dots count
      (fun c hc => ⟨hbytes c hc, (ne_of_isAsciiHexdigit (hbytes c hc)).1⟩) []
    rwa [List.append_nil] at hloop
  have hlead := Numeral.isAsciiHexdigit_byte hl
  have hfirst : ∀ rest, validateMantissaLoop isAsciiHexdigit (Digits.byte leading :: rest) 0 0 =
      validateMantissaLoop isAsciiHexdigit rest 0 1 := fun rest => by
    rw [validateMantissaLoop, if_neg (by rw [beq_iff_eq]; exact (ne_of_isAsciiHexdigit hlead).1), if_pos hlead]
  rw [validateMantissa, hexMantissa, List.cons_append, hfirst, Nat.add_comm]
  split
  · exact hdigits hds 0 1
  · show validateMantissaLoop isAsciiHexdigit digits 1 1 = _
    exact hdigits hds 1 1

/-- The reader takes the numeral and rounds it to the nearest double. -/
theorem parseUnsigned_hexNumeral (ops : FloatOps) (he : e.natAbs ≤ 2048) (hlen : digits.length < 2 ^ 20) :
    ∃ y, parseUnsigned ops ([ascii '0', ascii (if uppercase then 'X' else 'x')] ++
        hexNumeral uppercase alternate leading digits e) = some y ∧
      F64.RoundsTo (hexRational (hexNumeral uppercase alternate leading digits e)) y := by
  obtain ⟨M, hM⟩ : ∃ M, M = hexMantissa alternate leading digits := ⟨_, rfl⟩
  have hMlen : M.length ≤ digits.length + 2 := by
    rw [hM, hexMantissa, List.cons_append, List.length_cons, List.length_append]
    split <;> simp only [List.length_nil, List.length_singleton] <;> omega
  have hElen : (signedText e).length ≤ 5 := by
    rw [signedText, List.length_cons]
    have := @Digits.length_bytes_le 10 e.natAbs 4 (by norm_num) (by norm_num) (by omega)
    omega
  have hsplit : splitExponent (hexNumeral uppercase alternate leading digits e) (ascii 'p') (ascii 'P') =
      some (M, some (signedText e)) := by
    obtain ⟨hmantissa, hexponent⟩ := @parts_hexNumeral _ _ uppercase alternate hl hds e
    have hnone : ((signedText e).any fun byte => byte == ascii 'p' || byte == ascii 'P') = false := by
      rw [List.any_eq_false]
      exact fun c hc => by rw [← isExponentMarker, isExponentMarker_signedText hc]; exact Bool.false_ne_true
    have htext : hexNumeral uppercase alternate leading digits e = M ++ exponentMarker uppercase :: signedText e := by
      rw [hM, hexNumeral]
    rw [splitExponent]
    simp only [Numeral.findIdx?_marker, hmantissa, hexponent, if_neg (List.cons_ne_nil _ _), ← hM]
    rw [htext, ← List.drop_drop, List.drop_left, List.take_left]
    simp only [List.drop_one, List.tail_cons, hnone, Bool.false_eq_true, if_false]
  have hvalid : validateMantissa M isAsciiHexdigit = some (digits.length + 1) :=
    hM ▸ validateMantissa_hexMantissa hl hds
  have hlimit : Numeral.saturate (Numeral.saturate ((M.length : Int) * 4) + 2048) = M.length * 4 + 2048 := by
    rw [Numeral.saturate_of_mem (x := (M.length : Int) * 4) (by omega) (by omega),
      Numeral.saturate_of_mem (by omega) (by omega)]
  have hread : Numeral.parseSignedI64Saturating (signedText e) (M.length * 4 + 2048) = some e :=
    Numeral.parseSignedI64Saturating_signedText (by omega) (by omega)
  obtain ⟨s, -, -, -, hfold, -⟩ := Numeral.HexState.reads_start.foldlM
    (fun c hc => mem_hexMantissa hl hds (hM ▸ hc : c ∈ hexMantissa alternate leading digits))
    (by omega : 0 + M.length < 2 ^ 63)
  have hparse : parseHex ops (hexNumeral uppercase alternate leading digits e) = some (s.finish ops e) := by
    rw [parseHex]
    simp only [hsplit, hvalid, Option.bind_eq_bind, Option.bind_some, Nat.add_one_ne_zero, if_false, hlimit, hread,
      hfold]
    rfl
  refine ⟨s.finish ops e, ?_, Numeral.parseHex_roundsTo ops ?_ hparse⟩
  · rw [← hparse, parseUnsigned]
    cases uppercase <;> rfl
  · have hlen' : (hexNumeral uppercase alternate leading digits e).length = M.length + (signedText e).length + 1 := by
      rw [hexNumeral, ← hM, List.length_append, List.length_cons]
      omega
    omega

theorem parseLuaNumeral_hexNumeral (ops : FloatOps) :
    parseLuaNumeral ops ([ascii '0', ascii (if uppercase then 'X' else 'x')] ++
        hexNumeral uppercase alternate leading digits e) =
      parseUnsigned ops ([ascii '0', ascii (if uppercase then 'X' else 'x')] ++
        hexNumeral uppercase alternate leading digits e) := by
  have hspace : ∀ c ∈ [ascii '0', ascii (if uppercase then 'X' else 'x')] ++
      hexNumeral uppercase alternate leading digits e, isLuaWhitespace c = false := by
    intro c hc
    simp only [hexNumeral, exponentMarker, signedText, List.mem_append, List.mem_cons, List.not_mem_nil,
      or_false] at hc
    obtain (rfl | rfl) | hc | rfl | rfl | hc := hc
    · decide
    · cases uppercase <;> decide
    · obtain rfl | hhex := mem_hexMantissa hl hds hc
      · decide
      · exact Numeral.isLuaWhitespace_of_isAsciiHexdigit hhex
    · cases uppercase <;> decide
    · split <;> decide
    · exact Numeral.isLuaWhitespace_of_isAsciiHexdigit
        (Numeral.isAsciiHexdigit_of_isAsciiDigit (isAsciiDigit_of_mem_bytes hc))
  have hread := @Numeral.parseLuaNumeral_signed ops _ (ascii '0') rfl (by decide) hspace false
  rw [if_neg Bool.false_ne_true] at hread
  rw [hread]
  exact Option.map_id_apply

end Numeral

/-! ## Doubles -/

/-- The exponent of the power of two at or below a double, or of the least normal double. -/
def hexExponent (x : F64) : Int := if x.toRat = 0 then 0 else max (-1022) (Int.log 2 |x.toRat|)

/-- The exponent that is written, and the magnitude in units of the last digit of the significand. -/
theorem hexExponent_eq (x : F64) :
    hexExponent x = (if x.exponent = 0 then if x.fraction = 0 then 0 else -1022 else (x.exponent : Int) - 1023) ∧
      (x.fraction = 0 → x.exponent = 0 → x.toRat = 0) ∧
      (¬ (x.exponent = 0 ∧ x.fraction = 0) → |x.toRat| = x.units * 2 ^ (hexExponent x - 52)) := by
  have hrat : |x.toRat| = x.units * F64.unit x.unitIndex := by
    rw [← F64.toRat_abs, F64.toRat_of_sign x.sign_abs, F64.units_abs, F64.unitIndex_abs]
  have hunit := F64.unit_pos x.unitIndex
  have hfrac := x.fraction_lt
  by_cases hexp : x.exponent = 0
  · have hunits : x.units = x.fraction := if_pos hexp
    have hindex : F64.unit x.unitIndex = 2 ^ (-1074 : Int) := by rw [F64.unit, F64.unitIndex, hexp]; rfl
    rw [if_pos hexp]
    by_cases hzero : x.fraction = 0
    · have htoRat : x.toRat = 0 := by
        rw [← abs_eq_zero, hrat, hunits, hzero, Nat.cast_zero, zero_mul]
      exact ⟨by rw [hexExponent, if_pos htoRat, if_pos hzero], fun _ _ => htoRat,
        fun hne => absurd ⟨hexp, hzero⟩ hne⟩
    · have hpos : 0 < |x.toRat| := by
        rw [hrat, hunits]
        exact mul_pos (by exact_mod_cast Nat.pos_of_ne_zero hzero) hunit
      have hlog : Int.log 2 |x.toRat| < -1022 := by
        refine (Int.lt_zpow_iff_log_lt (by norm_num) hpos).1 ?_
        rw [hrat, hunits, hindex]
        calc (x.fraction : ℚ) * 2 ^ (-1074 : Int) < 2 ^ 52 * 2 ^ (-1074 : Int) :=
              mul_lt_mul_of_pos_right (by exact_mod_cast hfrac) (by positivity)
          _ = ((2 : Nat) : ℚ) ^ (-1022 : Int) := by
              rw [← zpow_natCast, ← zpow_add₀ (by norm_num)]
              norm_num
      have he : hexExponent x = -1022 := by
        rw [hexExponent, if_neg (abs_pos.1 hpos), max_eq_left hlog.le]
      refine ⟨by rw [he, if_neg hzero], fun h => absurd h hzero, fun _ => ?_⟩
      rw [hrat, hindex, he]
      norm_num
  · have hunits : x.units = 2 ^ 52 + x.fraction := by rw [F64.units, if_neg hexp, F64.significand]
    have hindex : F64.unit x.unitIndex = 2 ^ ((x.exponent : Int) - 1075) := by
      rw [F64.unit, F64.unitIndex]
      congr 1
      omega
    have hlo : (2 : ℚ) ^ ((x.exponent : Int) - 1023) ≤ |x.toRat| := by
      rw [hrat, hindex]
      calc (2 : ℚ) ^ ((x.exponent : Int) - 1023) = 2 ^ 52 * 2 ^ ((x.exponent : Int) - 1075) := by
            rw [← zpow_natCast, ← zpow_add₀ (by norm_num)]
            congr 1
            omega
        _ ≤ x.units * 2 ^ ((x.exponent : Int) - 1075) := by
            refine mul_le_mul_of_nonneg_right ?_ (by positivity)
            rw [hunits]
            exact_mod_cast Nat.le_add_right _ _
    have hhi : |x.toRat| < 2 ^ ((x.exponent : Int) - 1023 + 1) := by
      rw [hrat, hindex]
      calc x.units * (2 : ℚ) ^ ((x.exponent : Int) - 1075) < 2 ^ 53 * 2 ^ ((x.exponent : Int) - 1075) :=
            mul_lt_mul_of_pos_right (by exact_mod_cast x.units_lt) (by positivity)
        _ = 2 ^ ((x.exponent : Int) - 1023 + 1) := by
            rw [← zpow_natCast, ← zpow_add₀ (by norm_num)]
            congr 1
            omega
    have hpos : 0 < |x.toRat| := lt_of_lt_of_le (by positivity) hlo
    have hlog : Int.log 2 |x.toRat| = (x.exponent : Int) - 1023 :=
      le_antisymm (Int.lt_add_one_iff.1 ((Int.lt_zpow_iff_log_lt (by norm_num) hpos).1 (by exact_mod_cast hhi)))
        ((Int.zpow_le_iff_le_log (by norm_num) hpos).1 (by exact_mod_cast hlo))
    have he : hexExponent x = (x.exponent : Int) - 1023 := by
      rw [hexExponent, if_neg (abs_pos.1 hpos), hlog, max_eq_right (by omega)]
    refine ⟨by rw [he, if_neg hexp], fun _ h => absurd h hexp, fun _ => ?_⟩
    rw [hrat, hindex, he]
    congr 2
    omega

/-- What is written for a double is one hexadecimal digit, the digits of the precision and the exponent. With
    fewer digits than the significand has it is the multiple of the last of them that is nearest to the double,
    ties to even, and otherwise it is read back as the double. -/
structure PrintsHex (ops : FloatOps) (x : F64) (precision : Option Nat) (uppercase alternate : Bool)
    (leading : Nat) (digits : List UInt8) : Prop where
  leading_lt : leading < 16
  hexdigit : ∀ c ∈ digits, isAsciiHexdigit c = true
  length : ∀ p ∈ precision, digits.length = p
  text : formatHexFloat x precision uppercase alternate =
    [ascii '0', ascii (if uppercase then 'X' else 'x')] ++
      hexNumeral uppercase alternate leading digits (hexExponent x)
  reads : ∃ y, parseLuaNumeral ops (formatHexFloat x precision uppercase alternate) = some y ∧
    F64.RoundsTo (hexRational (hexNumeral uppercase alternate leading digits (hexExponent x))) y
  nearest : ∀ p ∈ precision, p < 13 → ∃ k : Nat,
    hexRational (hexNumeral uppercase alternate leading digits (hexExponent x)) = k * 2 ^ (hexExponent x - 4 * p) ∧
      NearestEven k (|x.toRat| / 2 ^ (hexExponent x - 4 * p))
  exact : (∀ p ∈ precision, 13 ≤ p) →
    parseLuaNumeral ops (formatHexFloat x precision uppercase alternate) = some x.abs

/-- **Hexadecimal floats.** Every finite double is written rounded to nearest, ties to even, at the precision. -/
theorem format_hex_float_rounds (ops : FloatOps) {x : F64} (hx : x.isFinite = true) (precision : Option UInt8)
    (uppercase alternate : Bool) :
    ∃ leading digits, PrintsHex ops x (precision.map UInt8.toNat) uppercase alternate leading digits := by
  obtain ⟨p, hp⟩ : ∃ p, p = precision.map UInt8.toNat := ⟨_, rfl⟩
  have hbyte : ∀ d ∈ p, d < 256 := by
    intro d hd
    obtain ⟨b, -, rfl⟩ := Option.map_eq_some_iff.1 (hp ▸ hd : precision.map UInt8.toNat = some d)
    exact b.toNat_lt
  rw [← hp]
  obtain ⟨he, hzero, hrat⟩ := hexExponent_eq x
  obtain ⟨e, hee⟩ : ∃ e, e = hexExponent x := ⟨_, rfl⟩
  rw [← hee] at he hrat
  have hfin : x.exponent ≠ 2047 := by simpa [F64.isFinite] using hx
  have hexp := x.exponent_lt
  have hbound : e.natAbs ≤ 2048 := by
    rw [he]
    split
    · split <;> omega
    · omega
  have hmag : |x.toRat| = x.units * 2 ^ (e - 52) := by
    by_cases h : x.exponent = 0 ∧ x.fraction = 0
    · rw [hzero h.2 h.1, F64.units, if_pos h.1, h.2, Nat.cast_zero, zero_mul, abs_zero]
    · exact hrat h
  obtain ⟨leading, digits, hdigits⟩ : ∃ leading digits, hexDigits x.units p uppercase = (leading, digits) := ⟨_, _, rfl⟩
  have hround : Rounded x.units p leading digits := by
    have hspec := @hexDigits_spec x.units uppercase p x.units_lt
    rwa [hdigits] at hspec
  have hlead := hround.leading_lt
  have hhex := hround.hexdigit
  have htext : formatHexFloat x p uppercase alternate =
      [ascii '0', ascii (if uppercase then 'X' else 'x')] ++ hexNumeral uppercase alternate leading digits e := by
    have hbytes : Digits.bytes 16 leading = [Digits.byte leading] := by
      rw [Digits.bytes, Nat.toDigits_of_lt_base hlead]
      rfl
    rw [F64.units, F64.significand] at hdigits
    rw [formatHexFloat, hx, ← he]
    simp only [Bool.not_true, Bool.false_eq_true, if_false, hdigits, hbytes]
    rw [hexNumeral, hexMantissa, exponentMarker]
    simp only [List.append_assoc, List.cons_append, List.nil_append]
  have hvalue := @hexRational_hexNumeral _ _ uppercase alternate hlead hhex e
  have hlen : digits.length < 2 ^ 20 := by
    cases hd : p with
    | none =>
      have hle := congrArg (fun r => r.2.length) hdigits
      rw [hd] at hle
      have : (hexText 13 (x.units % 2 ^ 52) uppercase).length = 13 :=
        (hexText_spec (by norm_num) (lt_of_lt_of_le (Nat.mod_lt _ (by norm_num)) (by norm_num))).1
      have hdrop := ( List.rdropWhile_prefix (· == ascii '0') (l := hexText 13 (x.units % 2 ^ 52) uppercase)).length_le
      rw [this] at hdrop
      have hkept : ((hexText 13 (x.units % 2 ^ 52) uppercase).rdropWhile (· == ascii '0')).length = digits.length := hle
      omega
    | some d =>
      have := hround.length d hd
      have := hbyte d hd
      omega
  obtain ⟨y, hread, hy⟩ := @parseUnsigned_hexNumeral _ _ uppercase alternate hlead hhex e ops hbound hlen
  have hparse : parseLuaNumeral ops (formatHexFloat x p uppercase alternate) = some y := by
    rw [htext, parseLuaNumeral_hexNumeral hlead hhex, hread]
  rw [hee] at htext
  refine ⟨leading, digits, hlead, hhex, hround.length, htext, ⟨y, hparse, hee ▸ hy⟩, ?_, fun hall => ?_⟩
  · intro d hd hlt
    refine ⟨roundHalfEven x.units (52 - d * 4), ?_, ?_⟩
    · have hscale : (2 : ℚ) ^ (e - 4 * d) = 2 ^ e / 16 ^ d := by
        have hpow : (2 : ℚ) ^ (4 * (d : Int)) = 16 ^ d := by
          rw [zpow_mul, zpow_natCast]
          norm_num
        rw [zpow_sub₀ (by norm_num), hpow]
      rw [← hee, hvalue, hround.nearest d hd hlt, hround.length d hd, hscale]
      ring
    · have hdiv : |x.toRat| / 2 ^ (e - 4 * d) = x.units / 2 ^ (52 - d * 4) := by
        rw [hmag, mul_div_assoc, ← zpow_sub₀ (by norm_num), div_eq_mul_inv, ← zpow_natCast, ← zpow_neg]
        congr 2
        omega
      rw [← hee, hdiv]
      exact nearestEven_roundHalfEven (by omega)
  · -- No digit is left out, and a double is the nearest one to itself.
    have hsame : hexRational (hexNumeral uppercase alternate leading digits e) = x.abs.toRat := by
      have hexact : ((leading * 16 ^ digits.length + Digits.value 16 digits : Nat) : ℚ) * 2 ^ 52 =
          x.units * 16 ^ digits.length := by exact_mod_cast hround.exact hall
      have hne : (16 : ℚ) ^ digits.length ≠ 0 := by positivity
      rw [hvalue, F64.toRat_abs, hmag, zpow_sub₀ (by norm_num), div_mul_eq_mul_div, div_eq_iff hne]
      have hpow : (2 : ℚ) ^ (52 : Int) = 2 ^ 52 := zpow_natCast 2 52
      rw [hpow, ← mul_div_assoc, div_mul_eq_mul_div, eq_div_iff (by positivity)]
      obtain ⟨N, hN⟩ : ∃ N : ℚ, N = ((leading * 16 ^ digits.length + Digits.value 16 digits : Nat) : ℚ) := ⟨_, rfl⟩
      rw [← hN] at hexact ⊢
      calc N * 2 ^ e * 2 ^ 52 = N * 2 ^ 52 * 2 ^ e := by ring
        _ = (x.units : ℚ) * 2 ^ e * 16 ^ digits.length := by rw [hexact]; ring
    rw [hsame] at hy
    have hfinite : x.abs.isFinite = true := by rw [F64.isFinite, F64.exponent_abs]; exact hx
    rw [hparse, F64.eq_of_roundsTo hfinite x.sign_abs hy]

/-- The double one, with three digits. -/
theorem format_hex_float_rounds_one :
    ∃ leading digits, PrintsHex ⟨fun _ => none, fun x _ => x⟩ (F64.ofNat 1) ((some 3).map UInt8.toNat) false false
      leading digits :=
  format_hex_float_rounds _ (by decide) (some 3) false false

end Dellingr.StringFormat
