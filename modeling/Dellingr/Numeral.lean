import Dellingr.Patterns.Compile
import Dellingr.Lib.Binary64Bits
import Dellingr.Lib.Digits

/-!
# Numerals

Numbers are read from text by one reader, `parseLuaNumeral`, for a decimal or a hexadecimal
numeral with a sign, a point and an exponent. A decimal is given to the standard library once
it is known to be one. A hexadecimal is read here: its first sixteen significant digits are
kept exactly (`HexState`), the others only as whether one of them is not zero, and the result
is assembled from its bits, rounded once (`finishHex`).

Signed 64-bit integers are integers that are saturated where the source saturates them
(`saturate`). What is taken from outside are the standard library's reader of decimals and the
product of the hardware (`FloatOps`); the product is behind a branch that is never taken.
-/

namespace Dellingr.Numeral

open Patterns (ascii isAsciiDigit isAsciiHexdigit isLuaWhitespace)

/-- The floating point of the standard library and the hardware. -/
structure FloatOps where
  /-- The double of a decimal, of ASCII text. -/
  parseF64 : List UInt8 → Option F64
  mul : F64 → F64 → F64

/-- The nearest signed 64-bit integer. -/
def saturate (x : Int) : Int := max (-2 ^ 63) (min x (2 ^ 63 - 1))

/-- The nearest unsigned 64-bit integer. -/
def saturateU (n : Nat) : Nat := min n (2 ^ 64 - 1)

theorem saturate_of_mem {x : Int} (h₁ : -2 ^ 63 ≤ x) (h₂ : x ≤ 2 ^ 63 - 1) : saturate x = x := by
  rw [saturate, min_eq_left h₂, max_eq_right h₁]

theorem saturateU_of_lt {n : Nat} (h : n < 2 ^ 64) : saturateU n = n := by
  rw [saturateU, Nat.min_eq_left (by omega)]

/-! ## Integers -/

/-- The integer of a finite integral double in the range whose ends an `f64` can be compared
    with exactly. -/
def exactI64 (number : F64) : Option Int :=
  let minimum := (F64.ofNat (2 ^ 63)).neg
  let maximum := F64.ofBits ((F64.ofNat (2 ^ 63 - 1)).bits.toNat - 1)
  let outsideI64 := number.totalKey < minimum.totalKey ∨ maximum.totalKey < number.totalKey
  if number.isFinite = true ∧ ¬ outsideI64 ∧ number.trunc = number then some number.toI64 else none

/-! ## Parts of a numeral -/

/-- Whether two adjacent newline bytes are one line ending. -/
def isNewlinePair (first second : UInt8) : Bool :=
  (first == 13 && second == 10) || (first == 10 && second == 13)

/-- The digit of a hexadecimal byte. -/
def hexValue (byte : UInt8) : Option UInt8 :=
  if ascii '0' ≤ byte && byte ≤ ascii '9' then some (byte - ascii '0')
  else if ascii 'a' ≤ byte && byte ≤ ascii 'f' then some (byte - ascii 'a' + 10)
  else if ascii 'A' ≤ byte && byte ≤ ascii 'F' then some (byte - ascii 'A' + 10)
  else none

def trimLuaWhitespace (bytes : List UInt8) : List UInt8 :=
  (bytes.dropWhile isLuaWhitespace).rdropWhile isLuaWhitespace

/-- A sign and what follows it; no sign is a plus. -/
def splitSign (bytes : List UInt8) : Bool × List UInt8 :=
  match bytes with
  | byte :: rest =>
    if byte == ascii '-' then (true, rest)
    else if byte == ascii '+' then (false, rest)
    else (false, bytes)
  | [] => (false, [])

/-- The bytes before and after the letter of the exponent, which occurs at most once. -/
def splitExponent (bytes : List UInt8) (lower upper : UInt8) :
    Option (List UInt8 × Option (List UInt8)) :=
  let isMarker := fun byte => byte == lower || byte == upper
  match bytes.findIdx? isMarker with
  | some index =>
    if (bytes.drop (index + 1)).any isMarker then none
    else some (bytes.take index, some (bytes.drop (index + 1)))
  | none => some (bytes, none)

def validateMantissaLoop (validDigit : UInt8 → Bool) : List UInt8 → Nat → Nat → Option Nat
  | [], _, digits => some digits
  | byte :: rest, dots, digits =>
    if byte == ascii '.' then
      if 1 < dots + 1 then none else validateMantissaLoop validDigit rest (dots + 1) digits
    else if validDigit byte then validateMantissaLoop validDigit rest dots (digits + 1)
    else none

/-- The number of digits of a mantissa, which has at most one point. -/
def validateMantissa (bytes : List UInt8) (validDigit : UInt8 → Bool) : Option Nat :=
  validateMantissaLoop validDigit bytes 0 0

/-- At least one digit, after a sign or none. -/
def validateSignedDigits (bytes : List UInt8) : Option Unit :=
  let digits := (splitSign bytes).2
  if !digits.isEmpty && digits.all isAsciiDigit then some () else none

/-- The integer of signed digits, its magnitude cut off at a limit. -/
def parseSignedI64Saturating (bytes : List UInt8) (limit : Int) : Option Int := do
  validateSignedDigits bytes
  let (negative, digits) := splitSign bytes
  let magnitude := digits.foldl (fun magnitude byte =>
    min (saturate (saturate (magnitude * 10) + (byte - ascii '0').toNat)) limit) 0
  return if negative then -magnitude else magnitude

/-- A hexadecimal digit is no point, no letter of an exponent and no sign. -/
theorem ne_of_isAsciiHexdigit {c : UInt8} (h : isAsciiHexdigit c = true) :
    c ≠ ascii '.' ∧ c ≠ ascii 'p' ∧ c ≠ ascii 'P' := by
  refine ⟨?_, ?_, ?_⟩ <;> rintro rfl <;> revert h <;> decide

/-- The value of a digit, as the readers compute it. -/
theorem toNat_sub_of_isAsciiDigit {c : UInt8} (h : isAsciiDigit c = true) :
    (c - ascii '0').toNat = Digits.digit c := by
  simp only [isAsciiDigit, Bool.and_eq_true, decide_eq_true_eq] at h
  obtain ⟨h₁, h₂⟩ := h
  have hlt : c.toNat < 58 := Nat.lt_succ_of_le (UInt8.le_iff_toNat_le.1 h₂)
  rw [UInt8.toNat_sub_of_le _ _ h₁, Digits.digit, if_pos hlt]
  rfl

/-- Digits are a mantissa. -/
theorem validateMantissaLoop_digits {valid : UInt8 → Bool} {ds : List UInt8} {dots digits : Nat}
    (hds : ∀ c ∈ ds, valid c = true ∧ c ≠ ascii '.') (rest : List UInt8) :
    validateMantissaLoop valid (ds ++ rest) dots digits =
      validateMantissaLoop valid rest dots (digits + ds.length) := by
  induction ds generalizing digits with
  | nil => rfl
  | cons c ds ih =>
    obtain ⟨hv, hdot⟩ := hds c List.mem_cons_self
    rw [List.cons_append, validateMantissaLoop]
    simp only [beq_iff_eq, hdot, if_false, hv, if_true]
    rw [ih fun c hm => hds c (List.mem_cons_of_mem _ hm), List.length_cons]
    congr 1
    omega

/-- A text without the letter of an exponent has none. -/
theorem splitExponent_none {bytes : List UInt8} {lower upper : UInt8}
    (h : ∀ c ∈ bytes, c ≠ lower ∧ c ≠ upper) : splitExponent bytes lower upper = some (bytes, none) := by
  have hfind : (bytes.findIdx? fun byte => byte == lower || byte == upper) = none := by
    rw [List.findIdx?_eq_none_iff]
    intro c hm
    simp [h c hm]
  rw [splitExponent]
  simp only [hfind]

/-- A text with the letter of an exponent once. -/
theorem splitExponent_append {mantissa exponent : List UInt8} {lower upper : UInt8}
    (hm : ∀ c ∈ mantissa, c ≠ lower ∧ c ≠ upper) (he : ∀ c ∈ exponent, c ≠ lower ∧ c ≠ upper) :
    splitExponent (mantissa ++ lower :: exponent) lower upper = some (mantissa, some exponent) := by
  have hfind : ((mantissa ++ lower :: exponent).findIdx? fun byte => byte == lower || byte == upper) =
      some mantissa.length := by
    rw [List.findIdx?_append, List.findIdx?_eq_none_iff.2 (fun c hc => by simp [hm c hc])]
    simp [List.findIdx?_cons]
  have hdrop : (mantissa ++ lower :: exponent).drop (mantissa.length + 1) = exponent := by
    rw [← List.drop_drop, List.drop_left]
    rfl
  have hany : (exponent.any fun byte => byte == lower || byte == upper) = false := by
    rw [List.any_eq_false]
    intro c hc
    simp [he c hc]
  rw [splitExponent]
  simp only [hfind, hdrop, hany, Bool.false_eq_true, if_false, List.take_left]

/-! ## Rounding -/

def MAX_SIGNIFICANT_HEX_DIGITS : Int := 16
def F64_PRECISION_BITS : Nat := 53
def MIN_NORMAL_EXPONENT : Int := -1022
def HALF_MIN_SUBNORMAL_EXPONENT : Int := -1075
def MAX_NORMAL_EXPONENT : Int := 1023

def infinity : F64 := F64.ofBits (2047 * 2 ^ 52)

/-- The number of bits of an unsigned integer, without its leading zeros. -/
def bitCount (n : Nat) : Nat := if n = 0 then 0 else n.log2 + 1

theorem bitCount_of_pos {n : Nat} (h : 0 < n) : bitCount n = n.log2 + 1 := if_neg (by omega)

/-- Shift right and round to nearest, ties to even; `sticky` stands for bits that were dropped
    before. -/
def roundShiftRight (value shift : Nat) (sticky : Bool) : Nat :=
  if shift = 0 then value
  else
    let kept := value / 2 ^ shift
    let remainder := value % 2 ^ shift
    let halfway := 2 ^ (shift - 1)
    let roundUp := halfway < remainder ∨ (remainder = halfway ∧ (sticky = true ∨ kept % 2 ≠ 0))
    saturateU (kept + if roundUp then 1 else 0)

/-- A double below the normal ones, as a number of the least positive ones. -/
def roundHexSubnormal (prefixBits : Nat) (sticky : Bool) (scale : Int) : F64 :=
  let shift := saturate (-1074 - scale)
  let units :=
    if shift ≤ 0 then
      let left := max 0 (min (saturate (-shift)) 63)
      prefixBits * 2 ^ left.toNat % 2 ^ 64
    else if shift < 64 then roundShiftRight prefixBits (max 1 (min shift 63)).toNat sticky
    else if shift = 64 then
      if 2 ^ 63 < prefixBits ∨ (prefixBits = 2 ^ 63 ∧ sticky = true) then 1 else 0
    else 0
  F64.ofBits units

/-- Add to the exponent of a normal double. The last branch is not taken: a result that is not
    normal is rounded by `roundHexSubnormal`. -/
def scaleFiniteByPowerOfTwo (ops : FloatOps) (value : F64) (scale : Int) : F64 :=
  let valueExponent := saturate (value.exponent - 1023)
  let exponent := saturate (scale + valueExponent)
  if MAX_NORMAL_EXPONENT < exponent then infinity
  else if MIN_NORMAL_EXPONENT ≤ exponent then
    F64.ofBits (value.fraction + (exponent + 1023).toNat * 2 ^ 52)
  else
    let normalized := F64.ofBits (value.fraction + 1023 * 2 ^ 52)
    let first := F64.ofBits (2 ^ 52)
    let second := F64.ofBits ((max (exponent + 1022 + 1023) 1).toNat * 2 ^ 52)
    ops.mul (ops.mul normalized first) second

/-- The double `prefixBits * 2 ^ scale`, with bits dropped below it or not. -/
def finishHex (ops : FloatOps) (prefixBits : Nat) (droppedNonzero : Bool) (scale : Int) : F64 :=
  let bits := bitCount prefixBits
  let topExponent := saturate (scale + (bits - 1 : Nat))
  if MAX_NORMAL_EXPONENT < topExponent then infinity
  else if topExponent < HALF_MIN_SUBNORMAL_EXPONENT then F64.ofBits 0
  else if topExponent < MIN_NORMAL_EXPONENT then roundHexSubnormal prefixBits droppedNonzero scale
  else
    let shift := bits - F64_PRECISION_BITS
    let significand := roundShiftRight prefixBits shift droppedNonzero
    let adjustedScale := saturate (scale + shift)
    scaleFiniteByPowerOfTwo ops (F64.ofNat significand) adjustedScale

/-! ## Whole numerals -/

/-- What has been read of a hexadecimal mantissa. -/
structure HexState where
  prefixBits : Nat
  significantDigits : Int
  fractionalDigits : Int
  droppedDigits : Int
  droppedNonzero : Bool
  fractional : Bool
  deriving DecidableEq, Repr

namespace HexState

def start : HexState := ⟨0, 0, 0, 0, false, false⟩

/-- Read a digit. Zeros before the first significant digit count for the point, but not as
    significant. -/
def readDigit (s : HexState) (digit : UInt8) : HexState :=
  let s := if s.fractional then { s with fractionalDigits := saturate (s.fractionalDigits + 1) } else s
  if s.significantDigits = 0 ∧ digit = 0 then s
  else if s.significantDigits < MAX_SIGNIFICANT_HEX_DIGITS then
    { s with
      prefixBits := saturateU (saturateU (s.prefixBits * 16) + digit.toNat)
      significantDigits := saturate (s.significantDigits + 1) }
  else
    { s with
      droppedDigits := saturate (s.droppedDigits + 1)
      droppedNonzero := s.droppedNonzero || digit != 0 }

/-- Read a byte of a mantissa. -/
def step (s : HexState) (byte : UInt8) : Option HexState :=
  if byte == ascii '.' then some { s with fractional := true } else (hexValue byte).map s.readDigit

/-- The double of a mantissa and an exponent. -/
def finish (ops : FloatOps) (s : HexState) (exponent : Int) : F64 :=
  if s.significantDigits = 0 then F64.ofBits 0
  else
    let digitAdjustment := saturate (saturate (s.droppedDigits - s.fractionalDigits) * 4)
    finishHex ops s.prefixBits s.droppedNonzero (saturate (exponent + digitAdjustment))

end HexState

/-- The double of a hexadecimal numeral after its `0x`. An exponent beyond the limit makes the
    result zero or infinite whatever the mantissa. -/
def parseHex (ops : FloatOps) (bytes : List UInt8) : Option F64 := do
  let (mantissa, exponent) ← splitExponent bytes (ascii 'p') (ascii 'P')
  let digits ← validateMantissa mantissa isAsciiHexdigit
  if digits = 0 then none
  else
    let exponentLimit := saturate (saturate (mantissa.length * 4) + 2048)
    let exponent ← match exponent with
      | some exponent => parseSignedI64Saturating exponent exponentLimit
      | none => some 0
    let s ← mantissa.foldlM HexState.step HexState.start
    return s.finish ops exponent

/-- The double of a decimal numeral. What is given to the standard library is ASCII. -/
def parseDecimal (ops : FloatOps) (bytes : List UInt8) : Option F64 := do
  let (mantissa, exponent) ← splitExponent bytes (ascii 'e') (ascii 'E')
  let digits ← validateMantissa mantissa isAsciiDigit
  if digits = 0 then none
  else
    match exponent with
    | some exponent => validateSignedDigits exponent
    | none => some ()
    ops.parseF64 bytes

/-- The double of a numeral without its sign. -/
def parseUnsigned (ops : FloatOps) (body : List UInt8) : Option F64 :=
  if [ascii '0', ascii 'x'].isPrefixOf body || [ascii '0', ascii 'X'].isPrefixOf body then
    parseHex ops (body.drop 2)
  else parseDecimal ops body

/-- The double of a whole numeral, with whitespace around it. -/
def parseLuaNumeral (ops : FloatOps) (input : List UInt8) : Option F64 :=
  let (negative, body) := splitSign (trimLuaWhitespace input)
  (parseUnsigned ops body).map fun value => if negative then value.neg else value

end Dellingr.Numeral
