import Dellingr.Numeral
import Dellingr.Vm.StringPool

/-!
# Formatting

The conversions of `string.format` that write a value as Lua source: `%a`, a number as a
hexadecimal float (`formatHexFloat`), and `%q`, any value that has a literal
(`quoteArgument`).

A quoted string keeps its bytes but for the quote, the backslash and the control bytes. A
control byte is written as a decimal escape, with as few digits as it has unless the next byte
is a digit, which would be read as one more of them. A quoted number is written as a decimal
if it is an integer, and as a hexadecimal float otherwise, so that no digit is lost.
-/

namespace Dellingr.StringFormat

open Patterns (ascii isAsciiDigit)
open Numeral (exactI64)

inductive FormatError
  | stringSizeExceeded (size : Nat)
  /-- A table or a function cannot be written as a literal. -/
  | valueHasNoLiteralForm
  deriving DecidableEq, Repr

/-- The length of a string that grows, within the limit of all strings. -/
def checkedStringGrowth (current additional : Nat) : Except FormatError Nat :=
  let size := min (current + additional) (2 ^ 64 - 1)
  if MAX_STRING_BYTES < size then .error (.stringSizeExceeded size) else .ok size

/-! ## Hexadecimal floats -/

/-- The letters of a text of ASCII in upper case. -/
def makeAsciiUppercase (text : List UInt8) : List UInt8 :=
  text.map fun c => if ascii 'a' ≤ c && c ≤ ascii 'z' then c - 32 else c

/-- The digits of a hexadecimal number, padded with zeros. -/
def hexText (width n : Nat) (uppercase : Bool) : List UInt8 :=
  let text := Digits.padded 16 width n
  if uppercase then makeAsciiUppercase text else text

/-- An integer with its sign. -/
def signedText (n : Int) : List UInt8 :=
  ascii (if n < 0 then '-' else '+') :: Digits.bytes 10 n.natAbs

/-- An integer, with a sign if it is negative. -/
def integerText (n : Int) : List UInt8 :=
  if n < 0 then ascii '-' :: Digits.bytes 10 n.natAbs else Digits.bytes 10 n.natAbs

/-- A NaN or an infinity. -/
def specialFloat (number : F64) (uppercase : Bool) : List UInt8 :=
  let bytes := (if number.isNan then "nan" else "inf").toList.map ascii
  if uppercase then makeAsciiUppercase bytes else bytes

/-- The leading digit and the digits after the point of a significand of 53 bits, with the
    precision asked for, rounded to nearest, ties to even. Without a precision there are as
    many digits as it takes. -/
def hexDigits (significand : Nat) (precision : Option Nat) (uppercase : Bool) : Nat × List UInt8 :=
  match precision with
  | some digits =>
    if digits < 13 then
      let droppedBits := 52 - digits * 4
      let rounded := significand / 2 ^ droppedBits
      let remainder := significand % 2 ^ droppedBits
      let halfway := 2 ^ (droppedBits - 1)
      let rounded :=
        if halfway < remainder ∨ (remainder = halfway ∧ rounded % 2 = 1) then rounded + 1 else rounded
      let text := if digits = 0 then [] else hexText digits (rounded % 2 ^ (digits * 4)) uppercase
      (rounded / 2 ^ (digits * 4), text)
    else
      (significand / 2 ^ 52,
        hexText 13 (significand % 2 ^ 52) uppercase ++ List.replicate (digits - 13) (ascii '0'))
  | none =>
    (significand / 2 ^ 52, (hexText 13 (significand % 2 ^ 52) uppercase).rdropWhile (· == ascii '0'))

/-- A double as a hexadecimal float; the sign is not written. -/
def formatHexFloat (number : F64) (precision : Option Nat) (uppercase alternate : Bool) : List UInt8 :=
  if !number.isFinite then specialFloat number uppercase
  else
    let exponent : Int :=
      if number.exponent = 0 then if number.fraction = 0 then 0 else -1022
      else number.exponent - 1023
    let significand := if number.exponent = 0 then number.fraction else 2 ^ 52 + number.fraction
    let (leading, fractionText) := hexDigits significand precision uppercase
    let dot := if fractionText.isEmpty && !alternate then [] else [ascii '.']
    [ascii '0', ascii (if uppercase then 'X' else 'x')] ++ Digits.bytes 16 leading ++ dot ++
      fractionText ++ ascii (if uppercase then 'P' else 'p') :: signedText exponent

/-! ## Quoting -/

/-- The text of a byte of a string, given the bytes after it. -/
def quoteByte (byte : UInt8) (rest : List UInt8) : List UInt8 :=
  if byte == ascii '"' || byte == ascii '\\' then [ascii '\\', byte]
  else if byte == 10 then [ascii '\\', 10]
  else if byte ≤ 31 || byte == 127 then
    ascii '\\' :: if rest.head?.any isAsciiDigit then Digits.padded 10 3 byte.toNat
      else Digits.bytes 10 byte.toNat
  else [byte]

def quoteLoop : List UInt8 → List UInt8 → Except FormatError (List UInt8)
  | [], output => .ok output
  | byte :: rest, output => do
    let escaped := quoteByte byte rest
    let _ ← checkedStringGrowth output.length escaped.length
    quoteLoop rest (output ++ escaped)

/-- A string as a literal. -/
def quoteString (bytes : List UInt8) : Except FormatError (List UInt8) := do
  let _ ← checkedStringGrowth bytes.length 2
  let output ← quoteLoop bytes [ascii '"']
  let _ ← checkedStringGrowth output.length 1
  return output ++ [ascii '"']

/-- A number as an expression that gives it. The negative zero is written as a hexadecimal
    float, which keeps its sign. -/
def quoteNumber (number : F64) : List UInt8 :=
  if number.isNan then "(0/0)".toList.map ascii
  else if number = Numeral.infinity then "1e9999".toList.map ascii
  else if number = Numeral.infinity.neg then "-1e9999".toList.map ascii
  else
    match (exactI64 number).filter fun _ => number != (F64.ofBits 0).neg with
    | some integer => integerText integer
    | none =>
      let bytes := formatHexFloat number.abs none false false
      if number.sign then ascii '-' :: bytes else bytes

/-- A value of an argument, as far as quoting tells them apart. -/
inductive FormatArgument
  | string (bytes : List UInt8)
  | number (value : F64)
  | boolean (value : Bool)
  | nil | table | function

/-- An argument as a literal. -/
def quoteArgument : FormatArgument → Except FormatError (List UInt8)
  | .string bytes => quoteString bytes
  | .number value => .ok (quoteNumber value)
  | .boolean value => .ok ((if value then "true" else "false").toList.map ascii)
  | .nil => .ok ("nil".toList.map ascii)
  | .table | .function => .error .valueHasNoLiteralForm

/-! ## The limit of strings -/

theorem checkedStringGrowth_of_le {current additional : Nat}
    (h : current + additional ≤ MAX_STRING_BYTES) :
    checkedStringGrowth current additional = .ok (current + additional) := by
  have hmin : min (current + additional) (2 ^ 64 - 1) = current + additional :=
    Nat.min_eq_left (h.trans (by decide))
  rw [checkedStringGrowth, hmin, if_neg (Nat.not_lt.2 h)]

theorem checkedStringGrowth_of_lt {current additional : Nat}
    (h : MAX_STRING_BYTES < current + additional) :
    ∃ e, checkedStringGrowth current additional = .error e := by
  have hlt : MAX_STRING_BYTES < min (current + additional) (2 ^ 64 - 1) := lt_min h (by decide)
  exact ⟨_, if_pos hlt⟩

end Dellingr.StringFormat
