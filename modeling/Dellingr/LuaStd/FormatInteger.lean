import Dellingr.Lib.Printf
import Dellingr.LuaStd.Directive

/-!
# Integers in formats

The integer conversions of `string.format` (`formatInteger`): `%d` and `%i` with the sign of the value, and
`%u`, `%o`, `%x` and `%X` of its bits.

For every directive that is read and passes the check they print what `printf` prescribes for the flags, the
width and the precision as written (`integer_directives_printf`).
-/

namespace Dellingr.StringFormat

open Patterns (ascii isAsciiDigit)

/-- Pad the parts of an integer to the width, and its digits to the precision. -/
def formatIntegerParts (sign basePrefix digits : List UInt8) (directive : Directive) : List UInt8 :=
  let digits :=
    match directive.precision with
    | some precision => List.replicate (precision - digits.length) (ascii '0') ++ digits
    | none => digits
  let contentLen := sign.length + basePrefix.length + digits.length
  let padding := directive.width.getD 0 - contentLen
  let zeroWidthPadding := directive.flags.zero && !directive.flags.left && directive.precision.isNone
  (if !directive.flags.left && !zeroWidthPadding then List.replicate padding (ascii ' ') else [])
    ++ sign ++ basePrefix
    ++ (if zeroWidthPadding then List.replicate padding (ascii '0') else [])
    ++ digits
    ++ (if directive.flags.left then List.replicate padding (ascii ' ') else [])

def formatSignedInteger (value : Int64) (directive : Directive) : List UInt8 :=
  let sign :=
    if value < 0 then [ascii '-']
    else if directive.flags.plus then [ascii '+']
    else if directive.flags.space then [ascii ' ']
    else []
  let digits :=
    if directive.precision = some 0 ∧ value = 0 then [] else Digits.bytes 10 value.toInt.natAbs
  formatIntegerParts sign [] digits directive

def formatUnsignedInteger (value : UInt64) (radix : Nat) (uppercase : Bool) (directive : Directive) :
    List UInt8 :=
  let digits := Digits.bytes radix value.toNat
  let digits := if radix = 16 ∧ uppercase = true then makeAsciiUppercase digits else digits
  let digits := if directive.precision = some 0 ∧ value = 0 then [] else digits
  let basePrefix :=
    if directive.flags.alternate then
      if radix = 8 ∧ (digits.isEmpty ∨ (digits.head? ≠ some (ascii '0') ∧
          directive.precision.all (· ≤ digits.length))) then [ascii '0']
      else if radix = 16 ∧ value ≠ 0 ∧ uppercase = true then [ascii '0', ascii 'X']
      else if radix = 16 ∧ value ≠ 0 then [ascii '0', ascii 'x']
      else []
    else []
  formatIntegerParts [] basePrefix digits directive

/-- `unsigned_integer_bits` -/
def unsignedIntegerBits (integer : Int64) : UInt64 := integer.toUInt64

/-- The branches of `format_argument` for integers. -/
def formatInteger (integer : Int64) (directive : Directive) : Option (List UInt8) :=
  match directive.conversion with
  | .signedDecimal => some (formatSignedInteger integer directive)
  | .unsignedDecimal => some (formatUnsignedInteger (unsignedIntegerBits integer) 10 false directive)
  | .octal => some (formatUnsignedInteger (unsignedIntegerBits integer) 8 false directive)
  | .hexLower => some (formatUnsignedInteger (unsignedIntegerBits integer) 16 false directive)
  | .hexUpper => some (formatUnsignedInteger (unsignedIntegerBits integer) 16 true directive)
  | _ => none

/-! ## The specification -/

/-- The conversion of `printf` that a conversion is, if it is of integers. -/
def Conversion.kind : Conversion → Option Printf.Kind
  | .signedDecimal => some .signed
  | .unsignedDecimal => some .unsigned
  | .octal => some .octal
  | .hexLower => some (.hex false)
  | .hexUpper => some (.hex true)
  | _ => none

/-- What a spelling asks of `printf`: its flags, and the numbers that its width and its precision are. A point
    without digits is the precision zero. -/
def Spelling.spec (s : Spelling) : Printf.Spec where
  minus := s.flags.contains (ascii '-')
  plus := s.flags.contains (ascii '+')
  space := s.flags.contains (ascii ' ')
  hash := s.flags.contains (ascii '#')
  zero := s.flags.contains (ascii '0')
  width := Digits.value 10 s.width
  precision := s.precision.map (Digits.value 10)

/-! ## Printing -/

variable {s : Spelling} {base n : Nat} {upper : Bool} {d : Directive}

theorem digit_eq {byte : UInt8} (h : isAsciiDigit byte = true) :
    (byte - ascii '0').toNat = Digits.digit byte ∧ Digits.digit byte ≤ 9 := by
  simp only [isAsciiDigit, Bool.and_eq_true, decide_eq_true_eq] at h
  have hle := UInt8.le_iff_toNat_le.1 h.1
  have hle' := UInt8.le_iff_toNat_le.1 h.2
  have hzero : (ascii '0').toNat = 48 := rfl
  have hnine : (ascii '9').toNat = 57 := rfl
  rw [Digits.digit, if_pos (by omega), UInt8.toNat_sub_of_le _ _ h.1, hzero]
  omega

/-- A field of at most two digits is the number it is. -/
theorem parseDecimalField_eq {digits : List UInt8} (h : ∀ byte ∈ digits, isAsciiDigit byte = true)
    (hlen : digits.length ≤ MAX_FORMAT_FIELD_DIGITS) : (parseDecimalField digits).getD 0 = Digits.value 10 digits := by
  match digits with
  | [] => rfl
  | [a] =>
    obtain ⟨ha, ha'⟩ := digit_eq (h a List.mem_cons_self)
    simp only [parseDecimalField, Digits.value, List.foldl_cons, List.foldl_nil, ha, List.isEmpty_cons,
      Bool.false_eq_true, if_false, Option.getD_some]
    omega
  | [a, b] =>
    obtain ⟨ha, ha'⟩ := digit_eq (h a List.mem_cons_self)
    obtain ⟨hb, hb'⟩ := digit_eq (h b (List.mem_cons_of_mem _ List.mem_cons_self))
    simp only [parseDecimalField, Digits.value, List.foldl_cons, List.foldl_nil, ha, hb, List.isEmpty_cons,
      Bool.false_eq_true, if_false, Option.getD_some]
    omega
  | a :: b :: c :: digits =>
    rw [MAX_FORMAT_FIELD_DIGITS] at hlen
    simp at hlen

/-- What the check leaves of a directive: at most two digits in each field. -/
theorem digits_le_of_validated (h : validateDirective d = .ok ()) :
    d.widthDigits ≤ MAX_FORMAT_FIELD_DIGITS ∧ d.precisionDigits ≤ MAX_FORMAT_FIELD_DIGITS := by
  rw [validateDirective] at h
  split at h
  · cases h
  split at h
  · cases h
  · next hno =>
    simp only [not_or, Nat.not_lt] at hno
    exact hno.2.2

/-- The digits, padded to the precision. -/
theorem padded_digits (precision : Option Nat) (n : Nat) :
    let ds := if precision = some 0 ∧ n = 0 then []
      else if upper then (Digits.bytes base n).map Printf.upperDigit else Digits.bytes base n
    (match precision with
      | some precision => List.replicate (precision - ds.length) (ascii '0') ++ ds
      | none => ds) = Printf.digits base upper (precision.getD 1) n := by
  dsimp only
  rw [Printf.digits, Printf.significant]
  by_cases hn : n = 0
  · subst hn
    have hzero : (if upper then (Digits.bytes base 0).map Printf.upperDigit else Digits.bytes base 0)
        = [ascii '0'] := by
      rw [Digits.bytes, Nat.toDigits_zero]
      cases upper <;> rfl
    rw [if_pos rfl, hzero]
    rcases precision with _ | _ | p
    · rfl
    · rfl
    · simp only [Option.getD_some, List.length_nil, Nat.sub_zero, List.append_nil]
      exact List.replicate_succ'.symm
  · rw [if_neg hn, if_neg fun h => hn h.2]
    cases precision with
    | some p => rfl
    | none =>
      -- A number that is not zero has a digit.
      have hpos : 1 - (if upper then (Digits.bytes base n).map Printf.upperDigit else Digits.bytes base n).length
          = 0 := by
        have hlen : 0 < (Digits.bytes base n).length := List.length_pos_of_ne_nil Digits.bytes_ne_nil
        split
        · rw [List.length_map]; omega
        · omega
      rw [Option.getD_none, hpos, List.replicate_zero, List.nil_append]

/-- A directive asks for what a specification does. -/
structure Asks (d : Directive) (spec : Printf.Spec) : Prop where
  minus : d.flags.left = spec.minus
  plus : d.flags.plus = spec.plus
  space : d.flags.space = spec.space
  hash : d.flags.alternate = spec.hash
  zero : d.flags.zero = spec.zero
  width : d.width.getD 0 = spec.width
  precision : d.precision = spec.precision

variable {spec : Printf.Spec}

theorem formatIntegerParts_eq (h : Asks d spec) (sign basePrefix digits : List UInt8) :
    formatIntegerParts sign basePrefix digits d = Printf.field spec (sign ++ basePrefix)
      (match d.precision with
        | some precision => List.replicate (precision - digits.length) (ascii '0') ++ digits
        | none => digits) := by
  have hlen : ∀ ds : List UInt8,
      sign.length + basePrefix.length + ds.length = (sign ++ basePrefix ++ ds).length := fun ds => by
    rw [List.length_append, List.length_append]
  rw [formatIntegerParts]
  simp only [hlen, Printf.field, h.minus, h.zero, h.width, h.precision]
  have hspace : Printf.byte ' ' = ascii ' ' := rfl
  have hzero : Printf.byte '0' = ascii '0' := rfl
  cases spec.minus with
  | true => simp [hspace]
  | false =>
    by_cases hz : (spec.zero && spec.precision.isNone) = true
    · simp [hz, hzero]
    · simp [hz, hspace]

theorem formatSignedInteger_eq (h : Asks d spec) (value : Int64) :
    formatSignedInteger value d = Printf.print spec .signed value.toInt := by
  have hsign : (value < 0) = (value.toInt < 0) := by rw [Int64.lt_iff_toInt_lt]; rfl
  have hzero : (value = 0) = (value.toInt.natAbs = 0) := by
    rw [Int.natAbs_eq_zero, ← Int64.toInt_inj]
    rfl
  have hdigits := @padded_digits 10 false d.precision value.toInt.natAbs
  simp only [Bool.false_eq_true, if_false] at hdigits
  rw [formatSignedInteger, formatIntegerParts_eq h]
  simp only [hsign, hzero, h.plus, h.space, List.append_nil]
  rw [hdigits, h.precision]
  rfl

/-- The bits of an integer, as a number. -/
theorem toNat_unsignedIntegerBits (value : Int64) :
    (unsignedIntegerBits value).toNat = (value.toInt % 2 ^ 64).toNat := by
  have hmod : value.toInt = ((unsignedIntegerBits value).toNat : Int).bmod (2 ^ 64) :=
    BitVec.toInt_eq_toNat_bmod _
  have hlt := (unsignedIntegerBits value).toNat_lt
  have hemod : ((unsignedIntegerBits value).toNat : Int).bmod (2 ^ 64) % ((2 ^ 64 : Nat) : Int)
      = (unsignedIntegerBits value).toNat := by
    rw [Int.bmod_emod]
    omega
  rw [hmod, show (2 : Int) ^ 64 = ((2 ^ 64 : Nat) : Int) from rfl, hemod, Int.toNat_natCast]

/-- The digits of an unsigned integer, before they are padded. -/
def unsignedDigits (precision : Option Nat) (base : Nat) (upper : Bool) (n : Nat) : List UInt8 :=
  if precision = some 0 ∧ n = 0 then []
  else if upper then (Digits.bytes base n).map Printf.upperDigit else Digits.bytes base n

/-- An octal needs a zero before its digits exactly where the padded digits do not begin with one. -/
theorem needs_zero_iff (precision : Option Nat) (n : Nat) :
    let ds := unsignedDigits precision 8 false n
    (ds.isEmpty = true ∨ (ds.head? ≠ some (ascii '0') ∧ precision.all (· ≤ ds.length) = true)) ↔
      (Printf.digits 8 false (precision.getD 1) n).head? ≠ some (Printf.byte '0') := by
  dsimp only
  by_cases hn : n = 0
  · subst hn
    have hzero : Digits.bytes 8 0 = [ascii '0'] := by decide
    match precision with
    | none => decide
    | some 0 => decide
    | some (p + 1) =>
      have hone : unsignedDigits (some (p + 1)) 8 false 0 = [ascii '0'] := by
        simp [unsignedDigits, hzero]
      rw [hone, Printf.digits, Printf.significant, if_pos rfl]
      simp +decide [List.replicate_succ]
  · have hds : unsignedDigits precision 8 false n = Printf.significant 8 false n := by
      rw [unsignedDigits, Printf.significant, if_neg hn, if_neg fun h => hn h.2]
    have hhead := @Printf.head_significant 8 n false (by decide) (by decide)
    have hpos : 0 < (Printf.significant 8 false n).length := by
      rw [Printf.significant, if_neg hn, if_neg Bool.false_ne_true]
      exact List.length_pos_of_ne_nil Digits.bytes_ne_nil
    have hnil : (Printf.significant 8 false n).isEmpty = false := by
      rw [List.isEmpty_eq_false_iff, ← List.length_pos_iff]
      exact hpos
    rw [hds, hnil]
    by_cases hle : precision.getD 1 ≤ (Printf.significant 8 false n).length
    · -- Nothing pads the digits, and the first of them is not zero.
      rw [Printf.digits_of_le hle]
      refine ⟨fun _ => hhead, fun _ => .inr ⟨hhead, ?_⟩⟩
      cases precision with
      | none => rfl
      | some p => simpa using hle
    · have hpad : (Printf.digits 8 false (precision.getD 1) n).head? = some (Printf.byte '0') := by
        rw [Printf.digits]
        obtain ⟨k, hk⟩ := Nat.exists_eq_succ_of_ne_zero
          (show precision.getD 1 - (Printf.significant 8 false n).length ≠ 0 by omega)
        rw [hk, List.replicate_succ]
        rfl
      refine ⟨fun h => ?_, fun h => absurd hpad h⟩
      rcases h with h | ⟨-, h⟩
      · cases h
      · cases precision with
        | none => exact absurd hpos (by rw [Option.getD_none] at hle; omega)
        | some p => exact absurd (by simpa using h) hle

/-- The digits of an unsigned integer, padded to the precision. -/
theorem padded_unsignedDigits (precision : Option Nat) (n : Nat) :
    (match precision with
      | some p => List.replicate (p - (unsignedDigits precision base upper n).length) (ascii '0')
          ++ unsignedDigits precision base upper n
      | none => unsignedDigits precision base upper n) = Printf.digits base upper (precision.getD 1) n :=
  padded_digits precision n

/-- The digits that are formatted, and how zero is told. -/
theorem unsignedDigits_eq (value : Int64) (precision : Option Nat) (radix : Nat) (uppercase : Bool) :
    (if precision = some 0 ∧ unsignedIntegerBits value = 0 then []
      else if uppercase = true then makeAsciiUppercase (Digits.bytes radix (unsignedIntegerBits value).toNat)
        else Digits.bytes radix (unsignedIntegerBits value).toNat)
      = unsignedDigits precision radix uppercase (value.toInt % 2 ^ 64).toNat := by
  have hzero : (unsignedIntegerBits value = 0) = ((unsignedIntegerBits value).toNat = 0) := by
    rw [← UInt64.toNat_inj]
    rfl
  simp only [hzero, toNat_unsignedIntegerBits]
  rfl

theorem formatUnsignedInteger_unsigned (h : Asks d spec) (value : Int64) :
    formatUnsignedInteger (unsignedIntegerBits value) 10 false d = Printf.print spec .unsigned value.toInt := by
  have hdigits := unsignedDigits_eq value d.precision 10 false
  rw [if_neg Bool.false_ne_true] at hdigits
  have hbase : ¬((10 : Nat) = 16 ∧ false = true) := by decide
  rw [formatUnsignedInteger, if_neg hbase, hdigits, formatIntegerParts_eq h, padded_unsignedDigits, h.precision]
  simp only [Printf.print, Printf.body]
  congr 1
  split <;> rfl

theorem formatUnsignedInteger_octal (h : Asks d spec) (value : Int64) :
    formatUnsignedInteger (unsignedIntegerBits value) 8 false d = Printf.print spec .octal value.toInt := by
  have hdigits := unsignedDigits_eq value d.precision 8 false
  rw [if_neg Bool.false_ne_true] at hdigits
  have hbase : ¬((8 : Nat) = 16 ∧ false = true) := by decide
  have hneeds := needs_zero_iff d.precision (value.toInt % 2 ^ 64).toNat
  rw [formatUnsignedInteger, if_neg hbase, hdigits, formatIntegerParts_eq h, padded_unsignedDigits]
  rw [h.precision] at hneeds ⊢
  simp only [h.hash, List.nil_append, Printf.print, Printf.body, Printf.alternateOctal]
  cases hash : spec.hash with
  | false => rfl
  | true =>
    simp only [if_true, true_and]
    by_cases hhead : (Printf.digits 8 false (spec.precision.getD 1) (value.toInt % 2 ^ 64).toNat).head?
        = some (Printf.byte '0')
    · rw [if_neg fun hor => hneeds.1 hor hhead, if_pos hhead]
      rfl
    · rw [if_pos (hneeds.2 hhead), if_neg hhead, Printf.digits_succ]
      exact Printf.field_zero spec _

theorem formatUnsignedInteger_hex (h : Asks d spec) (value : Int64) (uppercase : Bool) :
    formatUnsignedInteger (unsignedIntegerBits value) 16 uppercase d
      = Printf.print spec (.hex uppercase) value.toInt := by
  have hdigits := unsignedDigits_eq value d.precision 16 uppercase
  have hzero : (unsignedIntegerBits value ≠ 0) = ((value.toInt % 2 ^ 64).toNat ≠ 0) := by
    rw [← toNat_unsignedIntegerBits, ne_eq, ne_eq, ← UInt64.toNat_inj]
    rfl
  rw [formatUnsignedInteger]
  simp only [true_and]
  rw [hdigits, formatIntegerParts_eq h, padded_unsignedDigits, h.precision]
  simp only [h.hash, List.nil_append, Printf.print, Printf.body, hzero]
  generalize (value.toInt % 2 ^ 64).toNat = n
  have hradix : ¬((16 : Nat) = 8) := by decide
  cases hash : spec.hash with
  | false => rfl
  | true =>
    by_cases hn : n = 0
    · simp [hradix, hn]
    · cases uppercase <;> simp [hradix, hn] <;> rfl

/-- The directive of a spelling that passes the check asks for what its specification does. -/
theorem asks_of_validated (hvalid : validateDirective s.directive = .ok ()) : Asks s.directive s.spec := by
  obtain ⟨hwidth, hprecision⟩ := digits_le_of_validated hvalid
  refine ⟨rfl, rfl, rfl, rfl, rfl, parseDecimalField_eq s.width_digits hwidth, ?_⟩
  show s.precision.map _ = s.precision.map _
  cases hp : s.precision with
  | none => rfl
  | some digits =>
    have hlen : digits.length ≤ MAX_FORMAT_FIELD_DIGITS := by
      have hdef : s.directive.precisionDigits = (s.precision.getD []).length := rfl
      rw [hdef, hp] at hprecision
      exact hprecision
    exact congrArg some (parseDecimalField_eq (s.precision_digits digits hp) hlen)

/-- **Integer directives.** Directives are read exactly where a spelling within the limit begins the text, which is
    consumed; the spellings are the texts of the form; and every spelling that passes the check prints what
    `printf` does for each 64-bit integer. -/
theorem integer_directives_printf :
    (∀ rest d stop, parseDirective (ascii '%' :: rest) = .ok (d, stop) ↔
      ∃ s : Spelling, s.text <+: ascii '%' :: rest ∧ s.text.length ≤ MAX_FORMAT_LEN ∧
        d = s.directive ∧ stop = s.text.length) ∧
    (∀ text, (∃ s : Spelling, s.text = text) ↔ HasForm text) ∧
    ∀ s : Spelling, validateDirective s.directive = .ok () → ∀ value : Int64,
      formatInteger value s.directive
        = s.conversion.kind.map fun kind => Printf.print s.spec kind value.toInt := by
  refine ⟨fun rest d stop => parseDirective_eq_ok_iff, fun text => hasForm_iff.symm, fun s hvalid value => ?_⟩
  have hasks := asks_of_validated hvalid
  have hdef : s.directive.conversion = s.conversion := rfl
  rw [formatInteger, hdef]
  cases s.conversion with
  | signedDecimal => exact congrArg some (formatSignedInteger_eq hasks value)
  | unsignedDecimal => exact congrArg some (formatUnsignedInteger_unsigned hasks value)
  | octal => exact congrArg some (formatUnsignedInteger_octal hasks value)
  | hexLower => exact congrArg some (formatUnsignedInteger_hex hasks value false)
  | hexUpper => exact congrArg some (formatUnsignedInteger_hex hasks value true)
  | _ => rfl

end Dellingr.StringFormat
