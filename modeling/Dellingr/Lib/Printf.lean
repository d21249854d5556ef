import Dellingr.Lib.Digits

/-!
# Formatted integers

What the `printf` of C prints of an integer: for the conversions `d` and `i`, `u`, `o`, `x` and `X`, under the
five flags, a field width and a precision.

* The precision is the least number of digits; without one it is one. A zero with the precision zero has no
  digits at all (`digits`).
* `#` makes the first digit of an octal zero, by a greater precision if it needs one, and puts `0x` before a
  hexadecimal that is not zero (`body`).
* The field is padded with spaces on the left, or on the right under `-`. Under `0` it is padded with zeros after
  the sign and the base, unless there is a `-` or a precision (`field`).
-/

namespace Printf

/-- The flags, the width and the precision of a conversion. -/
structure Spec where
  minus : Bool
  plus : Bool
  space : Bool
  hash : Bool
  zero : Bool
  width : Nat
  precision : Option Nat

/-- The conversions of integers. -/
inductive Kind
  | signed | unsigned | octal | hex (upper : Bool)
  deriving DecidableEq

def byte (c : Char) : UInt8 := c.toUInt8

/-- A digit in upper case. -/
def upperDigit (c : UInt8) : UInt8 := if byte 'a' ≤ c && c ≤ byte 'z' then c - 32 else c

/-- The significant digits of a number: zero has none. -/
def significant (base : Nat) (upper : Bool) (n : Nat) : List UInt8 :=
  if n = 0 then []
  else if upper then (Digits.bytes base n).map upperDigit else Digits.bytes base n

/-- The digits of a number, at least as many as the precision asks for. -/
def digits (base : Nat) (upper : Bool) (precision n : Nat) : List UInt8 :=
  List.replicate (precision - (significant base upper n).length) (byte '0') ++ significant base upper n

/-- The digits of an octal under `#`: the precision grows if the first digit would not be zero. -/
def alternateOctal (precision n : Nat) : List UInt8 :=
  let ds := digits 8 false precision n
  if ds.head? = some (byte '0') then ds else digits 8 false (ds.length + 1) n

/-- What comes before the digits, and the digits. -/
def body (spec : Spec) (kind : Kind) (value : Int) : List UInt8 × List UInt8 :=
  let precision := spec.precision.getD 1
  let n := (value % 2 ^ 64).toNat
  match kind with
  | .signed =>
    (if value < 0 then [byte '-'] else if spec.plus then [byte '+'] else if spec.space then [byte ' '] else [],
      digits 10 false precision value.natAbs)
  | .unsigned => ([], digits 10 false precision n)
  | .octal => ([], if spec.hash then alternateOctal precision n else digits 8 false precision n)
  | .hex upper =>
    (if spec.hash && n ≠ 0 then [byte '0', byte (if upper then 'X' else 'x')] else [],
      digits 16 upper precision n)

/-- A field of at least the width. -/
def field (spec : Spec) (lead ds : List UInt8) : List UInt8 :=
  let missing := spec.width - (lead ++ ds).length
  if spec.minus then lead ++ ds ++ List.replicate missing (byte ' ')
  else if spec.zero && spec.precision.isNone then lead ++ List.replicate missing (byte '0') ++ ds
  else List.replicate missing (byte ' ') ++ lead ++ ds

/-- What is printed of a 64-bit integer. The conversions other than `d` and `i` take its bits as unsigned. -/
def print (spec : Spec) (kind : Kind) (value : Int) : List UInt8 :=
  field spec (body spec kind value).1 (body spec kind value).2

-- `%+06d`, `%#.0o` and `%-#5x|`
example : print ⟨false, true, false, false, true, 6, none⟩ .signed 42 = "+00042".toList.map byte := by decide
example : print ⟨false, false, false, true, false, 0, some 0⟩ .octal 0 = "0".toList.map byte := by decide
example : print ⟨true, false, false, true, false, 5, none⟩ (.hex false) 10 = "0xa  ".toList.map byte := by decide

/-! ## Digits -/

variable {base precision n : Nat} {upper : Bool}

/-- A number that is not zero begins with a digit that is not zero. -/
theorem head_bytes (hb : 1 < base) (hle : base ≤ 16) (hn : 0 < n) :
    ∃ d, 0 < d ∧ d < 16 ∧ (Digits.bytes base n).head? = some (Digits.byte d) := by
  induction n using Nat.strongRecOn with
  | ind n ih =>
    rw [Digits.bytes, Nat.toDigits_eq_if hb]
    split
    · next hlt => exact ⟨n, hn, hlt.trans_le hle, rfl⟩
    · next hge =>
      have hpos : 0 < n / base := Nat.div_pos (Nat.le_of_not_lt hge) (by omega)
      obtain ⟨d, hd, hd', hhead⟩ := ih (n / base) (Nat.div_lt_self hn hb) hpos
      rw [Digits.bytes] at hhead
      exact ⟨d, hd, hd', by rw [List.map_append, List.head?_append, hhead]; rfl⟩

theorem head_significant (hb : 1 < base) (hle : base ≤ 16) :
    (significant base upper n).head? ≠ some (byte '0') := by
  rw [significant]
  split
  · exact nofun
  · next hn =>
    obtain ⟨d, hd, hd', hhead⟩ := head_bytes hb hle (Nat.pos_of_ne_zero hn)
    have hdigit : Digits.byte d ≠ byte '0' ∧ upperDigit (Digits.byte d) ≠ byte '0' := by
      interval_cases d <;> decide
    split
    · rw [List.head?_map, hhead]
      exact fun h => hdigit.2 (Option.some.inj h)
    · rw [hhead]
      exact fun h => hdigit.1 (Option.some.inj h)

/-- There are enough digits already. -/
theorem digits_of_le (h : precision ≤ (significant base upper n).length) :
    digits base upper precision n = significant base upper n := by
  rw [digits, Nat.sub_eq_zero_of_le h, List.replicate_zero, List.nil_append]

/-- One digit more is a zero. -/
theorem digits_succ : digits base upper ((digits base upper precision n).length + 1) n
    = byte '0' :: digits base upper precision n := by
  rw [digits, digits, List.length_append, List.length_replicate,
    show precision - (significant base upper n).length + (significant base upper n).length + 1
      - (significant base upper n).length = precision - (significant base upper n).length + 1 by omega,
    List.replicate_succ, List.cons_append]

/-! ## Fields -/

/-- A zero before the digits may as well be one of them. -/
theorem field_zero (spec : Spec) (ds : List UInt8) :
    field spec [byte '0'] ds = field spec [] (byte '0' :: ds) := by
  rw [field, field]
  split
  · rfl
  split
  · rw [List.singleton_append, List.singleton_append, List.nil_append, List.nil_append, List.cons_append,
      ← List.cons_append, ← List.replicate_succ, List.replicate_succ', List.append_assoc, List.singleton_append]
  · simp

end Printf
