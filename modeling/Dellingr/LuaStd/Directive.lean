import Dellingr.LuaStd.StringFormat

/-!
# The directives of a format

A directive of `string.format` is `%`, flags, a width, a precision and the byte of a conversion. It is read
with a limit on its length (`parseDirective`), and checked against its conversion (`validateDirective`).

* `Spelling` is a directive as it is written: its flags, the digits of its width and of its precision, and its
  conversion. Zeros before a width are flags.
* `parseDirective` accepts a text exactly where a spelling within the limit begins it, consumes that spelling
  and reads the directive off it (`parseDirective_eq_ok_iff`).
-/

namespace Dellingr.StringFormat

open Patterns (ascii isAsciiDigit)

/-- The limit of the length of a directive. -/
def MAX_FORMAT_LEN : Nat := 22

/-- The limit of the digits of a width or a precision. -/
def MAX_FORMAT_FIELD_DIGITS : Nat := 2

structure FormatFlags where
  left : Bool
  plus : Bool
  space : Bool
  alternate : Bool
  zero : Bool
  deriving DecidableEq, Repr

inductive FloatKind
  | scientificLower | scientificUpper | fixed | generalLower | generalUpper | hexFloatLower | hexFloatUpper
  deriving DecidableEq, Repr

inductive Conversion
  | char | signedDecimal | unsignedDecimal | octal | hexLower | hexUpper
  | float (kind : FloatKind)
  | string | quoted | pointer
  deriving DecidableEq, Repr

structure Directive where
  raw : List UInt8
  flags : FormatFlags
  width : Option Nat
  precision : Option Nat
  conversion : Conversion
  hasModifiers : Bool
  widthDigits : Nat
  precisionDigits : Nat
  deriving DecidableEq, Repr

inductive DirectiveError
  | formatDirectiveTooLong
  | invalidFormatConversion (directive : List UInt8)
  | quotedFormatHasModifiers
  | invalidFormatSpecification (directive : List UInt8)
  deriving DecidableEq, Repr

/-! ## Reading -/

def FormatFlags.default : FormatFlags := ⟨false, false, false, false, false⟩

/-- The flags with that of a byte, if it is that of a flag. -/
def FormatFlags.recognize (flags : FormatFlags) (byte : UInt8) : Option FormatFlags :=
  if byte = ascii '-' then some { flags with left := true }
  else if byte = ascii '+' then some { flags with plus := true }
  else if byte = ascii ' ' then some { flags with space := true }
  else if byte = ascii '#' then some { flags with alternate := true }
  else if byte = ascii '0' then some { flags with zero := true }
  else none

/-- Fail if a directive is too long up to a cursor, counted from its `%`. -/
def checkDirectiveLength (cursor : Nat) : Except DirectiveError Unit :=
  if MAX_FORMAT_LEN < cursor then .error .formatDirectiveTooLong else .ok ()

/-- Read the flags of the bytes at a cursor. -/
def parseFlags : List UInt8 → Nat → FormatFlags → Except DirectiveError (FormatFlags × Nat)
  | [], cursor, flags => .ok (flags, cursor)
  | byte :: rest, cursor, flags =>
    match flags.recognize byte with
    | none => .ok (flags, cursor)
    | some flags => do
      checkDirectiveLength (cursor + 1)
      parseFlags rest (cursor + 1) flags

/-- Skip the digits of the bytes at a cursor. -/
def skipDigits : List UInt8 → Nat → Except DirectiveError Nat
  | [], cursor => .ok cursor
  | byte :: rest, cursor =>
    if isAsciiDigit byte then do
      checkDirectiveLength (cursor + 1)
      skipDigits rest (cursor + 1)
    else .ok cursor

/-- The number of a field, in the arithmetic of `u8` that saturates. -/
def parseDecimalField (bytes : List UInt8) : Option Nat :=
  if bytes.isEmpty then none
  else some (bytes.foldl (fun value byte => min (min (value * 10) 255 + (byte - ascii '0').toNat) 255) 0)

def classifyConversion (byte : UInt8) : Option Conversion :=
  if byte = ascii 'c' then some .char
  else if byte = ascii 'd' ∨ byte = ascii 'i' then some .signedDecimal
  else if byte = ascii 'u' then some .unsignedDecimal
  else if byte = ascii 'o' then some .octal
  else if byte = ascii 'x' then some .hexLower
  else if byte = ascii 'X' then some .hexUpper
  else if byte = ascii 'e' then some (.float .scientificLower)
  else if byte = ascii 'E' then some (.float .scientificUpper)
  else if byte = ascii 'f' then some (.float .fixed)
  else if byte = ascii 'g' then some (.float .generalLower)
  else if byte = ascii 'G' then some (.float .generalUpper)
  else if byte = ascii 'a' then some (.float .hexFloatLower)
  else if byte = ascii 'A' then some (.float .hexFloatUpper)
  else if byte = ascii 's' then some .string
  else if byte = ascii 'q' then some .quoted
  else if byte = ascii 'p' then some .pointer
  else none

/-- Read the precision at a cursor: its number, how many digits it has, and the cursor after it. -/
def parsePrecision (text : List UInt8) (cursor : Nat) : Except DirectiveError (Option Nat × Nat × Nat) :=
  if text[cursor]? = some (ascii '.') then do
    checkDirectiveLength (cursor + 1)
    let stop ← skipDigits (text.drop (cursor + 1)) (cursor + 1)
    let digits := (text.take stop).drop (cursor + 1)
    return (some ((parseDecimalField digits).getD 0), stop - (cursor + 1), stop)
  else .ok (none, 0, cursor)

/-- Read the directive that a text from a `%` on begins with, and where it ends. -/
def parseDirective (text : List UInt8) : Except DirectiveError (Directive × Nat) := do
  let (flags, widthStart) ← parseFlags (text.drop 1) 1 .default
  let cursor ← skipDigits (text.drop widthStart) widthStart
  let width := parseDecimalField ((text.take cursor).drop widthStart)
  let (precision, precisionDigits, stop) ← parsePrecision text cursor
  let conversionByte := text[stop]?.getD (ascii '%')
  let stop := if stop < text.length then stop + 1 else stop
  checkDirectiveLength stop
  let raw := text.take stop
  match classifyConversion conversionByte with
  | none => .error (.invalidFormatConversion raw)
  | some conversion =>
    .ok ({ raw, flags, width, precision, conversion, hasModifiers := 2 < raw.length,
           widthDigits := cursor - widthStart, precisionDigits }, stop)

/-- Whether a conversion admits flags. -/
def flagsValid (flags : FormatFlags) : Conversion → Bool
  | .float _ | .quoted => true
  | .signedDecimal => !flags.alternate
  | .unsignedDecimal => !flags.plus && !flags.space && !flags.alternate
  | .octal | .hexLower | .hexUpper => !flags.plus && !flags.space
  | .char | .pointer | .string => !flags.plus && !flags.space && !flags.alternate && !flags.zero

/-- Whether a conversion admits a precision. -/
def precisionValid : Conversion → Bool
  | .char | .pointer | .quoted => false
  | _ => true

def validateDirective (directive : Directive) : Except DirectiveError Unit :=
  if directive.conversion = .quoted ∧ directive.hasModifiers = true then .error .quotedFormatHasModifiers
  else if flagsValid directive.flags directive.conversion = false ∨
      (precisionValid directive.conversion = false ∧ directive.precision.isSome = true) ∨
      MAX_FORMAT_FIELD_DIGITS < directive.widthDigits ∨ MAX_FORMAT_FIELD_DIGITS < directive.precisionDigits then
    .error (.invalidFormatSpecification directive.raw)
  else .ok ()

/-! ## Spellings -/

/-- The bytes that are flags. -/
def flagBytes : List UInt8 := "-+ #0".toList.map ascii

/-- The flags that bytes set. -/
def FormatFlags.ofBytes (bytes : List UInt8) : FormatFlags :=
  ⟨bytes.contains (ascii '-'), bytes.contains (ascii '+'), bytes.contains (ascii ' '),
    bytes.contains (ascii '#'), bytes.contains (ascii '0')⟩

/-- A directive as it is written. -/
structure Spelling where
  flags : List UInt8
  width : List UInt8
  precision : Option (List UInt8)
  letter : UInt8
  conversion : Conversion
  flags_mem : ∀ byte ∈ flags, byte ∈ flagBytes
  width_digits : ∀ byte ∈ width, isAsciiDigit byte = true
  /-- A zero before the width is a flag. -/
  width_head : width.head? ≠ some (ascii '0')
  precision_digits : ∀ digits ∈ precision, ∀ byte ∈ digits, isAsciiDigit byte = true
  classified : classifyConversion letter = some conversion

namespace Spelling

/-- The point and the digits of the precision. -/
def precisionText (s : Spelling) : List UInt8 := s.precision.elim [] (ascii '.' :: ·)

/-- The text of a directive. -/
def text (s : Spelling) : List UInt8 :=
  ascii '%' :: (s.flags ++ (s.width ++ (s.precisionText ++ [s.letter])))

/-- The directive that a text spells. -/
def directive (s : Spelling) : Directive where
  raw := s.text
  flags := .ofBytes s.flags
  width := parseDecimalField s.width
  precision := s.precision.map fun digits => (parseDecimalField digits).getD 0
  conversion := s.conversion
  hasModifiers := 2 < s.text.length
  widthDigits := s.width.length
  precisionDigits := (s.precision.getD []).length

end Spelling

/-! ## Reading a spelling -/

variable {text rest tail fs ws : List UInt8} {flags : FormatFlags} {byte : UInt8} {cursor : Nat}

/-- The flags that one or the other sets. -/
def FormatFlags.union (a b : FormatFlags) : FormatFlags :=
  ⟨a.left || b.left, a.plus || b.plus, a.space || b.space, a.alternate || b.alternate, a.zero || b.zero⟩

theorem FormatFlags.union_nil (flags : FormatFlags) : flags.union (.ofBytes []) = flags := by
  simp [union, ofBytes]

theorem FormatFlags.default_union (bytes : List UInt8) : FormatFlags.default.union (.ofBytes bytes) = .ofBytes bytes := by
  simp [union, default, ofBytes]

theorem FormatFlags.union_cons (flags : FormatFlags) (byte : UInt8) (bytes : List UInt8) :
    (flags.union (.ofBytes [byte])).union (.ofBytes bytes) = flags.union (.ofBytes (byte :: bytes)) := by
  simp only [union, ofBytes, List.contains_cons, List.contains_nil, Bool.or_false, Bool.or_assoc]

theorem recognize_of_mem (flags : FormatFlags) (h : byte ∈ flagBytes) :
    flags.recognize byte = some (flags.union (.ofBytes [byte])) := by
  have hcases : byte = ascii '-' ∨ byte = ascii '+' ∨ byte = ascii ' ' ∨ byte = ascii '#' ∨ byte = ascii '0' := by
    simpa [flagBytes] using h
  obtain ⟨left, plus, space, alternate, zero⟩ := flags
  rcases hcases with rfl | rfl | rfl | rfl | rfl <;>
    simp +decide [FormatFlags.recognize, FormatFlags.union, FormatFlags.ofBytes]

theorem recognize_of_not_mem (flags : FormatFlags) (h : byte ∉ flagBytes) : flags.recognize byte = none := by
  simp only [flagBytes, List.mem_map, not_exists, not_and] at h
  have hne : ∀ c ∈ "-+ #0".toList, byte ≠ ascii c := fun c hc heq => h c hc heq.symm
  rw [FormatFlags.recognize, if_neg (hne '-' (by decide)), if_neg (hne '+' (by decide)),
    if_neg (hne ' ' (by decide)), if_neg (hne '#' (by decide)), if_neg (hne '0' (by decide))]

/-- The flags are read up to the first byte that is none. -/
theorem parseFlags_append (hfs : ∀ byte ∈ fs, byte ∈ flagBytes) (htail : ∀ byte ∈ tail.head?, byte ∉ flagBytes)
    (hcursor : cursor ≤ MAX_FORMAT_LEN) :
    parseFlags (fs ++ tail) cursor flags
      = if cursor + fs.length ≤ MAX_FORMAT_LEN then .ok (flags.union (.ofBytes fs), cursor + fs.length)
        else .error .formatDirectiveTooLong := by
  induction fs generalizing cursor flags with
  | nil =>
    rw [List.nil_append, List.length_nil, Nat.add_zero, if_pos hcursor, FormatFlags.union_nil]
    cases tail with
    | nil => rfl
    | cons byte tail => rw [parseFlags, recognize_of_not_mem flags (htail byte rfl)]
  | cons byte fs ih =>
    rw [List.cons_append, parseFlags, recognize_of_mem flags (hfs byte List.mem_cons_self)]
    simp only [checkDirectiveLength]
    by_cases hlen : MAX_FORMAT_LEN < cursor + 1
    · rw [if_pos hlen, List.length_cons, if_neg (by omega)]
      rfl
    · rw [if_neg hlen]
      refine (ih (fun b hb => hfs b (List.mem_cons_of_mem _ hb)) (by omega)).trans ?_
      rw [FormatFlags.union_cons, List.length_cons, Nat.add_assoc, Nat.add_comm 1]

/-- The digits are skipped up to the first byte that is none. -/
theorem skipDigits_append (hws : ∀ byte ∈ ws, isAsciiDigit byte = true)
    (htail : ∀ byte ∈ tail.head?, isAsciiDigit byte = false) (hcursor : cursor ≤ MAX_FORMAT_LEN) :
    skipDigits (ws ++ tail) cursor
      = if cursor + ws.length ≤ MAX_FORMAT_LEN then .ok (cursor + ws.length)
        else .error .formatDirectiveTooLong := by
  induction ws generalizing cursor with
  | nil =>
    rw [List.nil_append, List.length_nil, Nat.add_zero, if_pos hcursor]
    cases tail with
    | nil => rfl
    | cons byte tail => rw [skipDigits, htail byte rfl, if_neg Bool.false_ne_true]
  | cons byte ws ih =>
    rw [List.cons_append, skipDigits, if_pos (hws byte List.mem_cons_self)]
    simp only [checkDirectiveLength]
    by_cases hlen : MAX_FORMAT_LEN < cursor + 1
    · rw [if_pos hlen, List.length_cons, if_neg (by omega)]
      rfl
    · rw [if_neg hlen]
      refine (ih (fun b hb => hws b (List.mem_cons_of_mem _ hb)) (by omega)).trans ?_
      rw [List.length_cons, Nat.add_assoc, Nat.add_comm 1]

/-- The bytes between two cursors. -/
theorem slice_append {n k : Nat} {a b c : List UInt8} (hn : a.length = n) (hk : n + b.length = k) :
    ((a ++ (b ++ c)).take k).drop n = b := by
  rw [List.drop_take, List.drop_left' hn, List.take_left' (by omega)]

/-- A precision is read if there is one. -/
theorem parsePrecision_append {before : List UInt8} {precision : Option (List UInt8)}
    (hdigits : ∀ digits ∈ precision, ∀ byte ∈ digits, isAsciiDigit byte = true)
    (hnone : precision = none → tail.head? ≠ some (ascii '.'))
    (htail : ∀ byte ∈ tail.head?, isAsciiDigit byte = false) (hlen : before.length ≤ MAX_FORMAT_LEN) :
    parsePrecision (before ++ (precision.elim [] (ascii '.' :: ·) ++ tail)) before.length
      = if before.length + (precision.elim [] (ascii '.' :: ·)).length ≤ MAX_FORMAT_LEN then
          .ok (precision.map fun digits => (parseDecimalField digits).getD 0, (precision.getD []).length,
            before.length + (precision.elim [] (ascii '.' :: ·)).length)
        else .error .formatDirectiveTooLong := by
  cases precision with
  | none =>
    have hhead : (before ++ ([] ++ tail))[before.length]? ≠ some (ascii '.') := by
      rw [List.getElem?_append_right (Nat.le_refl _), Nat.sub_self, List.nil_append, ← List.head?_eq_getElem?]
      exact hnone rfl
    rw [parsePrecision, Option.elim_none, if_neg hhead, List.length_nil, Nat.add_zero, if_pos hlen]
    rfl
  | some digits =>
    have hhead : (before ++ (ascii '.' :: digits ++ tail))[before.length]? = some (ascii '.') := by
      rw [List.getElem?_append_right (Nat.le_refl _), Nat.sub_self]
      rfl
    rw [parsePrecision, Option.elim_some, if_pos hhead, List.length_cons]
    simp only [checkDirectiveLength]
    by_cases hdot : MAX_FORMAT_LEN < before.length + 1
    · rw [if_pos hdot, if_neg (by omega)]
      rfl
    · -- The digits follow the point.
      have hsplit : before ++ (ascii '.' :: digits ++ tail) = (before ++ [ascii '.']) ++ (digits ++ tail) := by
        simp
      have hpoint : (before ++ [ascii '.']).length = before.length + 1 := by simp
      have hdrop : (before ++ (ascii '.' :: digits ++ tail)).drop (before.length + 1) = digits ++ tail := by
        rw [hsplit, List.drop_left' hpoint]
      have hfield : ((before ++ (ascii '.' :: digits ++ tail)).take (before.length + 1 + digits.length)).drop
          (before.length + 1) = digits := by
        rw [hsplit, slice_append hpoint rfl]
      have hskip := skipDigits_append (hdigits digits rfl) htail (Nat.le_of_not_lt hdot)
      rw [if_neg hdot, hdrop]
      show (skipDigits (digits ++ tail) (before.length + 1) >>= _) = _
      rw [hskip]
      by_cases hfit : before.length + 1 + digits.length ≤ MAX_FORMAT_LEN
      · rw [if_pos hfit, if_pos (by omega)]
        show Except.ok _ = _
        rw [hfield, Nat.add_sub_cancel_left, Nat.add_assoc, Nat.add_comm 1]
        rfl
      · rw [if_neg hfit, if_neg (by omega)]
        rfl

/-- Neither a width nor a precision begins with a flag. -/
theorem not_flag_of_digit (hdigit : isAsciiDigit byte = true) (hzero : byte ≠ ascii '0') : byte ∉ flagBytes := by
  intro hmem
  have hcases : byte = ascii '-' ∨ byte = ascii '+' ∨ byte = ascii ' ' ∨ byte = ascii '#' ∨ byte = ascii '0' := by
    simpa [flagBytes] using hmem
  rcases hcases with rfl | rfl | rfl | rfl | rfl
  · cases hdigit
  · cases hdigit
  · cases hdigit
  · cases hdigit
  · exact hzero rfl

/-- The text up to the conversion is read as it is written. What comes after decides the rest. -/
theorem parseDirective_append {precision : Option (List UInt8)}
    (hfs : ∀ byte ∈ fs, byte ∈ flagBytes)
    (hws : ∀ byte ∈ ws, isAsciiDigit byte = true) (hwidth : ws.head? ≠ some (ascii '0'))
    (hdigits : ∀ digits ∈ precision, ∀ byte ∈ digits, isAsciiDigit byte = true)
    (hflag : ws = [] → precision = none → ∀ byte ∈ tail.head?, byte ∉ flagBytes)
    (hdigit : ∀ byte ∈ tail.head?, isAsciiDigit byte = false)
    (hpoint : precision = none → tail.head? ≠ some (ascii '.')) :
    parseDirective (ascii '%' :: (fs ++ (ws ++ (precision.elim [] (ascii '.' :: ·) ++ tail))))
      = let before := ascii '%' :: (fs ++ (ws ++ precision.elim [] (ascii '.' :: ·)))
        if MAX_FORMAT_LEN < before.length + (tail.take 1).length then .error .formatDirectiveTooLong
        else
          match classifyConversion (tail.head?.getD (ascii '%')) with
          | none => .error (.invalidFormatConversion (before ++ tail.take 1))
          | some conversion =>
            .ok ({ raw := before ++ tail.take 1, flags := .ofBytes fs, width := parseDecimalField ws,
                   precision := precision.map fun digits => (parseDecimalField digits).getD 0, conversion,
                   hasModifiers := 2 < (before ++ tail.take 1).length, widthDigits := ws.length,
                   precisionDigits := (precision.getD []).length }, before.length + (tail.take 1).length) := by
  generalize hP : precision.elim [] (ascii '.' :: ·) = P
  have hpoint' : ∀ byte ∈ (P ++ tail).head?, (ws = [] → byte ∉ flagBytes) ∧ isAsciiDigit byte = false := by
    cases precision with
    | none =>
      obtain rfl : [] = P := hP
      exact fun byte hb => ⟨fun hnil => hflag hnil rfl byte hb, hdigit byte hb⟩
    | some digits =>
      obtain rfl : ascii '.' :: digits = P := hP
      rintro byte ⟨⟩
      exact ⟨fun _ => by decide, rfl⟩
  have hafter : ∀ byte ∈ (ws ++ (P ++ tail)).head?, byte ∉ flagBytes := by
    cases ws with
    | nil => exact fun byte hb => (hpoint' byte hb).1 rfl
    | cons digit ws =>
      rintro byte ⟨⟩
      exact not_flag_of_digit (hws _ List.mem_cons_self) fun h => hwidth (congrArg some h)
  have hflags := @parseFlags_append (ws ++ (P ++ tail)) fs .default 1 hfs hafter (by decide)
  rw [FormatFlags.default_union] at hflags
  have hlength : (ascii '%' :: fs).length = 1 + fs.length := Nat.add_comm _ _
  have hdrop : (ascii '%' :: (fs ++ (ws ++ (P ++ tail)))).drop (1 + fs.length) = ws ++ (P ++ tail) :=
    List.drop_left' hlength
  have hfield : ((ascii '%' :: (fs ++ (ws ++ (P ++ tail)))).take (1 + fs.length + ws.length)).drop
      (1 + fs.length) = ws := slice_append hlength rfl
  have hbefore : (ascii '%' :: (fs ++ ws)).length = 1 + fs.length + ws.length := by
    rw [List.length_cons, List.length_append]
    omega
  have htext : ascii '%' :: (fs ++ (ws ++ (P ++ tail))) = (ascii '%' :: (fs ++ ws)) ++ (P ++ tail) := by simp
  have htext' : ascii '%' :: (fs ++ (ws ++ (P ++ tail))) = (ascii '%' :: (fs ++ (ws ++ P))) ++ tail := by simp
  have hend : (ascii '%' :: (fs ++ (ws ++ P))).length = 1 + fs.length + ws.length + P.length := by
    simp only [List.length_cons, List.length_append]
    omega
  rw [parseDirective]
  show (parseFlags (fs ++ (ws ++ (P ++ tail))) 1 .default >>= _) = _
  rw [hflags]
  by_cases hfs' : 1 + fs.length ≤ MAX_FORMAT_LEN
  swap
  · rw [if_neg hfs', if_pos (by omega)]
    rfl
  rw [if_pos hfs']
  show (skipDigits ((ascii '%' :: (fs ++ (ws ++ (P ++ tail)))).drop (1 + fs.length)) (1 + fs.length) >>= _) = _
  rw [hdrop, skipDigits_append hws (fun byte hb => (hpoint' byte hb).2) hfs']
  by_cases hws' : 1 + fs.length + ws.length ≤ MAX_FORMAT_LEN
  swap
  · rw [if_neg hws', if_pos (by omega)]
    rfl
  rw [if_pos hws']
  show (parsePrecision (ascii '%' :: (fs ++ (ws ++ (P ++ tail)))) (1 + fs.length + ws.length) >>= _) = _
  have hprecision := @parsePrecision_append tail (ascii '%' :: (fs ++ ws)) precision hdigits hpoint hdigit
    (hbefore ▸ hws')
  rw [hP, ← htext, hbefore] at hprecision
  rw [hprecision]
  by_cases hP' : 1 + fs.length + ws.length + P.length ≤ MAX_FORMAT_LEN
  swap
  · rw [if_neg hP', if_pos (by omega)]
    rfl
  rw [if_pos hP']
  -- What is left decides the conversion.
  have hget : (ascii '%' :: (fs ++ (ws ++ (P ++ tail))))[1 + fs.length + ws.length + P.length]? = tail.head? := by
    rw [htext', List.getElem?_append_right (by omega), hend, Nat.sub_self, List.head?_eq_getElem?]
  have hstop : (if 1 + fs.length + ws.length + P.length < (ascii '%' :: (fs ++ (ws ++ (P ++ tail)))).length
      then 1 + fs.length + ws.length + P.length + 1 else 1 + fs.length + ws.length + P.length)
        = 1 + fs.length + ws.length + P.length + (tail.take 1).length := by
    rw [htext', List.length_append, hend]
    cases tail with
    | nil => exact if_neg (Nat.lt_irrefl _)
    | cons byte tail => exact if_pos (by rw [List.length_cons]; omega)
  have hraw : (ascii '%' :: (fs ++ (ws ++ (P ++ tail)))).take
      (1 + fs.length + ws.length + P.length + (tail.take 1).length)
        = (ascii '%' :: (fs ++ (ws ++ P))) ++ tail.take 1 := by
    rw [htext', ← hend, List.take_length_add_append]
    cases tail <;> rfl
  simp only [bind, Except.bind, hget, hstop, hraw, hfield, checkDirectiveLength, Nat.add_sub_cancel_left, hend]
  by_cases hlong : MAX_FORMAT_LEN < 1 + fs.length + ws.length + P.length + (tail.take 1).length
  · simp only [if_pos hlong]
  · simp only [if_neg hlong]

theorem not_mem_of_classified {letter : UInt8} {conversion : Conversion}
    (h : classifyConversion letter = some conversion) :
    letter ∉ flagBytes ∧ isAsciiDigit letter = false ∧ letter ≠ ascii '.' := by
  have hletter : letter ∈ "cdiuoxXeEfgGaAsqp".toList.map ascii := by
    by_contra hmem
    have hne : ∀ c ∈ "cdiuoxXeEfgGaAsqp".toList, letter ≠ ascii c := fun c hc heq =>
      hmem (heq ▸ List.mem_map_of_mem hc)
    simp only [classifyConversion, hne 'c' (by decide), hne 'd' (by decide), hne 'i' (by decide),
      hne 'u' (by decide), hne 'o' (by decide), hne 'x' (by decide), hne 'X' (by decide), hne 'e' (by decide),
      hne 'E' (by decide), hne 'f' (by decide), hne 'g' (by decide), hne 'G' (by decide), hne 'a' (by decide),
      hne 'A' (by decide), hne 's' (by decide), hne 'q' (by decide), hne 'p' (by decide), or_self, if_false] at h
    cases h
  revert hletter
  exact (show ∀ letter ∈ "cdiuoxXeEfgGaAsqp".toList.map ascii,
    letter ∉ flagBytes ∧ isAsciiDigit letter = false ∧ letter ≠ ascii '.' by decide +kernel) letter

/-- Every text is flags, a width, a precision and what comes after them, each as long as it can be. -/
theorem exists_parts (text : List UInt8) : ∃ fs ws tail, ∃ precision : Option (List UInt8),
    text = fs ++ (ws ++ (precision.elim [] (ascii '.' :: ·) ++ tail)) ∧
    (∀ byte ∈ fs, byte ∈ flagBytes) ∧ (∀ byte ∈ ws, isAsciiDigit byte = true) ∧ ws.head? ≠ some (ascii '0') ∧
    (∀ digits ∈ precision, ∀ byte ∈ digits, isAsciiDigit byte = true) ∧
    (ws = [] → precision = none → ∀ byte ∈ tail.head?, byte ∉ flagBytes) ∧
    (∀ byte ∈ tail.head?, isAsciiDigit byte = false) ∧ (precision = none → tail.head? ≠ some (ascii '.')) := by
  have hsplit : ∀ (p : UInt8 → Bool) (text : List UInt8), ∃ front back, text = front ++ back ∧
      (∀ byte ∈ front, p byte = true) ∧ ∀ byte ∈ back.head?, p byte = false := by
    intro p text
    refine ⟨text.takeWhile p, text.dropWhile p, List.takeWhile_append_dropWhile.symm,
      fun byte hb => List.mem_takeWhile_imp hb, fun byte hb => ?_⟩
    have := List.head?_dropWhile_not p text
    rw [Option.mem_def.1 hb] at this
    exact this
  obtain ⟨fs, rest, rfl, hfs, hrest⟩ := hsplit (fun byte => flagBytes.contains byte) text
  obtain ⟨ws, rest, rfl, hws, hrest'⟩ := hsplit isAsciiDigit rest
  have hfs' : ∀ byte ∈ fs, byte ∈ flagBytes := fun byte hb => List.contains_iff_mem.1 (hfs byte hb)
  have hflag : ∀ byte ∈ (ws ++ rest).head?, byte ∉ flagBytes := fun byte hb hmem =>
    absurd (List.contains_iff_mem.2 hmem) (by rw [hrest byte hb]; exact Bool.false_ne_true)
  have hhead : ws.head? ≠ some (ascii '0') := by
    cases ws with
    | nil => exact nofun
    | cons digit ws =>
      rintro h
      obtain rfl : digit = ascii '0' := Option.some.inj h
      exact hflag _ rfl (by decide)
  by_cases hdot : rest.head? = some (ascii '.')
  · obtain ⟨rest, rfl⟩ := List.head?_eq_some_iff.1 hdot
    obtain ⟨digits, tail, rfl, hdigits, htail⟩ := hsplit isAsciiDigit rest
    exact ⟨fs, ws, tail, some digits, rfl, hfs', hws, hhead, by rintro _ ⟨⟩; exact hdigits, fun _ => nofun,
      htail, nofun⟩
  · exact ⟨fs, ws, rest, none, rfl, hfs', hws, hhead, nofun, fun hnil _ => by subst hnil; exact hflag, hrest',
      fun _ => hdot⟩

/-- **Directives.** A directive is read exactly where a spelling within the limit begins the text, and then it
    is the directive spelled, and ends where the spelling does. -/
theorem parseDirective_eq_ok_iff {d : Directive} {stop : Nat} :
    parseDirective (ascii '%' :: rest) = .ok (d, stop) ↔
      ∃ s : Spelling, s.text <+: ascii '%' :: rest ∧ s.text.length ≤ MAX_FORMAT_LEN ∧
        d = s.directive ∧ stop = s.text.length := by
  constructor
  · intro h
    obtain ⟨fs, ws, tail, precision, rfl, hfs, hws, hhead, hdigits, hflag, hdigit, hpoint⟩ := exists_parts rest
    rw [parseDirective_append hfs hws hhead hdigits hflag hdigit hpoint] at h
    simp only at h
    split at h
    · cases h
    · rename_i hlen
      cases tail with
      | nil =>
        have hnone : classifyConversion (([] : List UInt8).head?.getD (ascii '%')) = none := by decide
        simp only [hnone] at h
        cases h
      | cons letter tail =>
        simp only [List.head?_cons, Option.getD_some, List.take_succ_cons, List.take_zero] at h hlen
        split at h
        · cases h
        · rename_i conversion hclass
          obtain ⟨rfl, rfl⟩ := Prod.mk.inj (Except.ok.inj h)
          let s : Spelling := ⟨fs, ws, precision, letter, conversion, hfs, hws, hhead, hdigits, hclass⟩
          have htext : ascii '%' :: (fs ++ (ws ++ precision.elim [] (ascii '.' :: ·))) ++ [letter] = s.text := by
            simp [s, Spelling.text, Spelling.precisionText]
          have hlength : s.text.length
              = (ascii '%' :: (fs ++ (ws ++ precision.elim [] (ascii '.' :: ·)))).length + 1 := by
            rw [← htext, List.length_append, List.length_singleton]
          refine ⟨s, ⟨tail, ?_⟩, ?_, ?_, hlength.symm⟩
          · rw [← htext]
            simp
          · rw [hlength]
            exact Nat.le_of_not_lt hlen
          · simp only [htext]
            rfl
  · rintro ⟨s, ⟨tail, htext⟩, hlen, rfl, rfl⟩
    obtain ⟨hflag, hdigit, hpoint⟩ := not_mem_of_classified s.classified
    have hrest : ascii '%' :: rest = ascii '%' ::
        (s.flags ++ (s.width ++ (s.precision.elim [] (ascii '.' :: ·) ++ s.letter :: tail))) := by
      rw [← htext]
      simp [Spelling.text, Spelling.precisionText]
    have hbefore : ascii '%' :: (s.flags ++ (s.width ++ s.precision.elim [] (ascii '.' :: ·))) ++ [s.letter]
        = s.text := by
      simp [Spelling.text, Spelling.precisionText]
    have hread := @parseDirective_append (s.letter :: tail) s.flags s.width s.precision s.flags_mem
      s.width_digits s.width_head s.precision_digits (by rintro _ _ byte ⟨⟩; exact hflag)
      (by rintro byte ⟨⟩; exact hdigit) fun _ h => hpoint (Option.some.inj h)
    have hlength : (ascii '%' :: (s.flags ++ (s.width ++ s.precision.elim [] (ascii '.' :: ·)))).length + 1
        = s.text.length := by
      rw [← hbefore]
      simp [Nat.add_assoc]
    rw [hrest, hread]
    simp only [List.take_succ_cons, List.take_zero, List.length_singleton, hlength, List.head?_cons,
      Option.getD_some, s.classified, hbefore, if_neg (Nat.not_lt.2 hlen)]
    rfl

/-- The form of a directive, `% flags* width? (. precision?)? conversion`, with zeros before the width as part
    of it or as flags. -/
def HasForm (text : List UInt8) : Prop :=
  ∃ flags width letter, ∃ precision : Option (List UInt8),
    text = ascii '%' :: (flags ++ (width ++ (precision.elim [] (ascii '.' :: ·) ++ [letter]))) ∧
    (∀ byte ∈ flags, byte ∈ flagBytes) ∧ (∀ byte ∈ width, isAsciiDigit byte = true) ∧
    (∀ digits ∈ precision, ∀ byte ∈ digits, isAsciiDigit byte = true) ∧
    (classifyConversion letter).isSome = true

/-- The texts of the form are those that are spelled. -/
theorem hasForm_iff : HasForm text ↔ ∃ s : Spelling, s.text = text := by
  constructor
  · rintro ⟨flags, width, letter, precision, rfl, hflags, hwidth, hprecision, hletter⟩
    obtain ⟨conversion, hclass⟩ := Option.isSome_iff_exists.1 hletter
    -- The zeros before the width are flags of the spelling.
    let isZero := fun byte => byte == ascii '0'
    have hzeros : ∀ byte ∈ width.takeWhile isZero, byte ∈ flagBytes := fun byte hb => by
      obtain rfl : byte = ascii '0' := by simpa [isZero] using List.mem_takeWhile_imp hb
      decide
    have hhead : (width.dropWhile isZero).head? ≠ some (ascii '0') := fun h => by
      have := List.head?_dropWhile_not isZero width
      rw [h] at this
      simp [isZero] at this
    refine ⟨⟨flags ++ width.takeWhile isZero, width.dropWhile isZero, precision, letter, conversion, ?_, ?_,
      hhead, hprecision, hclass⟩, ?_⟩
    · intro byte hb
      rcases List.mem_append.1 hb with hb | hb
      · exact hflags byte hb
      · exact hzeros byte hb
    · exact fun byte hb => hwidth byte ((List.dropWhile_sublist _).subset hb)
    · simp only [Spelling.text, Spelling.precisionText, List.append_assoc]
      rw [← List.append_assoc (width.takeWhile isZero), List.takeWhile_append_dropWhile]
  · rintro ⟨s, rfl⟩
    exact ⟨s.flags, s.width, s.letter, s.precision, rfl, s.flags_mem, s.width_digits, s.precision_digits,
      by rw [s.classified]; rfl⟩

end Dellingr.StringFormat
