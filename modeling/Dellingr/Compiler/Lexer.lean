import Dellingr.Numeral

/-!
# The lexer

The lexer walks over the bytes of the source and returns one token at a time (`nextToken`),
with the value of a literal. It keeps the position of the next byte and where each line starts;
a line feed and a carriage return next to each other, in either order, are one line break.

A short string is decoded while it is read (`lexString`). The lexer goes on byte by byte, also
through the digits of an escape that has been decoded already, and copies a byte only from
`decodedUntil` on. The first malformed escape becomes the value of the literal, and is an
error only for a parser that asks for the value.

Every loop consumes a byte in each round. It is given the number of bytes that are left, and
where that is zero its answer is the one at the end of the source.
-/

namespace Dellingr

open Patterns (ascii isAsciiDigit isAsciiHexdigit isLuaWhitespace isAsciiAlphanumeric
  isAsciiAlphabetic)
open Numeral (FloatOps hexValue isNewlinePair parseLuaNumeral)

/-! ## Tokens -/

inductive TokenKind
  | kwAnd | kwBreak | kwDo | kwElse | kwElseIf | kwEnd | kwFalse | kwFor | kwFunction | kwGoto | kwIf
  | kwIn | kwLocal | kwNil | kwNot | kwOr | kwRepeat | kwReturn | kwThen | kwTrue | kwUntil | kwWhile
  | plus | minus | star | slash | mod | caret | hash
  | equal | notEqual | lessEqual | greaterEqual | less | greater
  | lParen | rParen | lCurly | rCurly | lSquare | rSquare
  | semi | colon | comma | dot | dotDot | dotDotDot | assign
  | identifier | literalNumber | literalString | endOfFile
  deriving DecidableEq, Repr

/-- The keywords with their spellings. -/
def KEYWORDS : List (String × TokenKind) :=
  [("and", .kwAnd), ("break", .kwBreak), ("do", .kwDo), ("else", .kwElse), ("elseif", .kwElseIf),
    ("end", .kwEnd), ("false", .kwFalse), ("for", .kwFor), ("function", .kwFunction),
    ("goto", .kwGoto), ("if", .kwIf), ("in", .kwIn), ("local", .kwLocal), ("nil", .kwNil),
    ("not", .kwNot), ("or", .kwOr), ("repeat", .kwRepeat), ("return", .kwReturn),
    ("then", .kwThen), ("true", .kwTrue), ("until", .kwUntil), ("while", .kwWhile)]

/-- The keyword with a spelling, or a name. -/
def TokenKind.keywordMatch (word : List UInt8) : TokenKind :=
  match KEYWORDS.find? fun e => e.1.toList.map ascii == word with
  | some (_, kind) => kind
  | none => .identifier

structure Token where
  typ : TokenKind
  start : Nat
  len : Nat
  /-- The line it starts on, counted from one. -/
  line : Nat
  deriving DecidableEq, Repr

inductive EscapeErrorKind
  | decimalTooLarge | hexadecimalDigitExpected | invalid
  deriving DecidableEq, Repr

/-- A malformed escape, at its backslash. -/
structure EscapeError where
  kind : EscapeErrorKind
  pos : Nat
  deriving DecidableEq, Repr

/-- The value of a literal token. -/
inductive Literal
  | number (value : F64)
  | string (contents : Except EscapeError (List UInt8))
  deriving DecidableEq

def Literal.kind : Literal → TokenKind
  | number _ => .literalNumber
  | string _ => .literalString

/-- The errors of the lexer. -/
inductive SyntaxError
  | badNumber | unfinishedNumber
  | invalidCharacter (c : Char)
  | invalidByte (byte : UInt8)
  | unsupportedGoto | longStringUnsupported | unclosedString | unfinishedString
  | unfinishedLongComment
  deriving DecidableEq, Repr

/-- An error with its line and column, counted from one. -/
structure LexError where
  kind : SyntaxError
  line : Nat
  column : Nat
  deriving DecidableEq, Repr

/-! ## The cursor -/

structure Lexer where
  /-- The position of the next byte. -/
  pos : Nat
  /-- The start of each line. -/
  linebreaks : List Nat
  /-- The last byte was the first of a line break of two. -/
  newlinePairOpen : Bool
  source : List UInt8
  deriving DecidableEq, Repr

namespace Lexer

def new (source : List UInt8) : Lexer := ⟨0, [0], false, source⟩

variable (l : Lexer)

/-- The number of bytes that are left. -/
def remaining : Nat := l.source.length - l.pos

def peekChar : Option UInt8 := l.source[l.pos]?

/-- Move past a byte. A line break of two bytes is recorded at the second. -/
def advance (c : UInt8) : Lexer :=
  let l := { l with pos := l.pos + 1 }
  if c == 13 || c == 10 then
    if !l.newlinePairOpen && l.peekChar.any (isNewlinePair c) then { l with newlinePairOpen := true }
    else { l with newlinePairOpen := false, linebreaks := l.linebreaks ++ [l.pos] }
  else l

def nextChar : Option (UInt8 × Lexer) := l.peekChar.map fun c => (c, l.advance c)

/-- Move past the bytes that satisfy a predicate. -/
def skipWhile (p : UInt8 → Bool) : Nat → Lexer → Lexer
  | 0, l => l
  | fuel + 1, l =>
    match l.peekChar with
    | some c => if p c then skipWhile p fuel (l.advance c) else l
    | none => l

def consumeWhitespace : Lexer := skipWhile isLuaWhitespace l.remaining l

/-- Move past a byte if it is the expected one. -/
def tryNext (expected : UInt8) : Bool × Lexer :=
  match l.peekChar with
  | some c => if c == expected then (true, l.advance c) else (false, l)
  | none => (false, l)

/-- The line and column of a position. -/
def lineAndCol (pos : Nat) : Nat × Nat :=
  let lineIndex := (l.linebreaks.takeWhile (· ≤ pos)).length - 1
  (lineIndex + 1, pos - l.linebreaks.getD lineIndex 0 + 1)

def errorAt (kind : SyntaxError) (pos : Nat) : LexError :=
  ⟨kind, (l.lineAndCol pos).1, (l.lineAndCol pos).2⟩

/-- An error at the current position. -/
def error (kind : SyntaxError) : LexError := l.errorAt kind l.pos

/-- The token from a position to the current one. -/
def token (typ : TokenKind) (start line : Nat) : Token := ⟨typ, start, l.pos - start, line⟩

def literalToken (literal : Literal) (start line : Nat) : Token × Option Literal :=
  (l.token literal.kind start line, some literal)

def endOfFile (line : Nat) : Token := ⟨.endOfFile, l.pos, 0, line⟩

/-! ## Comments, operators and words -/

/-- Count the equals signs of a long bracket. -/
def countEquals : Nat → Lexer → Nat → Nat × Lexer
  | 0, l, level => (level, l)
  | fuel + 1, l, level =>
    match l.tryNext (ascii '=') with
    | (true, l) => countEquals fuel l (level + 1)
    | (false, l) => (level, l)

/-- Skip to the end of a long comment of a level. -/
def skipLongComment (level commentStart : Nat) : Nat → Lexer → Except LexError Lexer
  | 0, l => .error (l.errorAt .unfinishedLongComment commentStart)
  | fuel + 1, l =>
    match l.nextChar with
    | some (c, l) =>
      if c == ascii ']' then
        let (closingLevel, l) := countEquals l.remaining l 0
        match closingLevel == level, l.tryNext (ascii ']') with
        | true, (true, l) => .ok l
        | _, _ => skipLongComment level commentStart fuel l
      else skipLongComment level commentStart fuel l
    | none => .error (l.errorAt .unfinishedLongComment commentStart)

/-- Skip past the end of the line. -/
def skipLine : Nat → Lexer → Lexer
  | 0, l => l
  | fuel + 1, l =>
    match l.nextChar with
    | some (c, l) => if c == 13 || c == 10 then l else skipLine fuel l
    | none => l

/-- Skip a comment after its dashes. -/
def skipComment (commentStart : Nat) : Except LexError Lexer :=
  if l.peekChar = some (ascii '[') then
    let l := l.advance (ascii '[')
    let (level, l) := countEquals l.remaining l 0
    match l.tryNext (ascii '[') with
    | (true, l) => skipLongComment level commentStart l.remaining l
    | (false, l) => .ok (skipLine l.remaining l)
  else .ok (skipLine l.remaining l)

/-- One to three dots, the first already read. -/
def lexDots : TokenKind × Lexer :=
  match l.tryNext (ascii '.') with
  | (false, l) => (.dot, l)
  | (true, l) =>
    match l.tryNext (ascii '.') with
    | (true, l) => (.dotDotDot, l)
    | (false, l) => (.dotDot, l)

/-- An operator that may be followed by an equals sign. -/
def withEquals (paired alone : TokenKind) : TokenKind × Lexer :=
  match l.tryNext (ascii '=') with
  | (true, l) => (paired, l)
  | (false, l) => (alone, l)

def isIdentifierContinue (c : UInt8) : Bool := isAsciiAlphanumeric c || c == ascii '_'

/-- The bytes of the source from a position to the current one. -/
def sourceFrom (start : Nat) : List UInt8 := (l.source.take l.pos).drop start

/-- A name or a keyword, its first byte already read. -/
def lexWord (tokStart : Nat) : TokenKind × Lexer :=
  let l := skipWhile isIdentifierContinue l.remaining l
  (.keywordMatch (l.sourceFrom tokStart), l)

/-- The error for a byte that starts no token, after the character it starts, if any. -/
def invalidCharacter (first : UInt8) (start : Nat) : LexError :=
  if first < 128 then l.error (.invalidCharacter (Char.ofNat first.toNat))
  else
    match (ByteArray.mk (l.source.drop start |>.take 4).toArray).utf8DecodeChar? 0 with
    | some c => { l with pos := start + c.utf8Size }.error (.invalidCharacter c)
    | none => l.error (.invalidByte first)

/-! ## Strings -/

/-- The value of up to two more digits of a decimal escape, and where they end. -/
def decimalEscape (bytes : List UInt8) : Nat → Nat → Nat → Nat × Nat
  | 0, value, stop => (value, stop)
  | more + 1, value, stop =>
    match bytes[stop]? with
    | some digit =>
      if isAsciiDigit digit then
        decimalEscape bytes more (value * 10 + (digit - ascii '0').toNat) (stop + 1)
      else (value, stop)
    | none => (value, stop)

/-- A digit of a hexadecimal escape, which the closing quote is not. -/
def escapeDigit (quote : UInt8) (pos : Nat) : Option UInt8 :=
  match l.source[pos]? with
  | some byte => if byte != quote then hexValue byte else none
  | none => none

/-- The escapes that stand for one byte. -/
def simpleEscape (escaped : UInt8) : Option UInt8 :=
  match Char.ofNat escaped.toNat with
  | '\r' | '\n' | 'n' => some 10
  | 't' => some 9
  | 'r' => some 13
  | '\\' => some (ascii '\\')
  | '"' => some (ascii '"')
  | '\'' => some (ascii '\'')
  | 'a' => some 0x07
  | 'b' => some 0x08
  | 'f' => some 0x0C
  | 'v' => some 0x0B
  | _ => none

/-- Decode an escape: the bytes with the decoded one, and the position up to which the source
    has been decoded. -/
def decodeStringEscape (slashPos : Nat) (escaped quote : UInt8) (lexicalEnd : Nat)
    (decoded : List UInt8) : Except EscapeError (List UInt8 × Nat) :=
  if isAsciiDigit escaped then
    let (value, stop) := decimalEscape l.source 2 (escaped - ascii '0').toNat (slashPos + 2)
    if 255 < value then .error ⟨.decimalTooLarge, slashPos⟩
    else .ok (decoded ++ [UInt8.ofNat value], stop)
  else if escaped == ascii 'x' then
    match l.escapeDigit quote (slashPos + 2), l.escapeDigit quote (slashPos + 3) with
    | some high, some low => .ok (decoded ++ [high * 16 + low], slashPos + 4)
    | _, _ => .error ⟨.hexadecimalDigitExpected, slashPos⟩
  else if escaped == ascii 'z' then .ok (decoded, lexicalEnd)
  else
    match simpleEscape escaped with
    | some byte => .ok (decoded ++ [byte], lexicalEnd)
    | none => .error ⟨.invalid, slashPos⟩

/-- The rest of a string: what is decoded so far, the first malformed escape, and the position
    up to which the source has been decoded. -/
def lexStringLoop (quote : UInt8) : Nat → Lexer → List UInt8 → Option EscapeError → Nat →
    Except LexError (Except EscapeError (List UInt8) × Lexer)
  | 0, l, _, _, _ => .error (l.error .unfinishedString)
  | fuel + 1, l, decoded, failure, decodedUntil =>
    let charStart := l.pos
    match l.nextChar with
    | none => .error (l.error .unfinishedString)
    | some (c, l) =>
      if c == quote then
        .ok (match failure with
          | some error => .error error
          | none => .ok decoded, l)
      else if c == ascii '\\' then
        match l.nextChar with
        | none => .error (l.error .unfinishedString)
        | some (escaped, l) =>
          let l :=
            if escaped == ascii 'z' then l.consumeWhitespace
            else if (escaped == 13 || escaped == 10) && l.peekChar.any (isNewlinePair escaped) then
              (l.nextChar.map Prod.snd).getD l
            else l
          match failure with
          | some _ => lexStringLoop quote fuel l decoded failure decodedUntil
          | none =>
            match l.decodeStringEscape charStart escaped quote l.pos decoded with
            | .ok (decoded, skipUntil) => lexStringLoop quote fuel l decoded none skipUntil
            | .error error => lexStringLoop quote fuel l decoded (some error) decodedUntil
      else if c == 13 || c == 10 then .error (l.errorAt .unclosedString charStart)
      else
        let decoded := if failure.isNone && decodedUntil ≤ charStart then decoded ++ [c] else decoded
        lexStringLoop quote fuel l decoded failure decodedUntil

/-- The contents of a short string, its quote already read. -/
def lexString (quote : UInt8) : Except LexError (Except EscapeError (List UInt8) × Lexer) :=
  lexStringLoop quote (l.remaining + 1) l [] none l.pos

/-! ## Numerals -/

/-- Skip the span of a numeral with the given letters of an exponent. -/
def skipNumeral (lower upper : UInt8) : Nat → Lexer → Lexer
  | 0, l => l
  | fuel + 1, l =>
    match l.peekChar with
    | none => l
    | some c =>
      if c == lower || c == upper then
        let l := l.advance c
        let (plus, l) := l.tryNext (ascii '+')
        let l := if plus then l else (l.tryNext (ascii '-')).2
        skipNumeral lower upper fuel l
      else if c == ascii '.' || (hexValue c).isSome then skipNumeral lower upper fuel (l.advance c)
      else l

/-- A mantissa with a digit and at most one point. -/
def hasMantissaDigits (isDigit : UInt8 → Bool) (input : List UInt8) : Bool :=
  input.all (fun byte => isDigit byte || byte == ascii '.') && input.any isDigit &&
    (input.filter fun byte => !isDigit byte).length ≤ 1

/-- Whether a numeral lacks only digits at its end. -/
def isIncompleteNumeral (input : List UInt8) : Bool :=
  let openExponent (exponent : List UInt8) : Bool :=
    exponent.isEmpty || exponent == [ascii '+'] || exponent == [ascii '-']
  if [ascii '0', ascii 'x'].isPrefixOf input || [ascii '0', ascii 'X'].isPrefixOf input then
    let body := input.drop 2
    match body.findIdx? fun byte => byte == ascii 'p' || byte == ascii 'P' with
    | none => body.isEmpty || body == [ascii '.']
    | some i => hasMantissaDigits isAsciiHexdigit (body.take i) && openExponent (body.drop (i + 1))
  else
    match input.findIdx? fun byte => byte == ascii 'e' || byte == ascii 'E' with
    | none => false
    | some i => hasMantissaDigits isAsciiDigit (input.take i) && openExponent (input.drop (i + 1))

/-- A numeral, its first byte already read. -/
def lexNumeral (ops : FloatOps) (firstChar : UInt8) (tokStart : Nat) : Except LexError (F64 × Lexer) :=
  let (hex, l) :=
    if firstChar == ascii '0' then
      match l.tryNext (ascii 'x') with
      | (true, l) => (true, l)
      | (false, l) => l.tryNext (ascii 'X')
    else (false, l)
  let l :=
    if hex then skipNumeral (ascii 'p') (ascii 'P') l.remaining l
    else skipNumeral (ascii 'e') (ascii 'E') l.remaining l
  let l := match l.peekChar with
    | some c => if isIdentifierContinue c then l.advance c else l
    | none => l
  match parseLuaNumeral ops (l.sourceFrom tokStart) with
  | some number => .ok (number, l)
  | none =>
    let kind :=
      if l.pos = l.source.length ∧ isIncompleteNumeral (l.sourceFrom tokStart) = true then
        SyntaxError.unfinishedNumber
      else .badNumber
    .error (l.errorAt kind tokStart)

/-! ## The next token -/

/-- The tokens of one byte that no other token starts with. -/
def simpleToken (c : UInt8) : Option TokenKind :=
  match Char.ofNat c.toNat with
  | '+' => some .plus
  | '*' => some .star
  | '/' => some .slash
  | '%' => some .mod
  | '^' => some .caret
  | '#' => some .hash
  | ';' => some .semi
  | ':' => some .colon
  | ',' => some .comma
  | '(' => some .lParen
  | ')' => some .rParen
  | '{' => some .lCurly
  | '}' => some .rCurly
  | ']' => some .rSquare
  | _ => none

/-- What is read after the first byte of a token: the token, or that it was a comment. -/
def lexToken (ops : FloatOps) (first : UInt8) (tokStart tokLine : Nat) :
    Except LexError (Option (Token × Option Literal) × Lexer) :=
  let plain (r : TokenKind × Lexer) : Except LexError (Option (Token × Option Literal) × Lexer) :=
    .ok (some (r.2.token r.1 tokStart tokLine, none), r.2)
  let number : Except LexError (Option (Token × Option Literal) × Lexer) := do
    let (value, l) ← l.lexNumeral ops first tokStart
    return (some (l.literalToken (.number value) tokStart tokLine), l)
  match simpleToken first with
  | some kind => plain (kind, l)
  | none =>
    if first == ascii '.' then
      if l.peekChar.any isAsciiDigit then number else plain l.lexDots
    else if first == ascii '=' then plain (l.withEquals .equal .assign)
    else if first == ascii '<' then plain (l.withEquals .lessEqual .less)
    else if first == ascii '>' then plain (l.withEquals .greaterEqual .greater)
    else if first == ascii '~' then
      match l.tryNext (ascii '=') with
      | (true, l) => plain (.notEqual, l)
      | (false, l) => .error (l.error (.invalidCharacter '~'))
    else if first == ascii '-' then
      match l.tryNext (ascii '-') with
      | (true, l) => do
        let l ← l.skipComment tokStart
        return (none, l)
      | (false, l) => plain (.minus, l)
    else if first == ascii '\'' || first == ascii '"' then do
      let (contents, l) ← l.lexString first
      return (some (l.literalToken (.string contents) tokStart tokLine), l)
    else if first == ascii '[' then
      if l.peekChar.any fun c => c == ascii '=' || c == ascii '[' then
        .error (l.errorAt .longStringUnsupported tokStart)
      else plain (.lSquare, l)
    else if isAsciiDigit first then number
    else if isAsciiAlphabetic first || first == ascii '_' then
      match l.lexWord tokStart with
      | (.kwGoto, l) => .error (l.errorAt .unsupportedGoto tokStart)
      | word => plain word
    else .error (l.invalidCharacter first tokStart)

/-- The next token after whitespace and comments. -/
def nextTokenLoop (ops : FloatOps) : Nat → Lexer →
    Except LexError ((Token × Option Literal) × Lexer)
  | 0, l => .ok ((l.endOfFile l.linebreaks.length, none), l)
  | fuel + 1, l =>
    let l := l.consumeWhitespace
    let tokStart := l.pos
    let tokLine := l.linebreaks.length
    match l.nextChar with
    | none => .ok ((l.endOfFile tokLine, none), l)
    | some (first, l) =>
      match l.lexToken ops first tokStart tokLine with
      | .error e => .error e
      | .ok (some lexed, l) => .ok (lexed, l)
      | .ok (none, l) => nextTokenLoop ops fuel l

def nextToken (ops : FloatOps) : Except LexError ((Token × Option Literal) × Lexer) :=
  nextTokenLoop ops (l.remaining + 1) l

/-! ## The bytes from the cursor on -/

/-- The bytes that have not been read. -/
def rest : List UInt8 := l.source.drop l.pos

variable {l} {c : UInt8} {t : List UInt8}

@[simp] theorem source_advance : (l.advance c).source = l.source := by
  simp only [advance]
  split
  · split <;> rfl
  · rfl

@[simp] theorem pos_advance : (l.advance c).pos = l.pos + 1 := by
  simp only [advance]
  split
  · split <;> rfl
  · rfl

theorem getElem?_source (k : Nat) : l.source[l.pos + k]? = l.rest[k]? := by
  rw [rest, List.getElem?_drop]

theorem peekChar_eq : l.peekChar = l.rest.head? := by
  rw [peekChar, List.head?_eq_getElem?, ← getElem?_source, Nat.add_zero]

theorem rest_advance (h : l.rest = c :: t) : (l.advance c).rest = t := by
  rw [rest, source_advance, pos_advance, ← List.drop_drop, ← rest, h]
  rfl

theorem nextChar_of_rest (h : l.rest = c :: t) : l.nextChar = some (c, l.advance c) := by
  rw [nextChar, peekChar_eq, h]
  rfl

theorem nextChar_of_rest_nil (h : l.rest = []) : l.nextChar = none := by
  rw [nextChar, peekChar_eq, h]
  rfl

theorem remaining_eq : l.remaining = l.rest.length := by
  rw [rest, List.length_drop, remaining]

/-- Nothing is skipped before a byte that is not whitespace, or at the end. -/
theorem consumeWhitespace_of_rest (h : ∀ c, l.rest.head? = some c → isLuaWhitespace c = false) :
    l.consumeWhitespace = l := by
  rw [consumeWhitespace]
  cases l.remaining with
  | zero => rfl
  | succ fuel =>
    rw [skipWhile, peekChar_eq]
    cases hc : l.rest.head? with
    | none => rfl
    | some c => simp [h c hc]

/-! ## The rounds of a string -/

section Round

variable {quote : UInt8} {fuel decodedUntil : Nat} {decoded : List UInt8}

theorem lexStringLoop_quote (h : l.rest = quote :: t) :
    lexStringLoop quote (fuel + 1) l decoded none decodedUntil = .ok (.ok decoded, l.advance quote) := by
  simp [lexStringLoop, nextChar_of_rest h]

/-- A byte that is not special is copied, unless it has been decoded with an escape. -/
theorem lexStringLoop_byte (h : l.rest = c :: t) (hq : c ≠ quote) (hs : c ≠ ascii '\\') (hcr : c ≠ 13)
    (hlf : c ≠ 10) :
    lexStringLoop quote (fuel + 1) l decoded none decodedUntil =
      lexStringLoop quote fuel (l.advance c) (if decodedUntil ≤ l.pos then decoded ++ [c] else decoded)
        none decodedUntil := by
  simp [lexStringLoop, nextChar_of_rest h, hq, hs, hcr, hlf]

/-- An escape that is decoded, other than the one that skips whitespace and without a line break
    of two bytes. -/
theorem lexStringLoop_escape {escaped : UInt8} {decoded' : List UInt8} {skipUntil : Nat}
    (h : l.rest = ascii '\\' :: escaped :: t) (hq : ascii '\\' ≠ quote) (hz : escaped ≠ ascii 'z')
    (hp : ∀ c, t.head? = some c → isNewlinePair escaped c = false)
    (hd : ((l.advance (ascii '\\')).advance escaped).decodeStringEscape l.pos escaped quote (l.pos + 2)
      decoded = .ok (decoded', skipUntil)) :
    lexStringLoop quote (fuel + 1) l decoded none decodedUntil =
      lexStringLoop quote fuel ((l.advance (ascii '\\')).advance escaped) decoded' none skipUntil := by
  have h₁ := rest_advance h
  have hpair : ((l.advance (ascii '\\')).advance escaped).peekChar.any (isNewlinePair escaped) = false := by
    rw [peekChar_eq, rest_advance h₁]
    cases hc : t.head? with
    | none => rfl
    | some c => exact hp c hc
  have hpos : ((l.advance (ascii '\\')).advance escaped).pos = l.pos + 2 := by simp
  rw [lexStringLoop, nextChar_of_rest h]
  simp only [beq_iff_eq, hq, if_false, if_true, nextChar_of_rest h₁, hz, hpair, Bool.and_false,
    Bool.false_eq_true, hpos, hd]

end Round

end Lexer

end Dellingr
