import Dellingr.Patterns.Match

/-!
# Patterns by their text

What a pattern means, as the reference implementation of Lua 5.4 has it: its matcher goes
through the text of the pattern, decides at each byte what kind of item starts there, and finds
a malformed item only when it gets to it (`doMatch`). The captures are a list that grows as they
are opened; a path that fails is left with the captures it had.

The reference reads the escaped byte of a bracketed class without looking for the end of the
class. After a range that ends in `%`, as in `[!-%%]`, a `%` is left right before the closing
bracket, and the bracket is taken for the escaped byte. What such a `%` matches is a parameter
here (`lone`): the closing bracket in the reference (`luaLone`), and the `%` itself in this
implementation (`literalLone`), which stays within the class.
-/

namespace Dellingr.Patterns

namespace Reference

/-- The result of a match: an error, no match, or the end of a match and its captures. -/
abbrev Result := Except PatternError (Option (Nat × List Capture))

/-- The reference takes the bracket that closes the class for the escaped byte. -/
def luaLone (c : UInt8) : Bool := tableMatchClass c (ascii ']')

/-- An escape byte without a byte to escape is itself. -/
def literalLone (c : UInt8) : Bool := lEsc == c

/-! ## Single bytes -/

/-- The body of a bracketed class and what follows it. The first byte, and an escaped byte,
    cannot close the class. -/
def classEnd : List UInt8 → Except PatternError (List UInt8 × List UInt8)
  | [] | [_] => .error (.malformedPattern .missingBracket)
  | b :: c :: rest =>
    if b = lEsc then
      match rest with
      | [] => .error (.malformedPattern .missingBracket)
      | d :: rest' =>
        if d = ascii ']' then .ok ([b, c], rest')
        else (classEnd (d :: rest')).map fun r => (b :: c :: r.1, r.2)
    else if c = ascii ']' then .ok ([b], rest)
    else (classEnd (c :: rest)).map fun r => (b :: r.1, r.2)

section Text

variable (lone : UInt8 → Bool)

/-- Whether the body of a bracketed class has a byte. -/
def matchBracketClass (c : UInt8) : List UInt8 → Bool
  | [] => false
  | [b] => if b = lEsc then lone c else b == c
  | [b, d] => if b = lEsc then tableMatchClass c d else b == c || matchBracketClass c [d]
  | b :: d :: e :: rest =>
    if b = lEsc then tableMatchClass c d || matchBracketClass c (e :: rest)
    else if d = ascii '-' then (b ≤ c && c ≤ e) || matchBracketClass c rest
    else b == c || matchBracketClass c (d :: e :: rest)

/-- The bytes in a bracketed class, read after its opening bracket, and the text after it. -/
def bracketItem (rest : List UInt8) : Except PatternError ((UInt8 → Bool) × List UInt8) :=
  let invert := rest.head? = some (ascii '^')
  match classEnd (if invert then rest.tail else rest) with
  | .error e => .error e
  | .ok (body, rest) => .ok (fun c => matchBracketClass lone c body ^^ invert, rest)

/-- The bytes that an item of a single byte matches, and the text after it. -/
def singleItem (byte : UInt8) (rest : List UInt8) :
    Except PatternError ((UInt8 → Bool) × List UInt8) :=
  if byte = lEsc then
    match rest with
    | [] => .error (.malformedPattern .endsWithPercent)
    | escaped :: rest => .ok (fun c => tableMatchClass c escaped, rest)
  else if byte = ascii '[' then bracketItem lone rest
  else if byte = ascii '.' then .ok (fun _ => true, rest)
  else .ok (fun c => byte == c, rest)

variable (subject : List UInt8)

/-! ## Repetition -/

/-- Go on after a run of bytes from `s` on, giving back one byte after the other. -/
def giveBack (k : Nat → Result) (s : Nat) : Nat → Result
  | 0 => k s
  | n + 1 =>
    match k (s + n + 1) with
    | .ok none => giveBack k s n
    | r => r

/-- As many bytes as possible. -/
def maxExpand (test : UInt8 → Bool) (k : Nat → Result) (s : Nat) : Result :=
  giveBack k s ((subject.drop s).takeWhile test).length

/-- Go on as early as possible, from the bytes at `s` on. -/
def minLoop (test : UInt8 → Bool) (k : Nat → Result) : List UInt8 → Nat → Result
  | [], s => k s
  | b :: rest, s =>
    match k s with
    | .ok none => if test b then minLoop test k rest (s + 1) else .ok none
    | r => r

/-- As few bytes as possible. -/
def minExpand (test : UInt8 → Bool) (k : Nat → Result) (s : Nat) : Result :=
  minLoop test k (subject.drop s) s

/-- An item of a single byte with its repetition; `k` goes on with the text after it. -/
def matchDefault (byte : UInt8) (rest : List UInt8) (s : Nat)
    (k : List UInt8 → Nat → Result) : Result :=
  match singleItem lone byte rest with
  | .error e => .error e
  | .ok (test, ep) =>
    if subject[s]?.any test then
      if ep.head? = some (ascii '?') then
        match k ep.tail (s + 1) with
        | .ok none => k ep.tail s
        | r => r
      else if ep.head? = some (ascii '+') then maxExpand subject test (k ep.tail) (s + 1)
      else if ep.head? = some (ascii '*') then maxExpand subject test (k ep.tail) s
      else if ep.head? = some (ascii '-') then minExpand subject test (k ep.tail) s
      else k ep (s + 1)
    -- An item that may be absent is passed over.
    else if ep.head? = some (ascii '*') ∨ ep.head? = some (ascii '?') ∨ ep.head? = some (ascii '-') then
      k ep.tail s
    else .ok none

/-! ## Other items -/

/-- Look for the closing byte among the bytes from the cursor on. -/
def balanceLoop (opening closing : UInt8) : List UInt8 → Nat → Nat → Option Nat
  | [], _, _ => none
  | b :: rest, depth, cursor =>
    if b = closing then
      if depth - 1 = 0 then some (cursor + 1)
      else balanceLoop opening closing rest (depth - 1) (cursor + 1)
    else if b = opening then balanceLoop opening closing rest (depth + 1) (cursor + 1)
    else balanceLoop opening closing rest depth (cursor + 1)

def matchBalance (opening closing : UInt8) (s : Nat) : Option Nat :=
  if subject[s]? = some opening then
    balanceLoop opening closing (subject.drop (s + 1)) 1 (s + 1)
  else none

/-- Whether a byte of a class follows one that is not; the ends of the subject are zero bytes. -/
def atFrontier (test : UInt8 → Bool) (s : Nat) : Bool :=
  !test (if s = 0 then 0 else subject[s - 1]?.getD 0) && test (subject[s]?.getD 0)

/-- The capture opened last, of those below a level that are open. -/
def captureToClose (caps : List Capture) : Nat → Option Nat
  | 0 => none
  | level + 1 =>
    if caps[level]?.map Capture.len = some .unfinished then some level
    else captureToClose caps level

/-- The capture of a back reference, which must be closed. -/
def checkCapture (escaped : UInt8) (caps : List Capture) : Except PatternError Capture :=
  let l : Int := escaped.toNat - (ascii '1').toNat
  if l < 0 then .error (.invalidCaptureIndex l)
  else
    match caps[l.toNat]? with
    | some capture =>
      if capture.len = .unfinished then .error (.invalidCaptureIndex l) else .ok capture
    | none => .error (.invalidCaptureIndex l)

/-- The end of a copy of a capture; a position has none. -/
def matchCapture (capture : Capture) (s : Nat) : Option Nat :=
  match capture.len with
  | .len n =>
    if n ≤ subject.length - s ∧ (subject.drop capture.init).take n = (subject.drop s).take n then
      some (s + n)
    else none
  | _ => none

/-! ## Whole patterns -/

/-- Match the text of a pattern from a position on. Every call goes on with less text, so the
    length of the text bounds their number. -/
def doMatch : Nat → List UInt8 → Nat → List Capture → Result
  | _, [], s, caps => .ok (some (s, caps))
  | 0, _ :: _, _, _ => .ok none
  | fuel + 1, byte :: rest, s, caps =>
    if byte = ascii '(' then
      if caps.length = luaMaxCaptures then .error .tooManyCaptures
      else if rest.head? = some (ascii ')') then
        doMatch fuel rest.tail s (caps ++ [⟨s, .position⟩])
      else doMatch fuel rest s (caps ++ [⟨s, .unfinished⟩])
    else if byte = ascii ')' then
      match captureToClose caps caps.length with
      | none => .error .invalidPatternCapture
      | some l =>
        doMatch fuel rest s (caps.modify l fun capture => { capture with len := .len (s - capture.init) })
    else if byte = ascii '$' ∧ rest = [] then
      .ok (if s = subject.length then some (s, caps) else none)
    else if byte = lEsc then
      match rest with
      | [] => .error (.malformedPattern .endsWithPercent)
      | escaped :: rest' =>
        if escaped = ascii 'b' then
          match rest' with
          | opening :: closing :: rest'' =>
            match matchBalance subject opening closing s with
            | some s' => doMatch fuel rest'' s' caps
            | none => .ok none
          | _ => .error (.malformedPattern .missingBalancedArguments)
        else if escaped = ascii 'f' then
          if rest'.head? = some (ascii '[') then
            match bracketItem lone rest'.tail with
            | .error e => .error e
            | .ok (test, ep) => if atFrontier subject test s then doMatch fuel ep s caps else .ok none
          else .error (.malformedPattern .missingFrontierBracket)
        else if isAsciiDigit escaped then
          match checkCapture escaped caps with
          | .error e => .error e
          | .ok capture =>
            match matchCapture subject capture s with
            | some s' => doMatch fuel rest' s' caps
            | none => .ok none
        else matchDefault lone subject byte rest s fun p s => doMatch fuel p s caps
    else matchDefault lone subject byte rest s fun p s => doMatch fuel p s caps

/-- Try the start positions from `pos` on, with so many bytes of the subject after it. -/
def searchLoop (anchored : Bool) (p : List UInt8) : Nat → Nat →
    Except PatternError (Option (Nat × Nat × List Capture))
  | n, pos =>
    match doMatch lone subject p.length p pos [] with
    | .error e => .error e
    | .ok (some (stop, caps)) => .ok (some (pos, stop, caps))
    | .ok none =>
      if anchored then .ok none
      else
        match n with
        | 0 => .ok none
        | n + 1 => searchLoop anchored p n (pos + 1)

/-- Search a pattern from a position on: the range of the first match and its captures. -/
def strFind (pattern : List UInt8) (mode : AnchorMode) (init : Nat) :
    Except PatternError (Option (Nat × Nat × List Capture)) :=
  let anchored := mode == .honour && pattern.head? == some (ascii '^')
  searchLoop lone subject anchored (if anchored then pattern.tail else pattern)
    (subject.length - init) init

end Text

end Reference

end Dellingr.Patterns
