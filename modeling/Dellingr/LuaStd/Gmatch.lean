import Dellingr.Patterns.Match
import Dellingr.Vm.SaveState.Verify

/-!
# The iterators of `string.gmatch`

`string.gmatch` keeps the state of an iteration in a table of its own, which the
iterator it returns reads and writes at each call. There are two iterators: one over
the empty pattern, whose state is a position and a length, and a general one, whose
state is a subject, a pattern, a position, the end of the last match, and whether
compiling the pattern was charged.

A call checks its state before it uses it, and raises an internal fault when a field
is missing, is of another type or is out of range (`GmatchStateFault`). It may also
fail for reasons of the host: a full stack, an exhausted budget, an interrupt. Such a
call leaves the state where the next call can go on.
-/

namespace Dellingr

open Effect GmatchSchema Patterns

/-- What is wrong with the state of an iterator. -/
inductive GmatchStateFault
  | stringFieldInvalid (field : List UInt8)
  | numberFieldInvalid (field : List UInt8)
  | numberFieldOutOfRange (field : List UInt8)
  | positionExceedsSubjectLength
  | lastMatchExceedsSubjectLength
  | lastMatchFieldInvalid (field : List UInt8)
  | compileFlagKeyMissing
  | compileFlagInvalid
  deriving DecidableEq, Repr

/-- Why a call fails. -/
inductive GmatchError
  | gmatchState (fault : GmatchStateFault)
  | captureRangeOutsideString
  | pattern (error : PatternError)
  | budgetExceeded
  | interrupted
  | stackOverflow
  | stringSizeExceeded
  | tooManyResults
  | table (error : TableError)
  deriving DecidableEq, Repr

/-- The failures that are bugs of the library. -/
def GmatchError.IsInternal : GmatchError → Prop
  | .gmatchState _ | .captureRangeOutsideString => True
  | _ => False

/-- What the host decides: whether the stack is full at a push, the interrupt at a poll,
    and the room a table is given. -/
structure GmatchHost where
  full : Nat → Bool
  interrupt : Nat → Bool
  alloc : Allocator

/-- What an iterator works on: the strings, its state table, the accounting, and how
    often the host was asked. -/
structure GmatchState where
  pool : StringPool
  table : Table
  cost : CostState
  pushes : Nat := 0
  polls : Nat := 0

/-- A computation of the library. -/
abbrev Gmatch := Effect GmatchState GmatchError

section Stack

variable (H : GmatchHost)

/-- Take a slot of the stack. -/
def pushSlot : Gmatch Unit := do
  let s ← get
  modify fun s => { s with pushes := s.pushes + 1 }
  if H.full s.pushes then fail .stackOverflow

/-- Push a string of the given bytes. -/
def pushBytes (bytes : List UInt8) : Gmatch StringPtr := do
  pushSlot H
  if MAX_STRING_BYTES < bytes.length then fail .stringSizeExceeded
  else
    let s ← get
    let (p, pool) := s.pool.alloc bytes
    modify fun s => { s with pool }
    return p

/-- Read the state table. -/
def getTableRaw (key : Val) : Gmatch Val := do return (← get).table.get key

/-- Write the state table. -/
def setTableRaw (key value : Val) : Gmatch Unit := do
  let s ← get
  let (result, table) ← demand (s.table.insert H.alloc key value)
  modify fun s => { s with table }
  match result with
  | .ok () => return ()
  | .error e => fail (.table e)

/-- Read a field of the state table. -/
def getField (field : List UInt8) : Gmatch Val := do
  let p ← pushBytes H field
  getTableRaw (.str p)

/-- The bytes of a string that is in use. -/
def toBytes (p : StringPtr) : Gmatch (List UInt8) := do demand ((← get).pool.get p)

/-- Charge so many units as one operation. -/
def chargeGmatch (units : Nat) : Gmatch Unit := do
  let s ← get
  let (admitted, cost) := s.cost.consume (s.cost.cost .stringGmatch (.ofNat units))
  modify fun s => { s with cost }
  if admitted then return () else fail .budgetExceeded

def matchError : MatchError → GmatchError
  | .pattern error => .pattern error
  | .budgetExceeded => .budgetExceeded
  | .interrupted => .interrupted

/-- Run a matcher on a meter of the accounting. -/
def withGmatchMatcher {α : Type} (m : Effect Clock MatchError α) : Gmatch α := fun s =>
  match m ⟨s.cost.meter.withUnit (s.cost.weight .stringGmatch), s.polls⟩ with
  | .ok a clock => .ok a { s with cost := s.cost.settle clock.meter, polls := clock.polls }
  | .fail e clock =>
    .fail (matchError e) { s with cost := s.cost.settle clock.meter, polls := clock.polls }
  | .panic => .panic
  | .timeout => .timeout

/-! ## Fields -/

def pushGmatchStringField (field : List UInt8) : Gmatch StringPtr := do
  match ← getField H field with
  | .str p => return p
  | _ => fail (.gmatchState (.stringFieldInvalid field))

/-- The index a field holds. -/
def gmatchStateIndex (field : List UInt8) (maximum : Nat) : Val → Gmatch Nat
  | .num n =>
    match integerIndex n maximum with
    | some i => return i
    | none => fail (.gmatchState (.numberFieldOutOfRange field))
  | _ => fail (.gmatchState (.numberFieldInvalid field))

/-- The end of the previous match; a fresh iterator has none. -/
def lastMatch : Gmatch (Option Nat) := do
  match ← getField H LAST_MATCH_FIELD with
  | .nil => return none
  | .num n => some <$> gmatchStateIndex LAST_MATCH_FIELD MAX_STRING_BYTES (.num n)
  | _ => fail (.gmatchState (.lastMatchFieldInvalid LAST_MATCH_FIELD))

/-! ## The iterator over the empty pattern -/

def gmatchEmptyIter : Gmatch (List Val) := do
  let pos ← gmatchStateIndex POSITION_FIELD (MAX_STRING_BYTES + 1) (← getField H POSITION_FIELD)
  let len ← gmatchStateIndex LENGTH_FIELD MAX_STRING_BYTES (← getField H LENGTH_FIELD)
  if len + 1 < pos then fail (.gmatchState .positionExceedsSubjectLength)
  else if len < pos then
    pushSlot H
    return [.nil]
  else
    -- The result and the operands are staged before the position advances.
    let result ← pushBytes H []
    let key ← pushBytes H POSITION_FIELD
    pushSlot H
    setTableRaw H (.str key) (Val.ofNat (pos + 1))
    return [.str result]

/-! ## The general iterator -/

/-- Search from a position, and try again where the match found is an empty one at the
    end of the previous match; past the subject there is nowhere to try. -/
def gmatchTry (interrupt : Nat → Bool) (subject : List UInt8) (lastmatch : Option Nat)
    (search : Nat) (m : LuaPattern)
    (again : LuaPattern → Effect Clock MatchError (Option LuaPattern)) :
    Effect Clock MatchError (Option LuaPattern) := do
  let (found, m) ← m.matchesBytesFrom subject search interrupt
  if found then
    let (start, stop) ← demand m.range
    if start = stop ∧ lastmatch = some stop then
      if search = subject.length then return none else again m
    else return some m
  else return none

/-- Find the next match. So many bytes of the subject follow the position the search
    starts at. -/
def gmatchLoop (interrupt : Nat → Bool) (subject : List UInt8) (lastmatch : Option Nat) :
    Nat → Nat → LuaPattern → Effect Clock MatchError (Option LuaPattern)
  | 0, search, m => gmatchTry interrupt subject lastmatch search m fun _ => panic
  | n + 1, search, m => gmatchTry interrupt subject lastmatch search m fun m =>
      gmatchLoop interrupt subject lastmatch n (search + 1) m

/-- Search for a match: its range and its captures, the whole match first. -/
def gmatchSearch (interrupt : Nat → Bool) (subject pattern : List UInt8) (pos : Nat)
    (lastmatch : Option Nat) :
    Effect Clock MatchError (Option ((Nat × Nat) × List LuaCapture)) := do
  let matcher := LuaPattern.fromCompiled (compile pattern (AnchorMode.literal.effective pattern))
  match ← gmatchLoop interrupt subject lastmatch (subject.length - pos) pos matcher with
  | none => return none
  | some m =>
    let range ← demand m.range
    let captures ← (List.range m.nMatch).mapM fun i => demand (m.capture i)
    return some (range, captures)

/-- Whether compiling the pattern was charged, with the key of the flag, which the state
    keeps so that it need not be interned again. -/
def compileCharged : Gmatch (StringPtr × Bool) := do
  pushSlot H
  match ← getTableRaw (.num COMPILE_CHARGED_SLOT) with
  | .str key =>
    if (← toBytes key) = COMPILE_CHARGED_FIELD then
      match ← getTableRaw (.str key) with
      | .nil => return (key, false)
      | .bool true => return (key, true)
      | _ => fail (.gmatchState .compileFlagInvalid)
    else fail (.gmatchState .compileFlagKeyMissing)
  | _ => fail (.gmatchState .compileFlagKeyMissing)

/-- Charge for compiling the pattern, once for an iterator. -/
def chargeCompile (pattern : StringPtr) : Gmatch Unit := do
  let patternLen := (← toBytes pattern).length
  chargeGmatch (max patternLen 1)
  pushSlot H
  let key ← getTableRaw (.num COMPILE_CHARGED_SLOT)
  pushSlot H
  setTableRaw H key (.bool true)

/-- The bytes of the captures to return, all of which must be closed. -/
def captureBytes : List LuaCapture → Gmatch Nat
  | [] => return 0
  | .unfinished :: _ => fail (.pattern .unfinishedCapture)
  | .bytes start stop :: captures => return (stop - start) + (← captureBytes captures)
  | .position _ :: captures => captureBytes captures

/-- Charge for the captures before any of them is copied. -/
def preflightCaptureBytes (captures : List LuaCapture) : Gmatch Unit := do
  chargeGmatch (← captureBytes captures)

/-- Push a capture of the subject. -/
def pushGmatchCapture (subject : StringPtr) : LuaCapture → Gmatch Val
  | .bytes start stop => do
    let bytes ← toBytes subject
    if start ≤ stop ∧ stop ≤ bytes.length then
      return .str (← pushBytes H ((bytes.take stop).drop start))
    else fail .captureRangeOutsideString
  | .position offset => do
    pushSlot H
    return Val.ofNat (offset + 1)
  | .unfinished => fail (.pattern .unfinishedCapture)

/-- Record where a match ended. Both writes are staged before either is made. -/
def commitMatch (stop : Nat) : Gmatch Unit := do
  let position ← pushBytes H POSITION_FIELD
  pushSlot H
  let last ← pushBytes H LAST_MATCH_FIELD
  pushSlot H
  setTableRaw H (.str last) (Val.ofNat stop)
  setTableRaw H (.str position) (Val.ofNat stop)

/-- Push what a match returns: its captures, or the whole match when there are none. -/
def returnCaptures (subject : StringPtr) (captures : List LuaCapture) : Gmatch (List Val) := do
  require (captures ≠ [])
  let returned := if 1 < captures.length then captures.drop 1 else captures.take 1
  preflightCaptureBytes returned
  if 255 < returned.length then fail .tooManyResults
  else returned.mapM (pushGmatchCapture H subject)

/-- Search from a position on; return what the match found captures, and record where it
    ended. -/
def gmatchAdvance (subject pattern : StringPtr) (bytes : List UInt8) (pos : Nat)
    (lastmatch : Option Nat) : Gmatch (List Val) := do
  let patternBytes ← toBytes pattern
  match ← withGmatchMatcher (gmatchSearch H.interrupt bytes patternBytes pos lastmatch) with
  | some ((_, stop), captures) =>
    let results ← returnCaptures H subject captures
    commitMatch H stop
    return results
  | none =>
    pushSlot H
    return [.nil]

def gmatchIter : Gmatch (List Val) := do
  let subject ← pushGmatchStringField H SUBJECT_FIELD
  let pattern ← pushGmatchStringField H PATTERN_FIELD
  let pos ← gmatchStateIndex POSITION_FIELD (MAX_STRING_BYTES + 1) (← getField H POSITION_FIELD)
  let lastmatch ← lastMatch H
  let bytes ← toBytes subject
  if bytes.length + 1 < pos then fail (.gmatchState .positionExceedsSubjectLength)
  else if lastmatch.any (bytes.length < ·) then
    fail (.gmatchState .lastMatchExceedsSubjectLength)
  else if bytes.length < pos then
    pushSlot H
    return [.nil]
  else
    let (_, charged) ← compileCharged H
    if !charged then chargeCompile H pattern
    gmatchAdvance H subject pattern bytes pos lastmatch

/-- The iterator over the empty pattern, or the general one. -/
def gmatchNext (emptyPattern : Bool) : Gmatch (List Val) :=
  if emptyPattern then gmatchEmptyIter H else gmatchIter H

/-! ## `string.gmatch` -/

/-- An argument: a string, or a number in its rendering. -/
inductive StringArg
  | slot (p : StringPtr)
  | rendered (bytes : List UInt8)

def stringArgBytes : StringArg → Gmatch (List UInt8)
  | .slot p => toBytes p
  | .rendered bytes => return bytes

/-- Push an argument: a string as it is, a rendering interned. -/
def pushStringArg : StringArg → Gmatch StringPtr
  | .slot p => do
    pushSlot H
    return p
  | .rendered bytes => pushBytes H bytes

/-- The offset of a start index, which counts from the end when it is negative. -/
def luaStartIndex (len : Nat) (idx : Int) : Nat :=
  if 0 ≤ idx then (idx - 1).toNat else (len + idx).toNat

/-- Store a field of a fresh state table. -/
def setField (field : List UInt8) (value : Val) : Gmatch Unit := do
  let key ← pushBytes H field
  pushSlot H
  setTableRaw H (.str key) value

/-- Make an iterator: whether it is the one over the empty pattern. -/
def gmatch (s pattern : StringArg) (init : Option Int) : Gmatch Bool := do
  let sLen := (← stringArgBytes s).length
  let patternLen := (← stringArgBytes pattern).length
  chargeGmatch (max (sLen + patternLen) 1)
  -- A start past the end parks the iterator where it returns nil.
  let pos := min (init.elim 0 (luaStartIndex sLen)) (sLen + 1)
  pushSlot H
  modify fun st => { st with table := .empty }
  if patternLen = 0 then
    setField H POSITION_FIELD (Val.ofNat pos)
    setField H LENGTH_FIELD (Val.ofNat sLen)
    return true
  else
    pushSlot H
    let flagKey ← pushBytes H COMPILE_CHARGED_FIELD
    setTableRaw H (.num COMPILE_CHARGED_SLOT) (.str flagKey)
    let subjectKey ← pushBytes H SUBJECT_FIELD
    let subject ← pushStringArg H s
    setTableRaw H (.str subjectKey) (.str subject)
    let patternKey ← pushBytes H PATTERN_FIELD
    let patternPtr ← pushStringArg H pattern
    setTableRaw H (.str patternKey) (.str patternPtr)
    setField H POSITION_FIELD (Val.ofNat pos)
    return false

end Stack

end Dellingr
