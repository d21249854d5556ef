import Dellingr.Lib.Relational
import Dellingr.LuaStd.Find
import Dellingr.Vm.StringPool

/-!
# Replacements

What `string.gsub` appends in the place of a match (`appendGsubReplacement`): a replacement string
with the captures it refers to, or the value that a table or a function has for the captures.

A replacement string is compiled at the first match, to runs of literal bytes and references to
captures (`compileReplacementTemplate`). An escape that means nothing becomes a segment that fails
when it is reached. Whatever matches it is applied to, the template appends the bytes that a scan
of the replacement string from left to right appends, and fails where the scan fails, with the same
accounting (`templates_like_scans`).
-/

namespace Dellingr

open Effect Patterns

/-- Why `string.gsub` fails; `ε` are the errors of a called function. -/
inductive GsubError (ε : Type)
  | pattern (error : PatternError)
  | budgetExceeded
  | interrupted
  | stringSizeExceeded
  | captureRangeOutsideString
  | invalidGsubEscape
  | invalidGsubCaptureIndex (index : Nat)
  | invalidGsubReplacementValue
  | raised (error : ε)

/-- A segment of a replacement string. -/
inductive ReplSegment
  | literal (bytes : List UInt8)
  | capture (index : Nat)
  | invalidEscape
  deriving DecidableEq, Repr

/-- A compiled replacement string, and the length of the string. -/
structure ReplTemplate where
  segments : List ReplSegment
  replLen : Nat
  deriving DecidableEq

/-- What a call of `string.gsub` works on: the result so far, the template once it is compiled,
    the accounting, and the world `ι` of called functions. -/
structure GsubState (ι : Type) where
  out : List UInt8
  template : Option ReplTemplate
  clock : Clock
  world : ι

abbrev Gsub (ι ε : Type) := Effect (GsubState ι) (GsubError ε)

/-- Code of the host or of a script, which is charged too. -/
abbrev GsubHost (ι ε : Type) := Effect (Clock × ι) (GsubError ε)

/-- A capture as an argument of a call. -/
inductive CaptureValue
  | bytes (bytes : List UInt8)
  | position (n : Nat)
  deriving DecidableEq

/-- What a table or a function has for a match: nothing or false, a string or a number, or another
    value. -/
inductive ReplValue
  | keepOriginal
  | bytes (bytes : List UInt8)
  | invalid

/-- A replacement: a string or a number, a table, or a function. -/
inductive Replacement (ι ε : Type)
  | string (bytes : List UInt8)
  | table (get : CaptureValue → GsubHost ι ε ReplValue)
  | function (call : List CaptureValue → GsubHost ι ε ReplValue)

section Gsub

variable {ι ε α : Type}

def GsubError.ofMatchError : MatchError → GsubError ε
  | .pattern error => .pattern error
  | .budgetExceeded => .budgetExceeded
  | .interrupted => .interrupted

/-- Run a scan on the accounting of the call. -/
def onClock (m : Scan α) : Gsub ι ε α := fun s =>
  match m s.clock with
  | .ok a clock => .ok a { s with clock }
  | .fail e clock => .fail (.ofMatchError e) { s with clock }
  | .panic => .panic
  | .timeout => .timeout

/-- Run the code of the host or of a script. -/
def onHost (m : GsubHost ι ε α) : Gsub ι ε α := fun s =>
  match m (s.clock, s.world) with
  | .ok a (clock, world) => .ok a { s with clock, world }
  | .fail e (clock, world) => .fail e { s with clock, world }
  | .panic => .panic
  | .timeout => .timeout

/-! ## Appending -/

/-- Fail if so many bytes more would make the result too long. -/
def checkStringGrowth (additional : Nat) : Gsub ι ε Unit := do
  let s ← get
  if MAX_STRING_BYTES < s.out.length + additional then fail .stringSizeExceeded else return ()

def extendOut (bytes : List UInt8) : Gsub ι ε Unit := modify fun s => { s with out := s.out ++ bytes }

/-- Append bytes with one charge. -/
def appendBytes (bytes : List UInt8) : Gsub ι ε Unit := do
  checkStringGrowth bytes.length
  onClock (chargeOnce bytes.length)
  extendOut bytes

/-- Append a range of the subject with one charge. -/
def appendSubjectRange (subject : List UInt8) (start stop : Nat) : Gsub ι ε Unit := do
  checkStringGrowth (stop - start)
  onClock (chargeOnce (stop - start))
  require (start ≤ stop ∧ stop ≤ subject.length)
  extendOut ((subject.take stop).drop start)

/-- Append bytes one after the other. -/
def appendEach : List UInt8 → Gsub ι ε Unit
  | [] => return ()
  | byte :: bytes => do
    appendBytes [byte]
    appendEach bytes

/-- Append literal bytes, with a charge for each. -/
def appendBytesUnits (bytes : List UInt8) : Gsub ι ε Unit := do
  let s ← get
  if MAX_STRING_BYTES < s.out.length + bytes.length then appendEach bytes
  else
    onClock (chargeUnits bytes.length)
    extendOut bytes

def appendCaptureBytes (subject : List UInt8) : LuaCapture → Gsub ι ε Unit
  | .bytes start stop => appendSubjectRange subject start stop
  | .position offset => appendBytes ((toString (offset + 1)).toList.map ascii)
  | .unfinished => fail (.pattern .unfinishedCapture)

/-! ## Replacement strings -/

/-- A run of literal bytes is a segment if it is not empty. -/
def flushLiteral (literal : List UInt8) : List ReplSegment :=
  if literal = [] then [] else [.literal literal]

/-- The segments of a replacement string, with the literal bytes read so far. -/
def compileSegments (literal : List UInt8) : List UInt8 → List ReplSegment
  | [] => flushLiteral literal
  | [byte] =>
    if byte = lEsc then flushLiteral literal ++ [.invalidEscape]
    else flushLiteral (literal ++ [byte])
  | byte :: next :: rest =>
    if byte = lEsc then
      if next = lEsc then compileSegments (literal ++ [lEsc]) rest
      else if isAsciiDigit next then
        flushLiteral literal ++ .capture (next - ascii '0').toNat :: compileSegments [] rest
      else flushLiteral literal ++ [.invalidEscape]
    else compileSegments (literal ++ [byte]) (next :: rest)

def compileReplacementTemplate (repl : List UInt8) : ReplTemplate :=
  ⟨compileSegments [] repl, repl.length⟩

/-- The capture a reference means; `%1` is the whole match where there are no captures. -/
def replacementCapture (captures : List LuaCapture) (index : Nat) : Gsub ι ε LuaCapture :=
  if index = 0 ∨ captures.length = 1 ∧ index = 1 then demand captures[0]?
  else
    match captures[index]? with
    | some capture => return capture
    | none => fail (.invalidGsubCaptureIndex index)

def appendSegments (subject : List UInt8) (captures : List LuaCapture) :
    List ReplSegment → Gsub ι ε Unit
  | [] => return ()
  | .literal bytes :: segments => do
    appendBytesUnits bytes
    appendSegments subject captures segments
  | .capture index :: segments => do
    appendCaptureBytes subject (← replacementCapture captures index)
    appendSegments subject captures segments
  | .invalidEscape :: _ => fail .invalidGsubEscape

def appendTemplatedReplacement (template : ReplTemplate) (subject : List UInt8)
    (captures : List LuaCapture) (firstApplication : Bool) : Gsub ι ε Unit := do
  if !firstApplication then onClock (chargeOnce template.replLen)
  appendSegments subject captures template.segments

/-! ## Tables and functions -/

/-- The bytes of captures, all of which must be closed. -/
def closedBytes : List LuaCapture → Gsub ι ε Nat
  | [] => return 0
  | .unfinished :: _ => fail (.pattern .unfinishedCapture)
  | .bytes start stop :: captures => return (stop - start) + (← closedBytes captures)
  | .position _ :: captures => closedBytes captures

/-- Charge for captures before any of them is copied. -/
def preflightCaptures (captures : List LuaCapture) : Gsub ι ε Unit := do
  onClock (chargeOnce (← closedBytes captures))

/-- A capture as an argument. -/
def pushCaptureValue (subject : List UInt8) : LuaCapture → Gsub ι ε CaptureValue
  | .bytes start stop =>
    if start ≤ stop ∧ stop ≤ subject.length then
      return .bytes ((subject.take stop).drop start)
    else fail .captureRangeOutsideString
  | .position offset => return .position (offset + 1)
  | .unfinished => fail (.pattern .unfinishedCapture)

/-- Append the value for a match, or the whole match where there is none. -/
def appendReplValue (subject : List UInt8) (captures : List LuaCapture) :
    ReplValue → Gsub ι ε Unit
  | .keepOriginal => do appendCaptureBytes subject (← demand captures[0]?)
  | .bytes bytes => appendBytes bytes
  | .invalid => fail .invalidGsubReplacementValue

/-- Append the replacement of a match: its captures, the whole match first. -/
def appendGsubReplacement (repl : Replacement ι ε) (subject : List UInt8)
    (captures : List LuaCapture) : Gsub ι ε Unit :=
  match repl with
  | .string bytes => do
    match (← get).template with
    | none =>
      onClock (chargeOnce bytes.length)
      let template := compileReplacementTemplate bytes
      modify fun s => { s with template := some template }
      appendTemplatedReplacement template subject captures true
    | some template => appendTemplatedReplacement template subject captures false
  | .table lookup => do
    let key ← demand captures[if 1 < captures.length then 1 else 0]?
    preflightCaptures [key]
    let value ← pushCaptureValue subject key
    appendReplValue subject captures (← onHost (lookup value))
  | .function call => do
    let args := if 1 < captures.length then captures.drop 1 else captures.take 1
    require (captures ≠ [])
    preflightCaptures args
    let values ← args.mapM (pushCaptureValue subject)
    appendReplValue subject captures (← onHost (call values))

end Gsub

/-! ## Scanning a replacement string -/

section Scans

variable {ι ε : Type}

/-- The capture a reference means to a scan. -/
def scannedCapture (captures : List LuaCapture) (index : Nat) : Gsub ι ε LuaCapture :=
  if index = 0 then demand captures[0]?
  else
    match captures[index]? with
    | some capture => return capture
    | none => if index = 1 then demand captures[0]? else fail (.invalidGsubCaptureIndex index)

/-- Append a replacement string, read from left to right: `%0` to `%9` are captures, `%%` is a
    `%`, and `%` before anything else is an error. -/
def scanReplacement (subject : List UInt8) (captures : List LuaCapture) :
    List UInt8 → Gsub ι ε Unit
  | [] => return ()
  | [byte] => if byte = lEsc then fail .invalidGsubEscape else appendBytes [byte]
  | byte :: next :: rest => do
    if byte = lEsc then
      if next = lEsc then
        appendBytes [lEsc]
        scanReplacement subject captures rest
      else if isAsciiDigit next then
        appendCaptureBytes subject (← scannedCapture captures (next - ascii '0').toNat)
        scanReplacement subject captures rest
      else fail .invalidGsubEscape
    else
      appendBytes [byte]
      scanReplacement subject captures (next :: rest)

/-! ## The template appends what the scan appends -/

variable {α : Type} {template : Option ReplTemplate} {s t : GsubState ι} {subject bytes : List UInt8}
  {captures : List LuaCapture}

/-- States that differ in the template at most. -/
structure Alike (template : Option ReplTemplate) (s t : GsubState ι) : Prop where
  out : s.out = t.out
  template : s.template = template
  clock : s.clock = t.clock
  world : s.world = t.world

/-- Where both fail the accounting is the same. -/
abbrev SameAccounting (s t : GsubState ι) : Prop := s.clock = t.clock ∧ s.world = t.world

/-- Two computations do the same, beside the template. -/
def SameWork (template : Option ReplTemplate) (m m' : Gsub ι ε α) : Prop :=
  ∀ s t, Alike template s t →
    rel m m' (fun a s b t => a = b ∧ Alike template s t) SameAccounting s t

theorem sameWork_pure (a : α) : SameWork template (pure a : Gsub ι ε α) (pure a) :=
  fun _ _ h => rel_pure ⟨rfl, h⟩

theorem sameWork_fail (e : GsubError ε) : SameWork template (fail e : Gsub ι ε α) (fail e) :=
  fun _ _ h => rel_fail ⟨h.clock, h.world⟩

theorem SameWork.bind {β : Type} {m m' : Gsub ι ε α} {f f' : α → Gsub ι ε β}
    (h : SameWork template m m') (hf : ∀ a, SameWork template (f a) (f' a)) :
    SameWork template (m >>= f) (m' >>= f') := by
  intro s t hs
  refine rel_bind (rel_mono_ok (h s t hs) ?_)
  rintro a s' _ t' ⟨rfl, hs'⟩
  exact hf a s' t' hs'

theorem sameWork_demand {o : Option α} : SameWork template (demand o : Gsub ι ε α) (demand o) :=
  fun _ _ h => rel_demand fun _ _ => ⟨rfl, h⟩

theorem sameWork_onClock (m : Scan α) : SameWork template (onClock m : Gsub ι ε α) (onClock m) := by
  rintro s t ⟨hout, htemplate, hclock, hworld⟩
  rw [rel, onClock, onClock, ← hclock]
  cases m s.clock with
  | ok a clock => exact ⟨rfl, hout, htemplate, rfl, hworld⟩
  | fail e clock => exact ⟨rfl, rfl, hworld⟩
  | panic => trivial
  | timeout => trivial

theorem sameWork_checkStringGrowth (n : Nat) :
    SameWork template (checkStringGrowth n : Gsub ι ε Unit) (checkStringGrowth n) := by
  intro s t h
  refine rel_bind (rel_get ?_)
  rw [h.out]
  exact rel_ite (fun _ => sameWork_fail _ s t h) fun _ => sameWork_pure () s t h

theorem sameWork_extendOut (bytes : List UInt8) :
    SameWork template (extendOut bytes : Gsub ι ε Unit) (extendOut bytes) := by
  rintro s t ⟨hout, htemplate, hclock, hworld⟩
  exact rel_modify ⟨rfl, by rw [hout], htemplate, hclock, hworld⟩

theorem sameWork_appendBytes (bytes : List UInt8) :
    SameWork template (appendBytes bytes : Gsub ι ε Unit) (appendBytes bytes) :=
  (sameWork_checkStringGrowth _).bind fun _ => (sameWork_onClock _).bind fun _ => sameWork_extendOut _

theorem sameWork_appendSubjectRange (subject : List UInt8) (start stop : Nat) :
    SameWork template (appendSubjectRange subject start stop : Gsub ι ε Unit)
      (appendSubjectRange subject start stop) := by
  refine (sameWork_checkStringGrowth _).bind fun _ => (sameWork_onClock _).bind fun _ => ?_
  refine SameWork.bind (fun s t h => rel_require Iff.rfl fun _ => ⟨rfl, h⟩) fun _ => ?_
  exact sameWork_extendOut _

theorem sameWork_appendCaptureBytes (subject : List UInt8) (capture : LuaCapture) :
    SameWork template (appendCaptureBytes subject capture : Gsub ι ε Unit)
      (appendCaptureBytes subject capture) := by
  cases capture with
  | bytes start stop => exact sameWork_appendSubjectRange subject start stop
  | position offset => exact sameWork_appendBytes _
  | unfinished => exact sameWork_fail _

theorem sameWork_appendEach (bytes : List UInt8) :
    SameWork template (appendEach bytes : Gsub ι ε Unit) (appendEach bytes) := by
  induction bytes with
  | nil => exact sameWork_pure ()
  | cons byte bytes ih => exact (sameWork_appendBytes _).bind fun _ => ih

theorem appendEach_append (bytes more : List UInt8) :
    (appendEach (bytes ++ more) : Gsub ι ε Unit) = appendEach bytes >>= fun _ => appendEach more := by
  induction bytes with
  | nil => rw [List.nil_append, appendEach, pure_bind]
  | cons byte bytes ih => rw [List.cons_append, appendEach, appendEach, ih, bind_assoc]

theorem appendEach_single (byte : UInt8) :
    (appendEach [byte] : Gsub ι ε Unit) = appendBytes [byte] := by
  rw [appendEach, appendEach]
  exact bind_pure_unit

/-- A byte that fits is appended if it is charged for. -/
theorem appendBytes_byte (byte : UInt8) (hfit : s.out.length + 1 ≤ MAX_STRING_BYTES) :
    (appendBytes [byte] : Gsub ι ε Unit) s =
      match s.clock.meter.consume s.clock.meter.unit with
      | (true, meter) => .ok () { s with out := s.out ++ [byte], clock := { s.clock with meter } }
      | (false, meter) => .fail .budgetExceeded { s with clock := { s.clock with meter } } := by
  have hcheck : (checkStringGrowth 1 : Gsub ι ε Unit) s = .ok () s := by
    rw [checkStringGrowth, run_get_bind, if_neg (by omega)]
    rfl
  rw [appendBytes]
  refine (run_bind_of_ok hcheck).trans ?_
  have hcharge := chargeOnce_one s.clock
  rcases hm : s.clock.meter.consume s.clock.meter.unit with ⟨_ | _, meter⟩
  · rw [hm] at hcharge
    have hclock : (onClock (chargeOnce 1) : Gsub ι ε Unit) s =
        .fail .budgetExceeded { s with clock := { s.clock with meter } } := by
      rw [onClock, hcharge]
      rfl
    exact run_bind_of_fail hclock
  · rw [hm] at hcharge
    have hclock : (onClock (chargeOnce 1) : Gsub ι ε Unit) s =
        .ok () { s with clock := { s.clock with meter } } := by
      rw [onClock, hcharge]
    exact run_bind_of_ok hclock

/-- Bytes that fit are appended up to the first that finds nothing left of the budget. -/
theorem appendEach_eq (hfit : s.out.length + bytes.length ≤ MAX_STRING_BYTES) :
    (appendEach bytes : Gsub ι ε Unit) s =
      let r := CostMeter.consumeEach s.clock.meter.unit bytes.length s.clock.meter
      if r.1 = bytes.length then
        .ok () { s with out := s.out ++ bytes, clock := { s.clock with meter := r.2 } }
      else .fail .budgetExceeded
        { s with out := s.out ++ bytes.take r.1, clock := { s.clock with meter := r.2 } } := by
  induction bytes generalizing s with
  | nil => simp [appendEach, CostMeter.consumeEach, run_pure_eq_ok]
  | cons byte bytes ih =>
    rw [List.length_cons] at hfit
    have hone := appendBytes_byte (ε := ε) byte (show s.out.length + 1 ≤ MAX_STRING_BYTES by omega)
    have hunit := s.clock.meter.unit_consume s.clock.meter.unit
    rw [appendEach, List.length_cons, CostMeter.consumeEach]
    rcases hm : s.clock.meter.consume s.clock.meter.unit with ⟨_ | _, meter⟩
    · rw [hm] at hone
      rw [run_bind_of_fail hone]
      simp
    · rw [hm] at hone hunit
      rw [run_bind_of_ok hone]
      have hrest := @ih { s with out := s.out ++ [byte], clock := { s.clock with meter } }
        (by rw [List.length_append, List.length_singleton]; omega)
      rw [hrest]
      simp only [show meter.unit = s.clock.meter.unit from hunit, Nat.succ.injEq, List.append_assoc,
        List.singleton_append, List.take_succ_cons]

/-- A run of literal bytes is appended as they are one after the other. -/
theorem sameWork_appendBytesUnits (bytes : List UInt8) :
    SameWork template (appendBytesUnits bytes : Gsub ι ε Unit) (appendEach bytes) := by
  rintro s t h
  have hrun : (appendBytesUnits bytes : Gsub ι ε Unit) s =
      (if MAX_STRING_BYTES < s.out.length + bytes.length then appendEach bytes
        else onClock (chargeUnits bytes.length) >>= fun _ => extendOut bytes : Gsub ι ε Unit) s := rfl
  by_cases hlong : MAX_STRING_BYTES < s.out.length + bytes.length
  · rw [if_pos hlong] at hrun
    rw [rel, hrun]
    exact sameWork_appendEach bytes s t h
  · have hfit := Nat.le_of_not_lt hlong
    have hn : bytes.length < 2 ^ 64 := by
      rw [MAX_STRING_BYTES] at hfit
      omega
    rw [if_neg hlong] at hrun
    have hcharge := chargeUnits_eq hn s.clock
    obtain ⟨hout, htemplate, hclock, hworld⟩ := h
    have heach := @appendEach_eq ι ε t bytes (hout ▸ hfit)
    rw [← hclock] at heach
    rw [rel, hrun, heach]
    by_cases hall : (CostMeter.consumeEach s.clock.meter.unit bytes.length s.clock.meter).1 = bytes.length
    · rw [if_pos hall] at hcharge
      have hok : (onClock (chargeUnits bytes.length) : Gsub ι ε Unit) s = .ok () { s with
          clock := { s.clock with
            meter := (CostMeter.consumeEach s.clock.meter.unit bytes.length s.clock.meter).2 } } := by
        rw [onClock, hcharge]
      rw [run_bind_of_ok hok]
      simp only [if_pos hall]
      exact ⟨trivial, by rw [hout], htemplate, rfl, hworld⟩
    · rw [if_neg hall] at hcharge
      have hfail : (onClock (chargeUnits bytes.length) : Gsub ι ε Unit) s =
          .fail .budgetExceeded { s with
            clock := { s.clock with
              meter := (CostMeter.consumeEach s.clock.meter.unit bytes.length s.clock.meter).2 } } := by
        rw [onClock, hcharge]
        rfl
      rw [run_bind_of_fail hfail]
      simp only [if_neg hall]
      exact ⟨trivial, rfl, hworld⟩

/-- The literal bytes read so far are a segment, or there are none. -/
theorem sameWork_flushLiteral {literal : List UInt8} {segments : List ReplSegment}
    {m : Gsub ι ε Unit} (h : SameWork template (appendSegments subject captures segments) m) :
    SameWork template (appendSegments subject captures (flushLiteral literal ++ segments))
      (appendEach literal >>= fun _ => m) := by
  rw [flushLiteral]
  split
  · rename_i hnil
    rw [hnil, List.nil_append, appendEach, pure_bind]
    exact h
  · exact (sameWork_appendBytesUnits literal).bind fun _ => h

variable {whole : LuaCapture} {rest : List LuaCapture}

/-- A reference means the same capture to the template and to a scan. -/
theorem replacementCapture_eq (index : Nat) :
    (replacementCapture (whole :: rest) index : Gsub ι ε LuaCapture) =
      scannedCapture (whole :: rest) index := by
  rw [replacementCapture, scannedCapture]
  by_cases hzero : index = 0
  · rw [if_pos (.inl hzero), if_pos hzero]
  rw [if_neg hzero]
  by_cases hone : index = 1
  · subst hone
    cases rest with
    | nil => rfl
    | cons capture rest =>
      rw [if_neg (by simp)]
      rfl
  · rw [if_neg (by simp [hzero, hone]), if_neg hone]

theorem sameWork_scannedCapture (index : Nat) :
    SameWork template (scannedCapture captures index : Gsub ι ε LuaCapture)
      (scannedCapture captures index) := by
  rw [scannedCapture]
  split
  · exact sameWork_demand
  split
  · exact sameWork_pure _
  split
  · exact sameWork_demand
  · exact sameWork_fail _

/-- The segments append the literal bytes read so far, and what a scan of the rest appends. -/
theorem sameWork_compileSegments (literal repl : List UInt8) :
    SameWork template
      (appendSegments subject (whole :: rest) (compileSegments literal repl) : Gsub ι ε Unit)
      (appendEach literal >>= fun _ => scanReplacement subject (whole :: rest) repl) := by
  have hlast : ∀ literal, SameWork template
      (appendSegments subject (whole :: rest) (flushLiteral literal) : Gsub ι ε Unit)
      (appendEach literal) := fun literal => by
    have := @sameWork_flushLiteral ι ε template subject (whole :: rest) literal [] (pure ())
      (sameWork_pure ())
    rwa [List.append_nil, bind_pure_unit] at this
  have hinvalid : ∀ literal, SameWork template
      (appendSegments subject (whole :: rest) (flushLiteral literal ++ [.invalidEscape]) : Gsub ι ε Unit)
      (appendEach literal >>= fun _ => fail .invalidGsubEscape) := fun literal =>
    sameWork_flushLiteral (sameWork_fail _)
  fun_induction compileSegments literal repl with
  | case1 literal =>
    rw [scanReplacement, bind_pure_unit]
    exact hlast literal
  | case2 literal =>
    rw [scanReplacement, if_pos rfl]
    exact hinvalid literal
  | case3 literal byte hb =>
    rw [scanReplacement, if_neg hb, ← appendEach_single, ← appendEach_append]
    exact hlast _
  | case4 literal rest' ih =>
    rw [scanReplacement, if_pos rfl, if_pos rfl, ← appendEach_single, ← bind_assoc, ← appendEach_append]
    exact ih
  | case5 literal next rest' hn hd ih =>
    rw [scanReplacement, if_pos rfl, if_neg hn, if_pos hd]
    refine sameWork_flushLiteral ?_
    rw [appendSegments, replacementCapture_eq]
    refine (sameWork_scannedCapture _).bind fun capture => ?_
    refine (sameWork_appendCaptureBytes subject capture).bind fun _ => ?_
    rw [appendEach, pure_bind] at ih
    exact ih
  | case6 literal next rest' hn hd =>
    rw [scanReplacement, if_pos rfl, if_neg hn, if_neg hd]
    exact hinvalid literal
  | case7 literal byte next rest' hb ih =>
    rw [scanReplacement, if_neg hb, ← appendEach_single, ← bind_assoc, ← appendEach_append]
    exact ih

/-- Scan a replacement string for a match, with one charge for its length. -/
def applyScan (repl subject : List UInt8) (captures : List LuaCapture) : Gsub ι ε Unit := do
  onClock (chargeOnce repl.length)
  scanReplacement subject captures repl

/-- The template of a replacement string is not compiled yet, or is the one it compiles to. -/
def Caches (repl : List UInt8) (template : Option ReplTemplate) : Prop :=
  template = none ∨ template = some (compileReplacementTemplate repl)

/-- A replacement string is applied to a match as it is scanned. -/
theorem rel_appendGsubReplacement {repl : List UInt8} (h : Alike template s t)
    (hc : Caches repl template) :
    rel (appendGsubReplacement (.string repl : Replacement ι ε) subject (whole :: rest))
      (applyScan repl subject (whole :: rest))
      (fun _ s _ t => Alike (some (compileReplacementTemplate repl)) s t) SameAccounting s t := by
  have hsegments : SameWork (some (compileReplacementTemplate repl))
      (appendSegments subject (whole :: rest) (compileReplacementTemplate repl).segments : Gsub ι ε Unit)
      (scanReplacement subject (whole :: rest) repl) := by
    have := @sameWork_compileSegments ι ε (some (compileReplacementTemplate repl)) subject whole rest
      [] repl
    rwa [appendEach, pure_bind] at this
  have htemplate := h.template
  rcases hc with rfl | rfl
  · -- The first match: the template is compiled.
    have hrun : (appendGsubReplacement (.string repl : Replacement ι ε) subject (whole :: rest)) s =
        (onClock (chargeOnce repl.length) >>= fun _ =>
          (modify fun s => { s with template := some (compileReplacementTemplate repl) }) >>= fun _ =>
            appendSegments subject (whole :: rest) (compileReplacementTemplate repl).segments :
              Gsub ι ε Unit) s := by
      rw [appendGsubReplacement, run_get_bind, htemplate]
      rfl
    rw [rel, hrun]
    refine rel_bind (rel_mono_ok (sameWork_onClock (chargeOnce repl.length) s t h) ?_)
    rintro _ s' _ t' ⟨-, hs'⟩
    have hcompiled : Alike (some (compileReplacementTemplate repl))
        { s' with template := some (compileReplacementTemplate repl) } t' :=
      ⟨hs'.out, rfl, hs'.clock, hs'.world⟩
    exact rel_mono_ok (hsegments _ t' hcompiled) fun _ _ _ _ h => h.2
  · have hrun : (appendGsubReplacement (.string repl : Replacement ι ε) subject (whole :: rest)) s =
        (onClock (chargeOnce repl.length) >>= fun _ =>
          appendSegments subject (whole :: rest) (compileReplacementTemplate repl).segments :
            Gsub ι ε Unit) s := by
      rw [appendGsubReplacement, run_get_bind, htemplate]
      rfl
    rw [rel, hrun]
    refine rel_bind (rel_mono_ok (sameWork_onClock (chargeOnce repl.length) s t h) ?_)
    rintro _ s' _ t' ⟨-, hs'⟩
    exact rel_mono_ok (hsegments _ t' hs') fun _ _ _ _ h => h.2

/-- Apply a replacement to one match after the other. -/
def applyEach (apply : List LuaCapture → Gsub ι ε Unit) : List (LuaCapture × List LuaCapture) → Gsub ι ε Unit
  | [] => return ()
  | (whole, captures) :: more => do
    apply (whole :: captures)
    applyEach apply more

theorem rel_applyEach {repl : List UInt8} {found : List (LuaCapture × List LuaCapture)}
    (h : Alike template s t) (hc : Caches repl template) :
    rel (applyEach (appendGsubReplacement (.string repl : Replacement ι ε) subject) found)
      (applyEach (applyScan repl subject) found)
      (fun _ s _ t => ∃ template, Caches repl template ∧ Alike template s t) SameAccounting s t := by
  induction found generalizing template s t with
  | nil => exact rel_pure ⟨template, hc, h⟩
  | cons first more ih =>
    refine rel_bind (rel_mono_ok (rel_appendGsubReplacement h hc) ?_)
    rintro _ s' _ t' hs'
    exact ih hs' (.inr rfl)

end Scans

/-- Whatever matches a replacement string is applied to, its template, compiled at the first one,
    appends the bytes that a scan of the string appends, and fails at the match and with the error
    where the scan fails, with the same accounting. -/
theorem templates_like_scans {ι ε : Type} (repl subject : List UInt8)
    (found : List (LuaCapture × List LuaCapture)) (out : List UInt8) (clock : Clock) (world : ι) :
    rel (applyEach (appendGsubReplacement (.string repl : Replacement ι ε) subject) found)
      (applyEach (applyScan repl subject) found)
      (fun _ s _ t => s.out = t.out ∧ s.clock = t.clock ∧ s.world = t.world)
      (fun s t => s.clock = t.clock ∧ s.world = t.world)
      ⟨out, none, clock, world⟩ ⟨out, none, clock, world⟩ := by
  refine rel_mono_ok (rel_applyEach ⟨rfl, rfl, rfl, rfl⟩ (.inl rfl)) ?_
  rintro _ s _ t ⟨_, -, hs⟩
  exact ⟨hs.out, hs.clock, hs.world⟩

end Dellingr
