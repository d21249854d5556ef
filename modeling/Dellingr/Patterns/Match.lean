import Dellingr.CostMeter
import Dellingr.Lib.Checked
import Dellingr.Lib.Effect
import Dellingr.Patterns.Compile

/-!
# Matching

A compiled pattern is matched by backtracking over its items. Every step polls the
interrupt of the host and charges the meter, so a match ends in an error where the
host or the budget stops it (`charge`). The slots of the captures are shared by all
start positions of a search and never cleared between them.

An index outside a subject or a table of slots, and a capture that would end before
it starts, are panics of the source and of this model. They do not occur, whatever
the pattern (`wp_matchesBytesFrom`): a match lies within the subject, after the
position the search starts at, and so do its captures.
-/

namespace Dellingr.Patterns

open Effect

/-- Why a match stops. -/
inductive MatchError
  | pattern (error : PatternError)
  | budgetExceeded
  /-- The host's interrupt was set at a matcher step. -/
  | interrupted
  deriving DecidableEq, Repr

/-- The length of a capture. -/
inductive CapLen
  | len (n : Nat)
  | unfinished
  | position
  deriving DecidableEq, Repr

/-- A capture slot. -/
structure Capture where
  init : Nat
  len : CapLen
  deriving DecidableEq, Repr

/-- A capture as a caller sees it. -/
inductive LuaCapture
  | bytes (start stop : Nat)
  | position (offset : Nat)
  /-- A parenthesis the match never closed. -/
  | unfinished
  deriving DecidableEq, Repr

abbrev CaptureSlots := List Capture

namespace CaptureSlots

def new : CaptureSlots := List.replicate luaMaxCaptures ⟨0, .len 0⟩

/-- The capture in a slot; there is none past the slots. -/
def get (slots : CaptureSlots) (index : Nat) : Option LuaCapture :=
  slots[index]?.map fun capture =>
    match capture.len with
    | .len n => .bytes capture.init (capture.init + n)
    | .position => .position capture.init
    | .unfinished => .unfinished

end CaptureSlots

/-- The meter a match charges, and how often it polled the interrupt. -/
structure Clock where
  meter : CostMeter
  polls : Nat

/-- The limit of the depth of a match. -/
def maxCCalls : Nat := 200

/-- What a search reads. The host may set the interrupt at any time: `interrupt n` is
    its value at the poll number `n`. -/
structure Search where
  subject : List UInt8
  pattern : CompiledPattern
  interrupt : Nat → Bool

/-- A matcher step: it changes the slots of the captures and the clock. -/
abbrev Matcher := Effect (CaptureSlots × Clock) MatchError

namespace Search

variable (S : Search)

/-- Take one step: poll the interrupt, then charge a unit. -/
def charge : Matcher Unit := do
  let (_, clock) ← get
  let requested := S.interrupt clock.polls
  modify fun (slots, clock) => (slots, { clock with polls := clock.polls + 1 })
  if requested then fail .interrupted
  else
    let (admitted, meter) := clock.meter.consumeUnitsAdmitted 1
    modify fun (slots, clock) => (slots, { clock with meter })
    if admitted = 1 then pure () else fail .budgetExceeded

/-- Whether a class of the pattern contains a byte. -/
def classContains (cls : Nat) (byte : UInt8) : Matcher Bool := do
  return (← demand S.pattern.classes[cls]?).contains byte

/-- One byte of the subject, if there is one, against a class. -/
def singlematchByte (byte : Option UInt8) (cls : Nat) : Matcher Bool := do
  S.charge
  match byte with
  | none => return false
  | some byte => S.classContains cls byte

def singlematch (pos cls : Nat) : Matcher Bool := S.singlematchByte S.subject[pos]? cls

/-- Look for the closing byte among the bytes from the cursor on. -/
def balanceLoop (opening closing : UInt8) : List UInt8 → Nat → Nat → Matcher (Option Nat)
  | [], _, _ => return none
  | byte :: rest, depth, cursor => do
    S.charge
    if byte = closing then
      if depth - 1 = 0 then return some (cursor + 1)
      else balanceLoop opening closing rest (depth - 1) (cursor + 1)
    else if byte = opening then balanceLoop opening closing rest (depth + 1) (cursor + 1)
    else balanceLoop opening closing rest depth (cursor + 1)

def matchBalance (pos : Nat) (opening closing : UInt8) : Matcher (Option Nat) := do
  S.charge
  if S.subject[pos]? = some opening then
    S.balanceLoop opening closing (S.subject.drop (pos + 1)) 1 (pos + 1)
  else return none

/-- The end of the longest run of bytes in a class, from the bytes at `stop` on. -/
def maxRun (cls : Nat) : List UInt8 → Nat → Matcher Nat
  | [], stop => do
    let _ ← S.singlematchByte none cls
    return stop
  | byte :: rest, stop => do
    if ← S.singlematchByte (some byte) cls then maxRun cls rest (stop + 1) else return stop

/-- Match what follows a run that starts at `pos`, giving back its bytes one at a time. -/
def giveBack (recurse : Nat → Matcher (Option Nat)) (pos : Nat) : Nat → Matcher (Option Nat)
  | 0 => recurse pos
  | n + 1 => do
    match ← recurse (pos + n + 1) with
    | some result => return some result
    | none => giveBack recurse pos n

def maxExpand (recurse : Nat → Matcher (Option Nat)) (pos cls : Nat) : Matcher (Option Nat) := do
  let stop ← S.maxRun cls (S.subject.drop pos) pos
  giveBack recurse pos (stop - pos)

/-- Match what follows as early as possible, from the bytes at `pos` on. -/
def minLoop (recurse : Nat → Matcher (Option Nat)) (cls : Nat) :
    List UInt8 → Nat → Matcher (Option Nat)
  | [], pos => do
    match ← recurse pos with
    | some result => return some result
    | none =>
      let _ ← S.singlematchByte none cls
      return none
  | byte :: rest, pos => do
    match ← recurse pos with
    | some result => return some result
    | none =>
      if ← S.singlematchByte (some byte) cls then minLoop recurse cls rest (pos + 1)
      else return none

def minExpand (recurse : Nat → Matcher (Option Nat)) (pos cls : Nat) : Matcher (Option Nat) :=
  S.minLoop recurse cls (S.subject.drop pos) pos

/-- Compare so many bytes of the subject at `pos` with those of a capture at `init`. -/
def sameBytes : Nat → Nat → Nat → Matcher Bool
  | _, _, 0 => return true
  | init, pos, n + 1 => do
    match S.subject[pos]? with
    | none => return false
    | some byte =>
      S.charge
      let captured ← demand S.subject[init]?
      if captured ≠ byte then return false else sameBytes (init + 1) (pos + 1) n

/-- Store a capture in its slot. -/
def setCapture (slot : Nat) (capture : Capture) : Matcher Unit := do
  let (slots, _) ← get
  require (slot < slots.length)
  modify fun (slots, clock) => (slots.set slot capture, clock)

/-- The capture in a slot. -/
def getCapture (slot : Nat) : Matcher Capture := do
  let (slots, _) ← get
  demand slots[slot]?

/-- Match items from a position on. The source recurses with the index of the item to
    match next, and checks the depth of its recursion on entry. -/
def matchItems : List Item → Nat → Nat → Matcher (Option Nat)
  | [], pos, _ => do
    S.charge
    return some pos
  | item :: rest, pos, depth => do
    S.charge
    let recurse (pos : Nat) : Matcher (Option Nat) :=
      if maxCCalls ≤ depth + 1 then fail (.pattern .matchDepthExceeded)
      else matchItems rest pos (depth + 1)
    match item with
    | .captureStart slot =>
      setCapture slot ⟨pos, .unfinished⟩
      recurse pos
    | .captureEnd slot =>
      let capture ← getCapture slot
      let n ← demand (checkedSub pos capture.init)
      setCapture slot { capture with len := .len n }
      recurse pos
    | .positionCapture slot =>
      setCapture slot ⟨pos, .position⟩
      recurse pos
    | .balance opening closing =>
      match ← S.matchBalance pos opening closing with
      | some next => matchItems rest next depth
      | none => return none
    | .frontier cls =>
      let previous := if pos = 0 then 0 else S.subject[pos - 1]?.getD 0
      let current := S.subject[pos]?.getD 0
      if (← S.classContains cls previous) || !(← S.classContains cls current) then return none
      else matchItems rest pos depth
    | .backref slot =>
      let capture ← getCapture slot
      match capture.len with
      | .len n =>
        if ← S.sameBytes capture.init pos n then matchItems rest (pos + n) depth else return none
      | .position => return none
      | .unfinished => fail (.pattern (.invalidCaptureIndex slot))
    | .endAnchor => return if pos = S.subject.length then some pos else none
    | .fail error => fail (.pattern error)
    | .atom cls .one =>
      if ← S.singlematch pos cls then matchItems rest (pos + 1) depth else return none
    | .atom cls .optional =>
      if ← S.singlematch pos cls then
        match ← recurse (pos + 1) with
        | some result => return some result
        | none => matchItems rest pos depth
      else matchItems rest pos depth
    | .atom cls .zeroOrMoreGreedy =>
      if ← S.singlematch pos cls then S.maxExpand recurse pos cls
      else matchItems rest pos depth
    | .atom cls .oneOrMoreGreedy =>
      if ← S.singlematch pos cls then S.maxExpand recurse (pos + 1) cls else return none
    | .atom cls .zeroOrMoreMinimal =>
      if ← S.singlematch pos cls then S.minExpand recurse pos cls
      else matchItems rest pos depth

def matchAt (pos : Nat) : Matcher (Option Nat) := S.matchItems S.pattern.items pos 0

/-- Try the start positions from `pos` on, with so many bytes of the subject after it. A
    search that starts past the end of the subject would not stop. -/
def searchLoop : Nat → Nat → Matcher (Option (Nat × Nat))
  | n, pos => do
    match ← S.matchAt pos with
    | some stop => return some (pos, stop)
    | none =>
      if S.pattern.anchored ∨ pos = S.subject.length then return none
      else
        match n with
        | 0 => panic
        | n + 1 => searchLoop n (pos + 1)

/-- Search from a position on. The slots of a match are copied out; a search that finds
    none leaves them as they were. -/
def strMatch (init : Nat) (captures : CaptureSlots) :
    Effect Clock MatchError (Option (Nat × Nat) × CaptureSlots) :=
  -- A pattern without items matches without a step.
  if S.pattern.items = [] then return (some (init, init), captures)
  else do
    let (found, slots) ← withLocal .new (S.searchLoop (S.subject.length - init) init)
    match found with
    | some range =>
      let published := S.pattern.captures
      require (published ≤ slots.length ∧ published ≤ captures.length)
      return (some range, slots.take published ++ captures.drop published)
    | none => return (none, captures)

end Search

/-! ## The matcher -/

/-- A compiled pattern and the captures of the latest match. -/
structure LuaPattern where
  compiled : CompiledPattern
  slots : CaptureSlots
  whole : Nat × Nat
  nMatch : Nat

namespace LuaPattern

def fromCompiled (compiled : CompiledPattern) : LuaPattern := ⟨compiled, .new, (0, 0), 0⟩

/-- Match the subject, beginning the search at `init`. -/
def matchesBytesFrom (m : LuaPattern) (subject : List UInt8) (init : Nat) (interrupt : Nat → Bool) :
    Effect Clock MatchError (Bool × LuaPattern) := do
  match ← Search.strMatch ⟨subject, m.compiled, interrupt⟩ init m.slots with
  | (none, slots) => return (false, { m with slots, nMatch := 0 })
  | (some whole, slots) =>
    return (true, { m with slots, whole, nMatch := m.compiled.captures + 1 })

/-- The range of the latest match; there is none when it failed. -/
def range (m : LuaPattern) : Option (Nat × Nat) := if 0 < m.nMatch then some m.whole else none

/-- A capture of the latest match, 0 being the whole match. -/
def capture (m : LuaPattern) (i : Nat) : Option LuaCapture :=
  if i < m.nMatch then
    match i with
    | 0 => some (.bytes m.whole.1 m.whole.2)
    | i + 1 => m.slots.get i
  else none

end LuaPattern

/-! ## Where a match lies -/

namespace Search

variable {S : Search} {slots : CaptureSlots} {clock : Clock} {inits : Nat → Nat}
  {started pos lo cls : Nat}

/-- The slots below `started` hold captures that start at `inits`, and end within the
    subject. Backtracking keeps the starts and may leave other ends behind. -/
structure Holds (S : Search) (inits : Nat → Nat) (started : Nat) (slots : CaptureSlots) : Prop where
  length : slots.length = luaMaxCaptures
  capture : ∀ slot < started, ∃ len, slots[slot]? = some ⟨inits slot, len⟩ ∧
    ∀ n, len = .len n → inits slot + n ≤ S.subject.length

/-- How matching from `lo` on may end. -/
def Ends (S : Search) (inits : Nat → Nat) (started lo : Nat) (r : Option Nat)
    (s : CaptureSlots × Clock) : Prop :=
  match r with
  | none => S.Holds inits started s.1
  | some stop => lo ≤ stop ∧ stop ≤ S.subject.length ∧
    ∃ inits, S.Holds inits S.pattern.captures s.1 ∧
      ∀ slot < S.pattern.captures, inits slot ≤ S.subject.length

theorem Ends.mono {r : Option Nat} {s : CaptureSlots × Clock} (h : S.Ends inits started pos r s)
    (hlo : lo ≤ pos) : S.Ends inits started lo r s := by
  cases r with
  | none => exact h
  | some stop => exact ⟨Nat.le_trans hlo h.1, h.2⟩

theorem wp_charge {Q : Unit → CaptureSlots × Clock → Prop} (h : ∀ clock, Q () (slots, clock)) :
    wp S.charge Q (fun _ _ => True) (slots, clock) := by
  simp only [charge, wp_bind, wp_get, wp_modify]
  split
  · simp
  · simp only [wp_bind, wp_modify]
    split
    · exact h _
    · simp

theorem wp_classContains {byte : UInt8} {Q : Bool → CaptureSlots × Clock → Prop}
    (hc : cls < S.pattern.classes.length) (h : ∀ b, Q b (slots, clock)) :
    wp (S.classContains cls byte) Q (fun _ _ => True) (slots, clock) := by
  simp only [classContains, wp_bind, wp_demand (List.getElem?_eq_getElem hc), wp_pure]
  exact h _

theorem wp_singlematchByte {byte : Option UInt8} {Q : Bool → CaptureSlots × Clock → Prop}
    (hc : cls < S.pattern.classes.length)
    (h : ∀ b clock, (b = true → byte ≠ none) → Q b (slots, clock)) :
    wp (S.singlematchByte byte cls) Q (fun _ _ => True) (slots, clock) := by
  simp only [singlematchByte, wp_bind]
  apply wp_charge
  intro clock
  cases byte with
  | none => exact h false clock (by simp)
  | some byte => exact wp_classContains hc fun b => h b clock (by simp)

theorem wp_singlematch {Q : Bool → CaptureSlots × Clock → Prop}
    (hc : cls < S.pattern.classes.length)
    (h : ∀ b clock, (b = true → pos < S.subject.length) → Q b (slots, clock)) :
    wp (S.singlematch pos cls) Q (fun _ _ => True) (slots, clock) := by
  refine wp_singlematchByte hc fun b clock hb => h b clock fun ht => ?_
  by_contra hge
  exact hb ht (List.getElem?_eq_none (by omega))

theorem wp_balanceLoop {opening closing : UInt8} {rest : List UInt8} {depth cursor : Nat}
    {Q : Option Nat → CaptureSlots × Clock → Prop}
    (h : ∀ r clock, (∀ stop, r = some stop → cursor ≤ stop ∧ stop ≤ cursor + rest.length) →
      Q r (slots, clock)) :
    wp (S.balanceLoop opening closing rest depth cursor) Q (fun _ _ => True) (slots, clock) := by
  induction rest generalizing depth cursor clock with
  | nil => exact h none clock (by simp)
  | cons byte rest ih =>
    have hnext : ∀ r clock, (∀ stop, r = some stop → cursor + 1 ≤ stop ∧
        stop ≤ cursor + 1 + rest.length) → Q r (slots, clock) := by
      intro r clock hr
      refine h r clock fun stop hs => ?_
      have := hr stop hs
      simp only [List.length_cons]
      omega
    rw [balanceLoop, wp_bind]
    apply wp_charge
    intro clock
    split
    · split
      · refine h _ clock ?_
        rintro stop ⟨⟩
        simp only [List.length_cons]
        omega
      · exact ih hnext
    · split
      · exact ih hnext
      · exact ih hnext

theorem wp_matchBalance {opening closing : UInt8} {Q : Option Nat → CaptureSlots × Clock → Prop}
    (h : ∀ r clock, (∀ stop, r = some stop → pos ≤ stop ∧ stop ≤ S.subject.length) →
      Q r (slots, clock)) :
    wp (S.matchBalance pos opening closing) Q (fun _ _ => True) (slots, clock) := by
  rw [matchBalance, wp_bind]
  apply wp_charge
  intro clock
  split
  · rename_i hb
    have hlt := (List.getElem?_eq_some_iff.1 hb).1
    refine wp_balanceLoop fun r clock hr => h r clock fun stop hs => ?_
    have := hr stop hs
    rw [List.length_drop] at this
    omega
  · exact h none clock (by simp)

theorem wp_maxRun {rest : List UInt8} {stop : Nat} {Q : Nat → CaptureSlots × Clock → Prop}
    (hc : cls < S.pattern.classes.length)
    (h : ∀ r clock, stop ≤ r → r ≤ stop + rest.length → Q r (slots, clock)) :
    wp (S.maxRun cls rest stop) Q (fun _ _ => True) (slots, clock) := by
  induction rest generalizing stop clock with
  | nil =>
    rw [maxRun, wp_bind]
    exact wp_singlematchByte hc fun _ clock _ => h stop clock (Nat.le_refl _) (Nat.le_refl _)
  | cons byte rest ih =>
    rw [maxRun, wp_bind]
    refine wp_singlematchByte hc fun b clock _ => ?_
    split
    · refine ih fun r clock h₁ h₂ => h r clock (by omega) ?_
      simp only [List.length_cons]
      omega
    · exact h stop clock (Nat.le_refl _) (Nat.le_add_right _ _)

theorem wp_sameBytes {init n : Nat} {Q : Bool → CaptureSlots × Clock → Prop}
    (hi : init + n ≤ S.subject.length)
    (h : ∀ b clock, (b = true → pos + n ≤ S.subject.length ∨ n = 0) → Q b (slots, clock)) :
    wp (S.sameBytes init pos n) Q (fun _ _ => True) (slots, clock) := by
  induction n generalizing init pos clock with
  | zero => exact h true clock fun _ => .inr rfl
  | succ n ih =>
    rw [sameBytes]
    split
    · exact h false clock (by simp)
    · rename_i byte hb
      have hlt := (List.getElem?_eq_some_iff.1 hb).1
      rw [wp_bind]
      apply wp_charge
      intro clock
      rw [wp_bind, wp_demand (List.getElem?_eq_getElem (show init < S.subject.length by omega))]
      split
      · exact h false clock (by simp)
      · refine ih (by omega) fun b clock hb => h b clock fun ht => .inl ?_
        rcases hb ht with hle | rfl
        · omega
        · omega

/-- What a continuation is known to do from the positions at `lo` and after. -/
def Continues (S : Search) (inits : Nat → Nat) (started lo : Nat)
    (recurse : Nat → Matcher (Option Nat)) : Prop :=
  ∀ pos slots clock, lo ≤ pos → pos ≤ S.subject.length → S.Holds inits started slots →
    wp (recurse pos) (S.Ends inits started lo) (fun _ _ => True) (slots, clock)

variable {recurse : Nat → Matcher (Option Nat)}

theorem wp_giveBack (hr : S.Continues inits started lo recurse) (hw : S.Holds inits started slots)
    {n : Nat} (hlo : lo ≤ pos) (hn : pos + n ≤ S.subject.length) :
    wp (giveBack recurse pos n) (S.Ends inits started lo) (fun _ _ => True) (slots, clock) := by
  induction n generalizing slots clock with
  | zero => exact hr pos slots clock hlo hn hw
  | succ n ih =>
    rw [giveBack, wp_bind]
    refine wp_mono_ok (hr _ slots clock (by omega) hn hw) fun r s hs => ?_
    cases r with
    | some stop => exact hs
    | none => exact ih hs (by omega)

theorem wp_maxExpand (hc : cls < S.pattern.classes.length)
    (hr : S.Continues inits started lo recurse) (hw : S.Holds inits started slots)
    (hlo : lo ≤ pos) (hp : pos ≤ S.subject.length) :
    wp (S.maxExpand recurse pos cls) (S.Ends inits started lo) (fun _ _ => True)
      (slots, clock) := by
  rw [maxExpand, wp_bind]
  refine wp_maxRun hc fun stop clock h₁ h₂ => ?_
  rw [List.length_drop] at h₂
  exact wp_giveBack hr hw hlo (by omega)

theorem wp_minLoop (hc : cls < S.pattern.classes.length)
    (hr : S.Continues inits started lo recurse) (hw : S.Holds inits started slots)
    {rest : List UInt8} (hlo : lo ≤ pos) (hp : pos + rest.length ≤ S.subject.length) :
    wp (S.minLoop recurse cls rest pos) (S.Ends inits started lo) (fun _ _ => True)
      (slots, clock) := by
  induction rest generalizing pos slots clock with
  | nil =>
    rw [minLoop, wp_bind]
    refine wp_mono_ok (hr pos slots clock hlo hp hw) fun r s hs => ?_
    cases r with
    | some stop => exact hs
    | none =>
      rw [wp_bind]
      exact wp_singlematchByte hc fun _ clock _ => hs
  | cons byte rest ih =>
    rw [List.length_cons] at hp
    rw [minLoop, wp_bind]
    refine wp_mono_ok (hr pos slots clock hlo (by omega) hw) fun r s hs => ?_
    cases r with
    | some stop => exact hs
    | none =>
      rw [wp_bind]
      refine wp_singlematchByte hc fun b clock _ => ?_
      split
      · exact ih hs (by omega) (by omega)
      · exact hs

theorem wp_minExpand (hc : cls < S.pattern.classes.length)
    (hr : S.Continues inits started lo recurse) (hw : S.Holds inits started slots)
    (hlo : lo ≤ pos) (hp : pos ≤ S.subject.length) :
    wp (S.minExpand recurse pos cls) (S.Ends inits started lo) (fun _ _ => True)
      (slots, clock) := by
  refine wp_minLoop hc hr hw hlo ?_
  rw [List.length_drop]
  omega

/-! ### The slots -/

theorem Holds.of_succ (h : S.Holds (Function.update inits started pos) (started + 1) slots) :
    S.Holds inits started slots where
  length := h.length
  capture slot hs := by
    have := h.capture slot (by omega)
    rwa [Function.update_of_ne (by omega)] at this

/-- A capture is started in the next slot. -/
theorem Holds.start (h : S.Holds inits started slots) (hlt : started < luaMaxCaptures) {len : CapLen}
    (hlen : ∀ n, len ≠ .len n) :
    S.Holds (Function.update inits started pos) (started + 1) (slots.set started ⟨pos, len⟩) where
  length := by rw [List.length_set, h.length]
  capture slot hs := by
    by_cases heq : slot = started
    · subst heq
      refine ⟨len, ?_, fun n hn => absurd hn (hlen n)⟩
      rw [Function.update_self, List.getElem?_set_self (h.length ▸ hlt)]
    · rw [Function.update_of_ne heq, List.getElem?_set_ne (Ne.symm heq)]
      exact h.capture slot (by omega)

/-- A capture is ended within the subject. -/
theorem Holds.finish (h : S.Holds inits started slots) {slot n : Nat} (hs : slot < slots.length)
    (hn : inits slot + n ≤ S.subject.length) :
    S.Holds inits started (slots.set slot ⟨inits slot, .len n⟩) where
  length := by rw [List.length_set, h.length]
  capture other ho := by
    by_cases heq : other = slot
    · subst heq
      refine ⟨.len n, ?_, ?_⟩
      · rw [List.getElem?_set_self hs]
      · rintro m ⟨⟩
        exact hn
    · rw [List.getElem?_set_ne (Ne.symm heq)]
      exact h.capture other ho

theorem Ends.of_succ {r : Option Nat} {s : CaptureSlots × Clock}
    (h : S.Ends (Function.update inits started pos) (started + 1) lo r s) :
    S.Ends inits started lo r s := by
  cases r with
  | none => exact Holds.of_succ h
  | some stop => exact h

theorem wp_setCapture {slot : Nat} {capture : Capture} {Q : Unit → CaptureSlots × Clock → Prop}
    {E : MatchError → CaptureSlots × Clock → Prop} (hs : slot < slots.length)
    (h : Q () (slots.set slot capture, clock)) : wp (setCapture slot capture) Q E (slots, clock) := by
  simp only [setCapture, wp_bind, wp_get, wp_require hs, wp_modify]
  exact h

theorem wp_getCapture {slot : Nat} {capture : Capture} {Q : Capture → CaptureSlots × Clock → Prop}
    {E : MatchError → CaptureSlots × Clock → Prop} (hs : slots[slot]? = some capture)
    (h : Q capture (slots, clock)) : wp (getCapture slot) Q E (slots, clock) := by
  simp only [getCapture, wp_bind, wp_get, wp_demand hs]
  exact h

theorem updated_le (hi : ∀ slot < started, inits slot ≤ pos) :
    ∀ slot < started + 1, Function.update inits started pos slot ≤ pos := by
  intro slot hs
  by_cases heq : slot = started
  · exact Nat.le_of_eq (by rw [heq, Function.update_self])
  · rw [Function.update_of_ne heq]
    exact hi slot (by omega)

/-! ### Matches -/

/-- Matching items in scope, from a position that no capture starts after, does not
    panic, and ends within the subject. -/
theorem wp_matchItems {items : List Item} {depth : Nat}
    (hs : Scoped S.pattern.classes.length S.pattern.captures started items)
    (hi : ∀ slot < started, inits slot ≤ pos) (hp : pos ≤ S.subject.length)
    (hw : S.Holds inits started slots) :
    wp (S.matchItems items pos depth) (S.Ends inits started pos) (fun _ _ => True)
      (slots, clock) := by
  induction items generalizing started inits pos depth slots clock with
  | nil =>
    cases hs
    rw [matchItems, wp_bind]
    apply wp_charge
    intro clock
    exact ⟨Nat.le_refl _, hp, inits, hw, fun slot h => Nat.le_trans (hi slot h) hp⟩
  | cons item rest ih =>
    simp only [matchItems, wp_bind]
    apply wp_charge
    intro clock
    cases hs with
    | fail => simp
    | cons hscope hend hrest =>
      rename_i s
      -- The rest of the items, matched one level deeper.
      have hrec : ∀ {inits pos}, (∀ slot < s, inits slot ≤ pos) →
          S.Continues inits s pos fun pos =>
            if maxCCalls ≤ depth + 1 then fail (.pattern .matchDepthExceeded)
            else S.matchItems rest pos (depth + 1) := by
        intro inits lo hi pos slots clock hlo hp hw
        apply wp_ite
        · intro _
          simp
        · intro _
          exact wp_mono_ok (ih hrest (fun slot h => Nat.le_trans (hi slot h) hlo) hp hw)
            fun r s hs => hs.mono hlo
      cases item with
      | captureStart slot =>
        simp only [Item.scope, Option.ite_none_right_eq_some, Option.some.injEq] at hscope
        obtain ⟨⟨rfl, hlt⟩, rfl⟩ := hscope
        rw [wp_bind]
        refine wp_setCapture (hw.length ▸ hlt) ?_
        exact wp_mono_ok (hrec (updated_le hi) pos _ clock (Nat.le_refl _) hp
          (hw.start hlt (by simp))) fun r s hs => hs.of_succ
      | positionCapture slot =>
        simp only [Item.scope, Option.ite_none_right_eq_some, Option.some.injEq] at hscope
        obtain ⟨⟨rfl, hlt⟩, rfl⟩ := hscope
        rw [wp_bind]
        refine wp_setCapture (hw.length ▸ hlt) ?_
        exact wp_mono_ok (hrec (updated_le hi) pos _ clock (Nat.le_refl _) hp
          (hw.start hlt (by simp))) fun r s hs => hs.of_succ
      | captureEnd slot =>
        simp only [Item.scope, Option.ite_none_right_eq_some, Option.some.injEq] at hscope
        obtain ⟨hlt, rfl⟩ := hscope
        obtain ⟨len, hget, -⟩ := hw.capture slot hlt
        have hle := hi slot hlt
        rw [wp_bind]
        refine wp_getCapture hget ?_
        rw [wp_bind, wp_demand (checkedSub_of_le hle), wp_bind]
        have hslot := (List.getElem?_eq_some_iff.1 hget).1
        refine wp_setCapture hslot ?_
        exact hrec hi pos _ clock (Nat.le_refl _) hp (hw.finish hslot (by omega))
      | balance opening closing =>
        simp only [Item.scope, Option.some.injEq] at hscope
        subst hscope
        rw [wp_bind]
        refine wp_matchBalance fun r clock hr => ?_
        cases r with
        | none => exact hw
        | some next =>
          obtain ⟨h₁, h₂⟩ := hr next rfl
          exact wp_mono_ok (ih hrest (fun slot h => Nat.le_trans (hi slot h) h₁) h₂ hw)
            fun r s hs => hs.mono h₁
      | frontier cls =>
        simp only [Item.scope, Option.ite_none_right_eq_some, Option.some.injEq] at hscope
        obtain ⟨hc, rfl⟩ := hscope
        rw [wp_bind]
        refine wp_classContains hc fun b₁ => ?_
        rw [wp_bind]
        refine wp_classContains hc fun b₂ => ?_
        apply wp_ite
        · intro _
          exact hw
        · intro _
          exact ih hrest hi hp hw
      | backref slot =>
        simp only [Item.scope, Option.ite_none_right_eq_some, Option.some.injEq] at hscope
        obtain ⟨hlt, rfl⟩ := hscope
        obtain ⟨len, hget, hlen⟩ := hw.capture slot hlt
        rw [wp_bind]
        refine wp_getCapture hget ?_
        cases len with
        | position => exact hw
        | unfinished => simp
        | len n =>
          simp only [wp_bind]
          refine wp_sameBytes (hlen n rfl) fun b clock hb => ?_
          apply wp_ite
          · intro ht
            have hle : pos + n ≤ S.subject.length := by
              rcases hb ht with h | rfl
              · exact h
              · exact hp
            exact wp_mono_ok (ih hrest (fun slot h => Nat.le_trans (hi slot h) (by omega)) hle hw)
              fun r s hs => hs.mono (by omega)
          · intro _
            exact hw
      | endAnchor =>
        obtain rfl := hend rfl
        simp only [Item.scope, Option.some.injEq] at hscope
        subst hscope
        cases hrest
        rw [wp_pure]
        split
        · exact ⟨Nat.le_refl _, hp, inits, hw, fun slot h => Nat.le_trans (hi slot h) hp⟩
        · exact hw
      | fail error => simp
      | atom cls rep =>
        simp only [Item.scope, Option.ite_none_right_eq_some, Option.some.injEq] at hscope
        obtain ⟨hc, rfl⟩ := hscope
        have hstay : ∀ clock, wp (S.matchItems rest pos depth) (S.Ends inits started pos)
            (fun _ _ => True) (slots, clock) := fun clock => ih hrest hi hp hw
        cases rep with
        | one =>
          rw [wp_bind]
          refine wp_singlematch hc fun b clock hb => ?_
          apply wp_ite
          · intro ht
            exact wp_mono_ok (ih hrest (fun slot h => Nat.le_trans (hi slot h) (by omega)) (hb ht) hw)
              fun r s hs => hs.mono (by omega)
          · intro _
            exact hw
        | optional =>
          rw [wp_bind]
          refine wp_singlematch hc fun b clock hb => ?_
          apply wp_ite
          · intro ht
            rw [wp_bind]
            refine wp_mono_ok (hrec hi (pos + 1) slots clock (by omega) (hb ht) hw) fun r s hs => ?_
            cases r with
            | some stop => exact hs
            | none => exact ih hrest hi hp hs
          · intro _
            exact hstay clock
        | zeroOrMoreGreedy =>
          rw [wp_bind]
          refine wp_singlematch hc fun b clock hb => ?_
          apply wp_ite
          · intro _
            exact wp_maxExpand hc (hrec hi) hw (Nat.le_refl _) hp
          · intro _
            exact hstay clock
        | oneOrMoreGreedy =>
          rw [wp_bind]
          refine wp_singlematch hc fun b clock hb => ?_
          apply wp_ite
          · intro ht
            exact wp_maxExpand hc (hrec hi) hw (by omega) (hb ht)
          · intro _
            exact hw
        | zeroOrMoreMinimal =>
          rw [wp_bind]
          refine wp_singlematch hc fun b clock hb => ?_
          apply wp_ite
          · intro _
            exact wp_minExpand hc (hrec hi) hw (Nat.le_refl _) hp
          · intro _
            exact hstay clock

/-- A pattern in scope. -/
def PatternOk (p : CompiledPattern) : Prop :=
  Scoped p.classes.length p.captures 0 p.items ∧ p.captures ≤ luaMaxCaptures

/-- A search within the subject stops, and finds a match from its start on. -/
theorem wp_searchLoop (hs : PatternOk S.pattern) {n : Nat} (hn : pos + n = S.subject.length)
    (hw : S.Holds inits 0 slots) :
    wp (S.searchLoop n pos) (fun r s => ∀ start stop, r = some (start, stop) →
        pos ≤ start ∧ S.Ends inits 0 start (some stop) s) (fun _ _ => True) (slots, clock) := by
  induction n generalizing pos slots clock with
  | zero =>
    rw [searchLoop, wp_bind]
    refine wp_mono_ok (wp_matchItems hs.1 (by simp) (by omega) hw) fun r s hs => ?_
    cases r with
    | some stop =>
      rintro _ _ ⟨⟩
      exact ⟨Nat.le_refl _, hs⟩
    | none =>
      apply wp_ite
      · rintro _ _ _ ⟨⟩
      · intro hne
        exact absurd (.inr hn) hne
  | succ n ih =>
    rw [searchLoop, wp_bind]
    refine wp_mono_ok (wp_matchItems hs.1 (by simp) (by omega) hw) fun r s hr => ?_
    cases r with
    | some stop =>
      rintro _ _ ⟨⟩
      exact ⟨Nat.le_refl _, hr⟩
    | none =>
      apply wp_ite
      · rintro _ _ _ ⟨⟩
      · intro _
        refine wp_mono_ok (ih (by omega) hr) fun r s h start stop hr => ?_
        obtain ⟨hle, hends⟩ := h start stop hr
        exact ⟨by omega, hends⟩

/-! ### Every match ends -/

theorem settles_charge : Settles S.charge :=
  settles_get.bind fun _ => settles_modify.bind fun _ =>
    settles_fail.ite (settles_modify.bind fun _ => settles_pure.ite settles_fail)

theorem settles_singlematchByte {byte : Option UInt8} : Settles (S.singlematchByte byte cls) := by
  refine settles_charge.bind fun _ => ?_
  cases byte with
  | none => exact settles_pure
  | some byte => exact settles_demand.bind fun _ => settles_pure

theorem settles_balanceLoop {opening closing : UInt8} {rest : List UInt8} {depth cursor : Nat} :
    Settles (S.balanceLoop opening closing rest depth cursor) := by
  induction rest generalizing depth cursor with
  | nil => exact settles_pure
  | cons byte rest ih =>
    exact settles_charge.bind fun _ => (settles_pure.ite ih).ite (ih.ite ih)

theorem settles_maxRun {rest : List UInt8} {stop : Nat} : Settles (S.maxRun cls rest stop) := by
  induction rest generalizing stop with
  | nil => exact settles_singlematchByte.bind fun _ => settles_pure
  | cons byte rest ih => exact settles_singlematchByte.bind fun _ => ih.ite settles_pure

theorem settles_sameBytes {init n : Nat} : Settles (S.sameBytes init pos n) := by
  induction n generalizing init pos with
  | zero => exact settles_pure
  | succ n ih =>
    rw [sameBytes]
    cases S.subject[pos]? with
    | none => exact settles_pure
    | some byte =>
      exact settles_charge.bind fun _ => settles_demand.bind fun _ => settles_pure.ite ih

theorem settles_giveBack (hr : ∀ pos, Settles (recurse pos)) {n : Nat} :
    Settles (giveBack recurse pos n) := by
  induction n with
  | zero => exact hr pos
  | succ n ih =>
    refine (hr _).bind fun r => ?_
    cases r with
    | some stop => exact settles_pure
    | none => exact ih

theorem settles_minLoop (hr : ∀ pos, Settles (recurse pos)) {rest : List UInt8} :
    Settles (S.minLoop recurse cls rest pos) := by
  induction rest generalizing pos with
  | nil =>
    refine (hr _).bind fun r => ?_
    cases r with
    | some stop => exact settles_pure
    | none => exact settles_singlematchByte.bind fun _ => settles_pure
  | cons byte rest ih =>
    refine (hr _).bind fun r => ?_
    cases r with
    | some stop => exact settles_pure
    | none => exact settles_singlematchByte.bind fun _ => ih.ite settles_pure

theorem settles_setCapture {slot : Nat} {capture : Capture} : Settles (setCapture slot capture) :=
  settles_get.bind fun _ => settles_require.bind fun _ => settles_modify

theorem settles_getCapture {slot : Nat} : Settles (getCapture slot) :=
  settles_get.bind fun _ => settles_demand

theorem settles_matchItems {items : List Item} {depth : Nat} :
    Settles (S.matchItems items pos depth) := by
  induction items generalizing pos depth with
  | nil => exact settles_charge.bind fun _ => settles_pure
  | cons item rest ih =>
    have hrec : ∀ pos, Settles (if maxCCalls ≤ depth + 1 then fail (.pattern .matchDepthExceeded)
        else S.matchItems rest pos (depth + 1)) := fun pos => settles_fail.ite ih
    simp only [matchItems]
    refine settles_charge.bind fun _ => ?_
    cases item with
    | captureStart | positionCapture => exact settles_setCapture.bind fun _ => hrec pos
    | captureEnd =>
      exact settles_getCapture.bind fun _ => settles_demand.bind fun _ =>
        settles_setCapture.bind fun _ => hrec pos
    | balance =>
      refine (settles_charge.bind fun _ => settles_balanceLoop.ite settles_pure).bind fun r => ?_
      cases r with
      | some next => exact ih
      | none => exact settles_pure
    | frontier =>
      exact (settles_demand.bind fun _ => settles_pure).bind fun _ =>
        (settles_demand.bind fun _ => settles_pure).bind fun _ => settles_pure.ite ih
    | backref =>
      refine settles_getCapture.bind fun capture => ?_
      cases capture.len with
      | len n => exact settles_sameBytes.bind fun _ => ih.ite settles_pure
      | position => exact settles_pure
      | unfinished => exact settles_fail
    | endAnchor => exact settles_pure
    | fail error => exact settles_fail
    | atom cls rep =>
      cases rep with
      | one => exact settles_singlematchByte.bind fun _ => ih.ite settles_pure
      | optional =>
        refine settles_singlematchByte.bind fun _ => Settles.ite ((hrec _).bind fun r => ?_) ih
        cases r with
        | some stop => exact settles_pure
        | none => exact ih
      | zeroOrMoreGreedy =>
        exact settles_singlematchByte.bind fun _ =>
          (settles_maxRun.bind fun _ => settles_giveBack hrec).ite ih
      | oneOrMoreGreedy =>
        exact settles_singlematchByte.bind fun _ =>
          (settles_maxRun.bind fun _ => settles_giveBack hrec).ite settles_pure
      | zeroOrMoreMinimal =>
        exact settles_singlematchByte.bind fun _ => (settles_minLoop hrec).ite ih

theorem settles_searchLoop {n : Nat} : Settles (S.searchLoop n pos) := by
  induction n generalizing pos with
  | zero =>
    rw [searchLoop]
    refine settles_matchItems.bind fun r => ?_
    cases r with
    | some stop => exact settles_pure
    | none => exact settles_pure.ite settles_panic
  | succ n ih =>
    rw [searchLoop]
    refine settles_matchItems.bind fun r => ?_
    cases r with
    | some stop => exact settles_pure
    | none => exact settles_pure.ite ih

theorem settles_strMatch {init : Nat} {captures : CaptureSlots} :
    Settles (S.strMatch init captures) := by
  rw [strMatch]
  refine settles_pure.ite (settles_searchLoop.withLocal.bind fun r => ?_)
  obtain ⟨_ | range, slots⟩ := r
  · exact settles_pure
  · exact settles_require.bind fun _ => settles_pure

end Search

/-! ## Searches -/

/-- Where a capture of a match may lie. -/
def LuaCapture.Within (n : Nat) : LuaCapture → Prop
  | bytes start stop => start ≤ stop ∧ stop ≤ n
  | position offset => offset ≤ n
  | unfinished => True

namespace LuaPattern

variable {m : LuaPattern} {subject : List UInt8} {init : Nat}

/-- The matcher can be used. -/
structure Ready (m : LuaPattern) : Prop where
  pattern : Search.PatternOk m.compiled
  slots : m.slots.length = luaMaxCaptures

/-- What a matcher says of a match in a subject, found from `init` on. -/
structure Found (m : LuaPattern) (subject : List UInt8) (init : Nat) : Prop where
  range : ∃ start stop, m.range = some (start, stop) ∧ init ≤ start ∧ start ≤ stop ∧
    stop ≤ subject.length
  nonempty : 0 < m.nMatch
  captures : ∀ i < m.nMatch, ∃ c, m.capture i = some c ∧ c.Within subject.length

theorem ready_fromCompiled {p : CompiledPattern} (h : Search.PatternOk p) :
    (fromCompiled p).Ready := ⟨h, by simp [fromCompiled, CaptureSlots.new]⟩

/-- The slots of a match lie within the subject. -/
theorem get_within {S : Search} {inits : Nat → Nat} {slots : CaptureSlots} {i n : Nat}
    (rest : CaptureSlots) (hw : S.Holds inits n slots) (hi : ∀ slot < n, inits slot ≤ S.subject.length) (hlt : i < n) :
    ∃ c, CaptureSlots.get (slots.take n ++ rest) i = some c ∧ c.Within S.subject.length := by
  obtain ⟨len, hget, hlen⟩ := hw.capture i hlt
  have hslot := (List.getElem?_eq_some_iff.1 hget).1
  have hget' : (slots.take n ++ rest)[i]? = some ⟨inits i, len⟩ := by
    rw [List.getElem?_append_left (by rw [List.length_take]; omega), List.getElem?_take_of_lt hlt, hget]
  have hle := hi i hlt
  simp only [CaptureSlots.get, hget', Option.map_some, Option.some.injEq, exists_eq_left']
  cases len with
  | len k => exact ⟨Nat.le_add_right _ _, hlen k rfl⟩
  | position => exact hle
  | unfinished => trivial

/-- A search from a position of the subject does not panic, and its match lies within
    the subject, from that position on. -/
theorem wp_matchesBytesFrom {interrupt : Nat → Bool} {clock : Clock} (hm : m.Ready)
    (hi : init ≤ subject.length) :
    wp (m.matchesBytesFrom subject init interrupt)
      (fun r _ => r.2.Ready ∧ (r.1 = true → r.2.Found subject init)) (fun _ _ => True) clock := by
  simp only [matchesBytesFrom, Search.strMatch, wp_bind]
  split
  · -- A pattern without items has no captures.
    rename_i hnil
    have hzero : m.compiled.captures = 0 := by
      have := hm.pattern.1
      rw [show m.compiled.items = [] from hnil] at this
      generalize m.compiled.captures = n at this
      cases this
      rfl
    refine ⟨⟨hm.pattern, hm.slots⟩, fun _ => ⟨?_, ?_, ?_⟩⟩
    · exact ⟨init, init, by simp [range], Nat.le_refl _, Nat.le_refl _, hi⟩
    · exact Nat.succ_pos _
    · intro i hlt
      obtain rfl : i = 0 := by
        simp only [hzero] at hlt
        omega
      exact ⟨.bytes init init, by simp [capture], Nat.le_refl _, hi⟩
  · have hnew : Search.Holds ⟨subject, m.compiled, interrupt⟩ (fun _ => 0) 0 .new :=
      ⟨by simp [CaptureSlots.new], by simp⟩
    rw [wp_bind, wp_withLocal]
    refine wp_mono_ok (Search.wp_searchLoop hm.pattern
      (show init + (subject.length - init) = subject.length by omega) hnew) fun r s hr => ?_
    cases r with
    | none => exact ⟨⟨hm.pattern, hm.slots⟩, by simp⟩
    | some range =>
      obtain ⟨start, stop⟩ := range
      obtain ⟨hstart, hle, hstop, inits, hw, hinits⟩ := hr start stop rfl
      have hn : m.compiled.captures ≤ luaMaxCaptures := hm.pattern.2
      have hslots : s.1.length = luaMaxCaptures := hw.length
      rw [wp_bind, wp_require ⟨hslots ▸ hn, hm.slots ▸ hn⟩]
      refine ⟨⟨hm.pattern, ?_⟩, fun _ => ⟨⟨start, stop, ?_, hstart, hle, hstop⟩, Nat.succ_pos _, ?_⟩⟩
      · simp only [List.length_append, List.length_take, List.length_drop, hslots, hm.slots]
        omega
      · simp [LuaPattern.range]
      · intro i hlt
        cases i with
        | zero => exact ⟨.bytes start stop, by simp [capture], hle, hstop⟩
        | succ i =>
          obtain ⟨c, hc, hwithin⟩ := get_within (m.slots.drop m.compiled.captures) hw hinits
            (Nat.lt_of_succ_lt_succ hlt)
          exact ⟨c, by rw [capture, if_pos hlt]; exact hc, hwithin⟩

theorem settles_matchesBytesFrom {interrupt : Nat → Bool} :
    Settles (m.matchesBytesFrom subject init interrupt) := by
  refine Search.settles_strMatch.bind fun r => ?_
  rcases r with ⟨_ | whole, slots⟩ <;> exact settles_pure

end LuaPattern

/-- Every compiled pattern can be matched. -/
theorem ready_compile (pattern : List UInt8) (mode : AnchorMode) :
    (LuaPattern.fromCompiled (compile pattern mode)).Ready :=
  LuaPattern.ready_fromCompiled (compile_scoped pattern mode)

/-- A search from a position of the subject ends without a panic, whatever the slots hold from
    searches before. A match lies within the subject, and so do its captures, but for those that
    the pattern never closes. -/
theorem match_within (pattern subject : List UInt8) (mode : AnchorMode) (m : LuaPattern)
    (hm : m.compiled = compile pattern mode) (hs : m.slots.length = luaMaxCaptures) (init : Nat)
    (hi : init ≤ subject.length) (interrupt : Nat → Bool) (clock : Clock) :
    match m.matchesBytesFrom subject init interrupt clock with
    | .ok (found, m') _ => found = true → m'.Found subject init
    | .fail _ _ => True
    | .panic | .timeout => False := by
  have hready : m.Ready := ⟨hm ▸ compile_scoped pattern mode, hs⟩
  have hwp := @LuaPattern.wp_matchesBytesFrom m subject init interrupt clock hready hi
  have hend := @LuaPattern.settles_matchesBytesFrom m subject init interrupt clock
  rw [wp] at hwp
  cases hr : m.matchesBytesFrom subject init interrupt clock with
  | ok r clock' =>
    rw [hr] at hwp
    exact hwp.2
  | fail e clock' => trivial
  | panic =>
    rw [hr] at hwp
    exact hwp
  | timeout => exact hend hr

/-- A pattern whose capture is never closed. -/
def unclosed : List UInt8 := [ascii '(', ascii 'a']

theorem match_within_unclosed :
    match (LuaPattern.fromCompiled (compile unclosed .honour)).matchesBytesFrom [ascii 'a'] 0
      (fun _ => false) ⟨.off, 0⟩ with
    | .ok (found, m') _ => found = true → m'.Found [ascii 'a'] 0
    | .fail _ _ => True
    | .panic | .timeout => False :=
  match_within unclosed [ascii 'a'] .honour _ rfl rfl 0 (Nat.zero_le _) _ _

theorem compile_unclosed : compile unclosed .honour =
    ⟨[.captureStart 0, .atom 0 .one], [ByteClass.empty.insert (ascii 'a')], false, 1⟩ := by
  have hanchored : (AnchorMode.honour == .honour && unclosed.head? == some (ascii '^')) = false := rfl
  have hitems : compileItems (Compiler.new unclosed) =
      (.ok (), ⟨[], [.captureStart 0, .atom 0 .one], [ByteClass.empty.insert (ascii 'a')], [0], 1⟩) :=
    calc compileItems (Compiler.new unclosed)
      _ = compileItems ⟨[ascii 'a'], [.captureStart 0], [], [0], 1⟩ := compileItems_step rfl rfl
      _ = compileItems ⟨[], [.captureStart 0, .atom 0 .one],
          [ByteClass.empty.insert (ascii 'a')], [0], 1⟩ := compileItems_step rfl rfl
      _ = _ := compileItems_nil rfl
  simp only [compile, hanchored, Bool.false_eq_true, ↓reduceIte, hitems]

/-- A match may have a capture that is neither a position nor a range. -/
theorem match_unfinished : ∃ m' clock',
    (LuaPattern.fromCompiled (compile unclosed .honour)).matchesBytesFrom [ascii 'a'] 0
      (fun _ => false) ⟨.off, 0⟩ = .ok (true, m') clock' ∧
    1 < m'.nMatch ∧ m'.capture 1 = some .unfinished := by
  rw [compile_unclosed]
  let S : Search := ⟨[ascii 'a'], ⟨[.captureStart 0, .atom 0 .one],
    [ByteClass.empty.insert (ascii 'a')], false, 1⟩, fun _ => false⟩
  have hrun : S.matchAt 0 (.new, ⟨.off, 0⟩) =
    .ok (some 1) (⟨0, .unfinished⟩ :: List.replicate 31 ⟨0, .len 0⟩, ⟨.off, 4⟩) := rfl
  have hsearch : S.searchLoop 1 0 (.new, ⟨.off, 0⟩) =
      .ok (some (0, 1)) (⟨0, .unfinished⟩ :: List.replicate 31 ⟨0, .len 0⟩, ⟨.off, 4⟩) := by
    rw [Search.searchLoop, run_bind_of_ok hrun]
    rfl
  have hmatch : S.strMatch 0 .new ⟨.off, 0⟩ =
      .ok (some (0, 1), ⟨0, .unfinished⟩ :: List.replicate 31 ⟨0, .len 0⟩) ⟨.off, 4⟩ := by
    rw [Search.strMatch, if_neg (by decide)]
    have hlocal : withLocal .new (S.searchLoop 1 0) ⟨.off, 0⟩ =
        .ok (some (0, 1), ⟨0, .unfinished⟩ :: List.replicate 31 ⟨0, .len 0⟩) ⟨.off, 4⟩ := by
      rw [withLocal, hsearch]
    exact run_bind_of_ok hlocal
  refine ⟨⟨_, _, (0, 1), 2⟩, _, run_bind_of_ok hmatch, ?_, ?_⟩
  · exact Nat.one_lt_two
  · rfl

end Dellingr.Patterns
