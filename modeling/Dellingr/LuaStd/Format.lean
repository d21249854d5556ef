import Dellingr.LuaStd.Directive
import Dellingr.LuaStd.Find

/-!
# Formats

`string.format`: literal text is copied, and each directive is replaced by its argument.

The literal bytes are not appended one by one. A run of them is kept until a `%` or the end, and then appended
and charged as a whole (`appendBytesUnits`), where the budget may end within the run, or the limit of strings. A
`%%` is literal: the run starts again at its second byte.

This cannot be told from appending and charging each byte where it is read (`formatEach`): what is charged, what
is appended and what fails is the same, and so is all that a directive finds (`format_bytewise`).
-/

namespace Dellingr.StringFormat

open Effect Patterns

/-- Why a call fails; `ε` are the errors of rendering an argument. -/
inductive FormatCallError (ε : Type)
  | budgetExceeded
  | interrupted
  | formatError (error : FormatError)
  | directive (error : DirectiveError)
  /-- The format is neither a string nor a number. -/
  | notAFormat
  | noValue (argument : Nat)
  | raised (error : ε)

/-- A call: the accounting, and the world `ι` of what renders arguments. -/
abbrev Format (ι ε : Type) := Effect (Clock × ι) (FormatCallError ε)

section Calls

variable {ι ε : Type}

/-- Run a charge or a poll. -/
def onAccounting {α : Type} (m : Scan α) : Format ι ε α := fun s =>
  match m s.1 with
  | .ok a clock => .ok a (clock, s.2)
  | .fail .interrupted clock => .fail .interrupted (clock, s.2)
  | .fail _ clock => .fail .budgetExceeded (clock, s.2)
  | .panic => .panic
  | .timeout => .timeout

/-- Run what renders an argument. -/
def onArgument {α : Type} (m : Effect (Clock × ι) ε α) : Format ι ε α := fun s =>
  match m s with
  | .ok a s => .ok a s
  | .fail e s => .fail (.raised e) s
  | .panic => .panic
  | .timeout => .timeout

def checkGrowth (output additional : Nat) : Format ι ε Unit :=
  match checkedStringGrowth output additional with
  | .ok _ => pure ()
  | .error e => fail (.formatError e)

/-- `append_bytes`: append bytes with one charge. -/
def appendBytes (output bytes : List UInt8) : Format ι ε (List UInt8) := do
  checkGrowth output.length bytes.length
  onAccounting (chargeOnce bytes.length)
  return output ++ bytes

/-- Append bytes one after the other. -/
def appendEach (output : List UInt8) : List UInt8 → Format ι ε (List UInt8)
  | [] => return output
  | byte :: bytes => do appendEach (← appendBytes output [byte]) bytes

/-- `append_bytes_units`: append a run of bytes, with a charge for each. -/
def appendBytesUnits (output bytes : List UInt8) : Format ι ε (List UInt8) :=
  match checkedStringGrowth output.length bytes.length with
  | .error _ => appendEach output bytes
  | .ok _ => do
    onAccounting (chargeUnits bytes.length)
    return output ++ bytes

/-- A directive ends after its `%`. -/
theorem pos_of_parseDirective {text : List UInt8} {d : Directive} {stop : Nat}
    (h : parseDirective (ascii '%' :: text) = .ok (d, stop)) : 0 < stop := by
  obtain ⟨s, -, -, -, rfl⟩ := parseDirective_eq_ok_iff.1 h
  exact Nat.succ_pos _

variable (interrupt : Nat → Bool) (argumentCount : Nat)
  (formatArgument : List UInt8 → Nat → Directive → Effect (Clock × ι) ε (List UInt8))

/-- Replace a directive by its argument. The rendering of an argument may depend on all that can be seen: the
    accounting, the output so far and the world. -/
def replaceDirective (output : List UInt8) (argument : Nat) (d : Directive) : Format ι ε (List UInt8) :=
  match validateDirective d with
  | .error e => fail (.directive e)
  | .ok () => do
    let formatted ← onArgument (formatArgument output argument d)
    appendBytes output formatted

/-- The loop of `format`, with the pending run of literal bytes, the bytes from the cursor on, the arguments taken
    and the output so far. -/
def formatLoop (run text : List UInt8) (argument : Nat) (output : List UInt8) : Format ι ε (List UInt8) :=
  match text with
  | [] => appendBytesUnits output run
  | byte :: rest =>
    if byte = ascii '%' then do
      let output ← appendBytesUnits output run
      onAccounting (pollInterrupt interrupt)
      if rest.head? = some (ascii '%') then formatLoop [ascii '%'] rest.tail argument output
      else if argumentCount < argument + 1 then fail (.noValue (argument + 1))
      else
        match hread : parseDirective (ascii '%' :: rest) with
        | .error e => fail (.directive e)
        | .ok (d, stop) => do
          let output ← replaceDirective formatArgument output (argument + 1) d
          formatLoop [] ((ascii '%' :: rest).drop stop) (argument + 1) output
    else formatLoop (run ++ [byte]) rest argument output
termination_by text.length
decreasing_by
  · rw [List.length_cons, List.length_tail]
    omega
  · have := pos_of_parseDirective hread
    rw [List.length_drop, List.length_cons, List.length_cons]
    omega
  · exact Nat.lt_succ_self _

/-- The loop that appends each literal byte where it is read. -/
def formatEach (text : List UInt8) (argument : Nat) (output : List UInt8) : Format ι ε (List UInt8) :=
  match text with
  | [] => return output
  | byte :: rest =>
    if byte = ascii '%' then do
      onAccounting (pollInterrupt interrupt)
      if rest.head? = some (ascii '%') then do
        let output ← appendBytes output [ascii '%']
        formatEach rest.tail argument output
      else if argumentCount < argument + 1 then fail (.noValue (argument + 1))
      else
        match hread : parseDirective (ascii '%' :: rest) with
        | .error e => fail (.directive e)
        | .ok (d, stop) => do
          let output ← replaceDirective formatArgument output (argument + 1) d
          formatEach ((ascii '%' :: rest).drop stop) (argument + 1) output
    else do
      let output ← appendBytes output [byte]
      formatEach rest argument output
termination_by text.length
decreasing_by
  · rw [List.length_cons, List.length_tail]
    omega
  · have := pos_of_parseDirective hread
    rw [List.length_drop, List.length_cons, List.length_cons]
    omega
  · exact Nat.lt_succ_self _

/-- The bytes of a format; a number stands for its text. -/
def formatBytes (numberText : F64 → List UInt8) : Option FormatArgument → Format ι ε (List UInt8)
  | some (.string bytes) => return bytes
  | some (.number value) => return numberText value
  | _ => fail .notAFormat

/-- A call with a loop over the bytes of the format, which is the first argument. -/
def formatWith (loop : Nat → List UInt8 → Nat → List UInt8 → Format ι ε (List UInt8))
    (numberText : F64 → List UInt8) (args : List FormatArgument) : Format ι ε (List UInt8) := do
  let bytes ← formatBytes numberText args.head?
  onAccounting (chargeOnce (max bytes.length 1))
  loop args.length bytes 1 []

/-- `string.format` -/
def format (numberText : F64 → List UInt8) (args : List FormatArgument) : Format ι ε (List UInt8) :=
  formatWith (fun argumentCount => formatLoop interrupt argumentCount formatArgument []) numberText args

/-- `string.format`, appending byte by byte. -/
def formatBytewise (numberText : F64 → List UInt8) (args : List FormatArgument) : Format ι ε (List UInt8) :=
  formatWith (fun argumentCount => formatEach interrupt argumentCount formatArgument) numberText args

/-! ## Runs of literal bytes -/

variable {output bytes more : List UInt8} {s : Clock × ι}

theorem appendEach_append (output bytes more : List UInt8) :
    (appendEach output (bytes ++ more) : Format ι ε _)
      = appendEach output bytes >>= fun output => appendEach output more := by
  induction bytes generalizing output with
  | nil => rw [List.nil_append, appendEach, pure_bind]
  | cons byte bytes ih =>
    rw [List.cons_append, appendEach, appendEach, bind_assoc]
    exact bind_congr fun output => ih output

theorem appendEach_single (output : List UInt8) (byte : UInt8) :
    (appendEach output [byte] : Format ι ε _) = appendBytes output [byte] := by
  simp only [appendEach, bind_pure]

/-- A byte that fits is appended if it is charged for. -/
theorem appendBytes_byte (byte : UInt8) (hfit : output.length + 1 ≤ MAX_STRING_BYTES) :
    (appendBytes output [byte] : Format ι ε _) s =
      match s.1.meter.consume s.1.meter.unit with
      | (true, meter) => .ok (output ++ [byte]) ({ s.1 with meter }, s.2)
      | (false, meter) => .fail .budgetExceeded ({ s.1 with meter }, s.2) := by
  have hcheck : (checkGrowth output.length 1 : Format ι ε Unit) s = .ok () s := by
    rw [checkGrowth, checkedStringGrowth_of_le hfit]
    rfl
  have hcharge := chargeOnce_one s.1
  rw [appendBytes]
  refine (run_bind_of_ok hcheck).trans ?_
  rcases hm : s.1.meter.consume s.1.meter.unit with ⟨_ | _, meter⟩
  · rw [hm] at hcharge
    have hclock : (onAccounting (chargeOnce 1) : Format ι ε Unit) s =
        .fail .budgetExceeded ({ s.1 with meter }, s.2) := by
      rw [onAccounting, hcharge]
    exact run_bind_of_fail hclock
  · rw [hm] at hcharge
    have hclock : (onAccounting (chargeOnce 1) : Format ι ε Unit) s = .ok () ({ s.1 with meter }, s.2) := by
      rw [onAccounting, hcharge]
    exact run_bind_of_ok hclock

/-- Bytes that fit are appended if the budget admits them all. -/
theorem appendEach_eq (hfit : output.length + bytes.length ≤ MAX_STRING_BYTES) :
    (appendEach output bytes : Format ι ε _) s =
      let r := CostMeter.consumeEach s.1.meter.unit bytes.length s.1.meter
      if r.1 = bytes.length then .ok (output ++ bytes) ({ s.1 with meter := r.2 }, s.2)
      else .fail .budgetExceeded ({ s.1 with meter := r.2 }, s.2) := by
  induction bytes generalizing output s with
  | nil => simp [appendEach, CostMeter.consumeEach, run_pure_eq_ok]
  | cons byte bytes ih =>
    rw [List.length_cons] at hfit
    have hone := @appendBytes_byte ι ε output s byte (by omega)
    have hunit := s.1.meter.unit_consume s.1.meter.unit
    rw [appendEach, List.length_cons, CostMeter.consumeEach]
    rcases hm : s.1.meter.consume s.1.meter.unit with ⟨_ | _, meter⟩
    · rw [hm] at hone
      rw [run_bind_of_fail hone]
      simp
    · rw [hm] at hone hunit
      rw [run_bind_of_ok hone, ih (by rw [List.length_append, List.length_singleton]; omega)]
      simp only [show meter.unit = s.1.meter.unit from hunit, Nat.succ.injEq, List.append_assoc,
        List.singleton_append]

/-- A run of literal bytes is appended as they are one after the other. -/
theorem appendBytesUnits_eq (output bytes : List UInt8) :
    (appendBytesUnits output bytes : Format ι ε _) = appendEach output bytes := by
  by_cases hlong : MAX_STRING_BYTES < output.length + bytes.length
  · obtain ⟨e, he⟩ := checkedStringGrowth_of_lt hlong
    rw [appendBytesUnits, he]
  · have hfit := Nat.le_of_not_lt hlong
    have hn : bytes.length < 2 ^ 64 := by
      rw [MAX_STRING_BYTES] at hfit
      omega
    rw [appendBytesUnits, checkedStringGrowth_of_le hfit]
    funext s
    have hcharge := chargeUnits_eq hn s.1
    rw [appendEach_eq hfit]
    by_cases hall : (CostMeter.consumeEach s.1.meter.unit bytes.length s.1.meter).1 = bytes.length
    · rw [if_pos hall] at hcharge
      have hclock : (onAccounting (chargeUnits bytes.length) : Format ι ε Unit) s = .ok () ({ s.1 with
          meter := (CostMeter.consumeEach s.1.meter.unit bytes.length s.1.meter).2 }, s.2) := by
        rw [onAccounting, hcharge]
      simp only [if_pos hall]
      exact run_bind_of_ok hclock
    · rw [if_neg hall] at hcharge
      simp only [if_neg hall]
      refine run_bind_of_fail ?_
      rw [onAccounting, hcharge]

/-! ## The loops -/

/-- The loop does what the bytewise loop does after the pending run. -/
theorem formatLoop_eq (run text : List UInt8) (argument : Nat) (output : List UInt8) :
    formatLoop interrupt argumentCount formatArgument run text argument output
      = appendEach output run >>= fun output =>
          formatEach interrupt argumentCount formatArgument text argument output := by
  induction text using (measure List.length).wf.induction generalizing run argument output with
  | _ text ih =>
    cases text with
    | nil =>
      rw [formatLoop, appendBytesUnits_eq]
      simp only [formatEach, bind_pure]
    | cons byte rest =>
      by_cases hbyte : byte = ascii '%'
      · subst hbyte
        rw [formatLoop, if_pos rfl, appendBytesUnits_eq]
        refine bind_congr fun output => ?_
        rw [formatEach, if_pos rfl]
        refine bind_congr fun _ => ?_
        by_cases hescape : rest.head? = some (ascii '%')
        · -- The run starts again at the second byte of the escape.
          have hshort : rest.tail.length < (ascii '%' :: rest).length := by
            rw [List.length_cons, List.length_tail]
            omega
          rw [if_pos hescape, if_pos hescape, ih _ hshort, appendEach_single]
        · rw [if_neg hescape, if_neg hescape]
          split
          · rfl
          · split
            · rfl
            · next d stop hread =>
              have hshort : ((ascii '%' :: rest).drop stop).length < (ascii '%' :: rest).length := by
                have := pos_of_parseDirective hread
                rw [List.length_drop, List.length_cons]
                omega
              refine bind_congr fun output => ?_
              rw [ih _ hshort, appendEach, pure_bind]
      · rw [formatLoop, if_neg hbyte, ih rest (Nat.lt_succ_self _), appendEach_append, bind_assoc]
        refine bind_congr fun output => ?_
        rw [formatEach, if_neg hbyte, appendEach_single]

/-- **Formats, byte by byte.** A run of literal bytes is charged, appended and refused as its bytes are one after
    the other, and a call is one that treats each literal byte by itself, whatever the directives do with what
    they find. -/
theorem format_bytewise :
    (∀ output bytes, (appendBytesUnits output bytes : Format ι ε _) = appendEach output bytes) ∧
    ∀ numberText args, format interrupt formatArgument numberText args
      = formatBytewise interrupt formatArgument numberText args := by
  refine ⟨appendBytesUnits_eq, fun numberText args => ?_⟩
  refine bind_congr fun bytes => bind_congr fun _ => ?_
  dsimp only
  rw [formatLoop_eq, appendEach, pure_bind]

end Calls

end Dellingr.StringFormat
