import Dellingr.CostMeter
import Dellingr.Lib.Binary64Int
import Dellingr.Lib.Effect
import Dellingr.Numeral
import Dellingr.Patterns.Match
import Dellingr.Vm.Table.Growth

/-!
# The table library

What the functions of the table library share: how they read their arguments, how they are charged and
polled, and how they read and write the tables of the heap. The accesses are raw. A table is
grown by an allocator, which may refuse.

Integers are those of 64 bits, with the operations that wrap (`wrap`) or saturate. A position
becomes a key by conversion to a double (`Val.ofInt`).
-/

namespace Dellingr

/-- The number of an integer, as a value. -/
def Val.ofInt (i : Int) : Val := .num (F64.ofInt i)

theorem Val.ofInt_natCast (n : Nat) : Val.ofInt n = Val.ofNat n := by rw [ofInt, F64.ofInt_natCast, ofNat]

namespace TableLib

open Effect
open Numeral (exactI64 saturate)
open Patterns (Clock)

/-! ## Integers -/

/-- The 64-bit integer that a result wraps to. -/
def wrap (i : Int) : Int := (i + 2 ^ 63) % 2 ^ 64 - 2 ^ 63

/-- The bits of a 64-bit integer, as an unsigned number. -/
def castUnsigned (i : Int) : Int := i % 2 ^ 64

def MAX_EXACT_INTEGER : Int := 2 ^ 53

/-- Whether a range of integers can be converted to keys. A key alone may be beyond the range where
    all are exact. -/
def checkIntegerKeyRange (first last : Int) : Bool :=
  if first = last then exactI64 (F64.ofInt first) = some first
  else
    decide (-MAX_EXACT_INTEGER ≤ first ∧ first ≤ MAX_EXACT_INTEGER ∧
      -MAX_EXACT_INTEGER ≤ last ∧ last ≤ MAX_EXACT_INTEGER)

/-- The integers up to `2 ^ 53` are converted exactly. -/
theorem exactI64_ofInt {i : Int} (h₁ : -MAX_EXACT_INTEGER ≤ i) (h₂ : i ≤ MAX_EXACT_INTEGER) :
    exactI64 (F64.ofInt i) = some i := by
  rw [MAX_EXACT_INTEGER] at h₁ h₂
  obtain ⟨hsign, habs, hsize⟩ := F64.ofInt_spec h₁ h₂
  obtain ⟨hfin, htrunc, hnat⟩ := F64.trunc_of_exactNat_abs habs
  have hmin : (F64.ofNat (2 ^ 63)).neg.totalKey = -1 - 1086 * 2 ^ 52 := by decide
  have hmax : (F64.ofBits ((F64.ofNat (2 ^ 63 - 1)).bits.toNat - 1)).totalKey = 1086 * 2 ^ 52 - 1 := by decide
  have hnan : (F64.ofInt i).isNan = false := by
    simp only [F64.isFinite, bne_iff_ne, ne_eq] at hfin
    rw [F64.isNan, beq_eq_false_iff_ne.2 hfin, Bool.false_and]
  have hbits := (F64.ofInt i).toNat_eq
  have hrange : ¬((F64.ofInt i).totalKey < -1 - 1086 * 2 ^ 52 ∨ 1086 * 2 ^ 52 - 1 < (F64.ofInt i).totalKey) := by
    rw [F64.totalKey, hsign]
    rw [F64.sign_eq] at hsign
    split
    · omega
    · rename_i hpos
      rw [← hsign, decide_eq_true_eq] at hpos
      omega
  rw [exactI64]
  simp only [hmin, hmax]
  rw [if_pos ⟨hfin, hrange, htrunc⟩, F64.toI64, hnan, hsign, hnat]
  by_cases hneg : i < 0
  · simp only [hneg, decide_true, if_true, Bool.false_eq_true, if_false]
    congr 1
    omega
  · simp only [hneg, decide_false, Bool.false_eq_true, if_false]
    congr 1
    omega

theorem exactI64_range {x : F64} {i : Int} (h : exactI64 x = some i) : -2 ^ 63 ≤ i ∧ i < 2 ^ 63 := by
  rw [exactI64] at h
  split at h
  · obtain rfl := Option.some.inj h
    rw [F64.toI64]
    split
    · omega
    · split
      · omega
      · omega
  · cases h

theorem castUnsigned_wrap (i : Int) : castUnsigned (wrap i) = i % 2 ^ 64 := by
  rw [castUnsigned, wrap]
  omega

/-- An integer before another one wraps to a large number if it is not positive. -/
theorem castUnsigned_wrap_pred {i : Int} (h₁ : -2 ^ 63 ≤ i) (h₂ : i < 2 ^ 63) :
    castUnsigned (wrap (i - 1)) = if 1 ≤ i then i - 1 else i - 1 + 2 ^ 64 := by
  rw [castUnsigned_wrap]
  split <;> omega

/-- A range of integers up to `2 ^ 53` can be converted to keys. -/
theorem checkIntegerKeyRange_of_le {first last : Int} (h₁ : -MAX_EXACT_INTEGER ≤ first) (h₂ : first ≤ last)
    (h₃ : last ≤ MAX_EXACT_INTEGER) : checkIntegerKeyRange first last = true := by
  rw [checkIntegerKeyRange]
  split
  · exact decide_eq_true (exactI64_ofInt h₁ (by omega))
  · exact decide_eq_true ⟨h₁, by omega, by omega, h₃⟩

/-! ## Errors -/

/-- The functions that errors name. -/
inductive LibraryFunction
  | insert
  | move
  | remove
  deriving DecidableEq, Repr

/-- The types that arguments are checked for. -/
inductive LuaType
  | number
  | table
  deriving DecidableEq, Repr

/-- What is wrong with an argument. The type that was received is that of the value. -/
inductive ArgDetail
  | typeMismatch (expected : LuaType) (received : Option Val)
  | noInteger
  | positionOutOfBounds
  | tooManyElementsToMove
  | destinationWrapAround
  deriving DecidableEq, Repr

inductive LibError
  | argument (argNumber : Nat) (functionName : String) (detail : ArgDetail)
  | positionOutOfBounds
  | sequenceShiftTooLarge (function : LibraryFunction)
  | wrongNumberOfArguments (function : LibraryFunction)
  | integerKeyRangeExceeded (function : LibraryFunction)
  | table (error : TableError)
  | interrupted
  | budgetExceeded
  deriving DecidableEq, Repr

/-! ## The state -/

/-- What is charged and polled, and the tables of the heap. -/
structure LibState where
  clock : Clock
  tables : ObjectPtr → Option Table

/-- A step of a function of the library. -/
abbrev Lib := Effect LibState LibError

/-- Put a table in the place of another. -/
def LibState.setTable (s : LibState) (p : ObjectPtr) (t : Table) : LibState :=
  { s with tables := Function.update s.tables p (some t) }

/-- A state with one table. -/
def only (p : ObjectPtr) (t : Table) : LibState := ⟨⟨.off, 0⟩, fun q => if q = p then some t else none⟩

/-! ## Arguments -/

section Arguments

variable (s : LibState) (args : List Val) (argNumber : Nat) (functionName : String)

/-- The argument with a number, counted from one. -/
def argument : Option Val := args[argNumber - 1]?

def argumentError {α : Type} (detail : ArgDetail) : Except LibError α :=
  .error (.argument argNumber functionName detail)

def argInteger : Except LibError Int :=
  match argument args argNumber with
  | some (.num number) =>
    match exactI64 number with
    | some i => .ok i
    | none => argumentError argNumber functionName .noInteger
  | received => argumentError argNumber functionName (.typeMismatch .number received)

/-- An integer, unless the argument is missing or nil. -/
def optInteger : Except LibError (Option Int) :=
  match argument args argNumber with
  | none | some .nil => .ok none
  | some _ => (argInteger args argNumber functionName).map some

variable {args argNumber functionName} in
theorem argInteger_range {i : Int} (h : argInteger args argNumber functionName = .ok i) : -2 ^ 63 ≤ i ∧ i < 2 ^ 63 := by
  rw [argInteger] at h
  split at h
  · split at h
    · rename_i hi
      cases h
      exact exactI64_range hi
    · cases h
  · cases h

variable {args argNumber functionName} in
theorem optInteger_range {i : Int} (h : optInteger args argNumber functionName = .ok (some i)) :
    -2 ^ 63 ≤ i ∧ i < 2 ^ 63 := by
  rw [optInteger] at h
  split at h
  · cases h
  · cases h
  · cases harg : argInteger args argNumber functionName with
    | error e => rw [harg] at h; cases h
    | ok j =>
      rw [harg] at h
      cases h
      exact argInteger_range harg

/-- The table in an argument. -/
def checkTable : Except LibError ObjectPtr :=
  match argument args argNumber with
  | some (.obj p) =>
    if (s.tables p).isSome then .ok p
    else argumentError argNumber functionName (.typeMismatch .table (some (.obj p)))
  | received => argumentError argNumber functionName (.typeMismatch .table received)

/-- A table, unless the argument is missing or nil. -/
def checkOptionalTable : Except LibError (Option ObjectPtr) :=
  match argument args argNumber with
  | none | some .nil => .ok none
  | some _ => (checkTable s args argNumber functionName).map some

end Arguments

/-! ## Steps -/

section Steps

variable (interrupt : Nat → Bool) (A : Allocator)

/-- Fail while the interrupt of the host is set. -/
def pollInterrupt : Lib Unit := do
  let s ← get
  modify fun s => { s with clock := { s.clock with polls := s.clock.polls + 1 } }
  if interrupt s.clock.polls then fail .interrupted else return ()

/-- Charge a unit. -/
def charge : Lib Unit := do
  let s ← get
  let (admitted, meter) := s.clock.meter.consume s.clock.meter.unit
  modify fun s => { s with clock := { s.clock with meter } }
  if admitted then return () else fail .budgetExceeded

def getTableRaw (p : ObjectPtr) (key : Val) : Lib Val := do
  let s ← get
  let t ← demand (s.tables p)
  return t.get key

def setTableRaw (p : ObjectPtr) (key value : Val) : Lib Unit := do
  let s ← get
  let t ← demand (s.tables p)
  let r ← demand (t.insert A key value)
  modify fun s => s.setTable p r.2
  Effect.liftExcept (r.1.mapError .table)

end Steps

section Settles

variable {interrupt : Nat → Bool} {A : Allocator} {p : ObjectPtr}

theorem settles_pollInterrupt : Settles (pollInterrupt interrupt) :=
  settles_get.bind fun _ => settles_modify.bind fun _ => Settles.ite settles_fail settles_pure

theorem settles_charge : Settles charge :=
  settles_get.bind fun _ => settles_modify.bind fun _ => Settles.ite settles_pure settles_fail

theorem settles_getTableRaw {key : Val} : Settles (getTableRaw p key) :=
  settles_get.bind fun _ => settles_demand.bind fun _ => settles_pure

theorem settles_liftExcept {α : Type} {r : Except LibError α} : Settles (Effect.liftExcept r : Lib α) := by
  cases r with
  | ok a => exact settles_pure
  | error e => exact settles_fail

theorem settles_setTableRaw {key value : Val} : Settles (setTableRaw A p key value) :=
  settles_get.bind fun _ => settles_demand.bind fun _ => settles_demand.bind fun _ => settles_modify.bind fun _ =>
    settles_liftExcept

end Settles

end TableLib

end Dellingr
