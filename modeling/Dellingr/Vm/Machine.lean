import Dellingr.Lib.Effect
import Dellingr.Lib.Checked
import Dellingr.Compiler.Verify
import Dellingr.Vm.Val

/-!
# The machine

The part of the virtual machine that verified bytecode is trusted with: the
value stack, the frames that index it, the open upvalues that point into it and
the records of the active calls.

Every access the source makes without a check is a demand here: a slot past the
top of the stack, a literal past its pool or a subtraction that underflows
panics. What may be refused at run time is raised as an error (`ErrorKind`).

What the instructions do to values and to the heap is left to a `Runtime`: the
contents of tables, globals and caches, arithmetic, costs and interrupts are
whatever it says, and any of it may fail. It has no access to the stack. A Rust
function is a `Host` program, which works on the slots at or above its frame's
bottom and may call back; it cannot reach below them.

Left out are the call sites and positions that only error reports read, and the
collector, which frees nothing that is reachable.
-/

namespace Dellingr

/-- The most slots of the value stack. -/
def MAX_STACK_SIZE : Nat := 1000000

/-- The most active Lua calls. -/
def MAX_CALL_DEPTH : Nat := 1000

/-- The most active calls made from Rust. -/
def MAX_NATIVE_CALL_DEPTH : Nat := 150

/-- The most units of the metamethod depth. -/
def MAX_METAMETHOD_DEPTH : Nat := 200

/-- The most arguments of a call. -/
def MAX_ARGUMENTS : Nat := 255

/-- The most results of a call. -/
def MAX_RESULTS : Nat := 255

/-- The elements of one full batch of a constructor. -/
def MAX_TABLE_BATCH_SIZE : Nat := 255

/-- The slots admission reserves above a frame's registers: the largest call
    window an instruction pushes there. -/
def FRAME_HEADROOM : Nat := 4

/-! ## The state -/

/-- A captured variable: still a slot of the stack, or closed over its value. -/
inductive Upvalue
  | open (index : Nat)
  | closed (v : Val)
  deriving DecidableEq, Repr

/-- A Lua function: its code, its resolved string literals and the variables it
    captures, as entries of the upvalue pool. -/
structure Closure where
  bytecode : Bytecode
  literals : List Val
  upvalues : List Nat

/-- The record of an active Lua call: where its extra arguments start, and the
    metamethod-depth units of the `__call` chain that resolved it. -/
structure CallInfo where
  varargStart : Nat
  units : Nat
  deriving DecidableEq, Repr

/-- The errors the machine raises; those of the runtime are its own. -/
inductive ErrorKind (E : Type)
  | stackOverflow (size limit : Nat)
  | callDepthExceeded (depth limit : Nat)
  | nativeCallDepthExceeded (depth limit : Nat)
  | metamethodDepthExceeded (depth limit : Nat)
  | invalidStackIndex (index : Int)
  | tooManyArguments (limit : Nat)
  | tooManyResults (limit : Nat)
  | resultCountExceedsStack (reported available : Nat)
  | windowOverlapsOpenUpvalue
  | numericForControlsNotNumeric
  | functionCall (v : Val)
  | runtime (e : E)

/-- The state of the machine, over the states `W` of its runtime. -/
structure State (W : Type) where
  stack : List Val
  stackBottom : Nat
  /-- The open upvalues with the slots they point at, the highest first. -/
  openUpvalues : List (Nat × Nat)
  upvaluePool : List Upvalue
  luaFunctions : ObjectPtr → Option Closure
  /-- The records of the active Lua calls, the innermost first. -/
  callStack : List CallInfo
  varargStack : List Val
  callDepth : Nat
  nativeCallDepth : Nat
  metamethodDepth : Nat
  world : W

/-- A frame: its registers are the slots from `stackBottom` up to `top`. -/
structure Frame where
  bytecode : Bytecode
  literals : List Val
  upvalues : List Nat
  stackBottom : Nat
  top : Nat
  ip : Nat

/-- A computation of the machine. -/
abbrev Vm (W E : Type) := Effect (State W) (ErrorKind E)

/-! ## The runtime -/

/-- A program the host may load: a verified tree whose root captures nothing. -/
structure Program where
  bytecode : Bytecode
  admitted : Admitted bytecode
  root : bytecode.upvalues = []

/-- What a Rust function does: work on its slots, load a program, call the
    function below its topmost arguments, or finish with a count of results. -/
inductive Host (W E : Type)
  | done (result : Except (ErrorKind E) UInt8)
  | work (f : List Val → W → List Val × W) (next : List Val → W → Host W E)
  | load (program : Program) (next : Except (ErrorKind E) Unit → Host W E)
  | call (numArgs : UInt8) (expected : RetCount) (next : Except (ErrorKind E) Unit → Host W E)

/-- How an `__index` lookup resolves: to a value, or to a function handler with
    the receiver it is called on and the units the walk took. -/
inductive IndexOutcome
  | value (v : Val)
  | call (handler receiver : Val) (units : Nat)

/-- What the instructions do besides moving values between slots. -/
structure Runtime (W E : Type) where
  pollInterrupt : W → Except E W
  /-- The charge of an instruction. -/
  charge : Opcode → W → Except E W
  /-- The charge of the elements a set-list stores. -/
  chargeElements : Nat → W → Except E W
  flushCost : W → Except E W
  allocString : List UInt8 → W → Except E (Val × W)
  allocClosure : W → ObjectPtr × W
  allocTable : (capacity : Nat) → W → Val × W
  allocTableWithTemplate : List Val → W → Val × W
  readGlobal : (name : Val) → (cache : Option Nat) → W → Val × W
  writeGlobal : (name : Val) → (cache : Option Nat) → Val → W → W
  readBuiltin : Nat → W → Val
  writeBuiltin : Nat → Val → W → W
  /-- A lookup, from the receiver, the key, the cache slot of the site and the
      metamethod depth. -/
  resolveIndex : Val → Val → Option Nat → (depth : Nat) → W → Except E (IndexOutcome × W)
  /-- A store, which a function handler may take over with its units. -/
  storeField : (receiver key v : Val) → Option Nat → (depth : Nat) → W →
    Except E (Option (Val × Val × Nat) × W)
  /-- A length: a value, or the handler to call. -/
  resolveLength : Val → W → Except E ((Val ⊕ Val) × W)
  initField : (table key v : Val) → (entry : Option Nat) → W → Except E W
  setList : (table : Val) → (firstKey : Nat) → List Val → W → Except E W
  arithmetic : ArithOp → F64 → F64 → F64
  arithmeticError : Val → Val → W → E
  negate : F64 → F64
  concat : List Val → W → Except E (Val × W)
  compare : CompareOp → Val → Val → W → Except E Bool
  forTypeError : Val → W → E
  forStep : F64 → F64 → F64
  forCondition : F64 → F64 → F64 → Bool
  /-- The direct answers of a generic loop over `next` and `ipairs`. -/
  tforDirect : (iterator state control : Val) → (cursor : Option Nat) → W →
    Option (Val × Option Val) × W
  /-- The `__call` handler of a value that is no function, or nil. -/
  callHandler : Val → W → Val
  rustFunction : RustFnId → W → Host W E

namespace State

variable {W : Type}

/-- The Lua function a value is, if it is one. -/
def luaFunction (s : State W) : Val → Option Closure
  | .obj p => s.luaFunctions p
  | _ => none

end State

namespace Val

/-- Whether a value counts as true. -/
def truthy : Val → Bool
  | .nil | .bool false => false
  | _ => true

/-- The number a value is, if it is one. -/
def asNum : Val → Option F64
  | .num n => some n
  | _ => none

end Val

/-! ## The stack -/

namespace Machine

open Effect

variable {W E : Type}

/-- A difference the program relies on not to underflow. -/
def sub (a b : Nat) : Vm W E Nat := demand (checkedSub a b)

/-- Raise an error of the runtime. -/
def raise {α : Type} (e : E) : Vm W E α := fail (.runtime e)

/-- A fallible operation of the runtime that only changes its own state. -/
def world (f : W → Except E W) : Vm W E Unit := do
  let s ← get
  match f s.world with
  | .ok w => modify fun s => { s with world := w }
  | .error e => raise e

/-- A fallible operation of the runtime with an answer. -/
def ask {α : Type} (f : W → Except E (α × W)) : Vm W E α := do
  let s ← get
  match f s.world with
  | .ok (a, w) =>
    modify fun s => { s with world := w }
    return a
  | .error e => raise e

/-- An infallible operation of the runtime. -/
def tell {α : Type} (f : W → α × W) : Vm W E α := do
  let s ← get
  modify fun s => { s with world := (f s.world).2 }
  return (f s.world).1

/-- The value of a slot. -/
def readSlot (i : Nat) : Vm W E Val := do
  let s ← get
  demand s.stack[i]?

/-- Set a slot. -/
def writeSlot (i : Nat) (v : Val) : Vm W E Unit := do
  let s ← get
  require (i < s.stack.length)
  modify fun s => { s with stack := s.stack.set i v }

/-- The values of the slots `first..first + count`. -/
def readSlots (first count : Nat) : Vm W E (List Val) := do
  let s ← get
  require (first + count ≤ s.stack.length)
  return (s.stack.drop first).take count

/-- Set the slots from `first` on. -/
def writeSlots (first : Nat) (vs : List Val) : Vm W E Unit := do
  let s ← get
  require (first + vs.length ≤ s.stack.length)
  modify fun s =>
    { s with stack := s.stack.take first ++ vs ++ s.stack.drop (first + vs.length) }

/-- Drop the slots from `len` on, if there are any. -/
def truncate (len : Nat) : Vm W E Unit :=
  modify fun s => { s with stack := s.stack.take len }

/-- Move the top to `len`, filling new slots with nil. -/
def resize (len : Nat) : Vm W E Unit :=
  modify fun s => { s with
    stack := s.stack.take len ++ List.replicate (len - s.stack.length) .nil }

/-- Push values. -/
def pushAll (vs : List Val) : Vm W E Unit :=
  modify fun s => { s with stack := s.stack ++ vs }

/-- Take the topmost value off. -/
def popVal : Vm W E Val := do
  let s ← get
  let v ← demand s.stack.getLast?
  modify fun s => { s with stack := s.stack.dropLast }
  return v

/-- Remove the slots `first..last`, shifting those above down. -/
def drain (first last : Nat) : Vm W E Unit := do
  let s ← get
  require (first ≤ last ∧ last ≤ s.stack.length)
  modify fun s => { s with stack := s.stack.take first ++ s.stack.drop last }

/-- Insert a value at a slot, shifting those above up. -/
def insertSlot (i : Nat) (v : Val) : Vm W E Unit := do
  let s ← get
  require (i ≤ s.stack.length)
  modify fun s => { s with stack := s.stack.take i ++ v :: s.stack.drop i }

/-- Refuse where `n` more slots would pass the stack cap. -/
def checkStackSpace (n : Nat) : Vm W E Unit := do
  let s ← get
  if s.stack.length + n > MAX_STACK_SIZE then
    fail (.stackOverflow (s.stack.length + n) MAX_STACK_SIZE)

/-- Move the top to `len`, refusing growth past the stack cap. -/
def resizeStack (len : Nat) : Vm W E Unit := do
  let s ← get
  if len > s.stack.length then checkStackSpace (len - s.stack.length)
  resize len

/-- The number of slots from the frame bottom on. -/
def getTop : Vm W E Nat := do
  let s ← get
  sub s.stack.length s.stackBottom

/-! ## Upvalues -/

/-- Insert an open upvalue by its slot, the highest first. -/
def insertOpen (i r : Nat) : List (Nat × Nat) → List (Nat × Nat)
  | [] => [(i, r)]
  | (j, q) :: rest => if j < i then (i, r) :: (j, q) :: rest else (j, q) :: insertOpen i r rest

/-- The open upvalue of a slot, or a new one. -/
def findOrCreateUpvalue (i : Nat) : Vm W E Nat := do
  let s ← get
  match s.openUpvalues.lookup i with
  | some r => return r
  | none =>
    modify fun s => { s with
      upvaluePool := s.upvaluePool ++ [.open i]
      openUpvalues := insertOpen i s.upvaluePool.length s.openUpvalues }
    return s.upvaluePool.length

/-- Set an entry of the upvalue pool. -/
def setUpvalue (r : Nat) (u : Upvalue) : Vm W E Unit := do
  let s ← get
  require (r < s.upvaluePool.length)
  modify fun s => { s with upvaluePool := s.upvaluePool.set r u }

/-- Close the open upvalues of a list, the highest first, down to a level. -/
def closeFrom (level : Nat) : List (Nat × Nat) → Vm W E Unit
  | [] => pure ()
  | (i, r) :: rest =>
    if i < level then pure ()
    else do
      modify fun s => { s with openUpvalues := rest }
      let v ← readSlot i
      setUpvalue r (.closed v)
      closeFrom level rest

/-- Close all open upvalues at or above a stack level. -/
def closeUpvalues (level : Nat) : Vm W E Unit := do
  let s ← get
  closeFrom level s.openUpvalues

/-- Refuse when an open upvalue points at or above the start of a window the
    next operation reshapes. -/
def checkWindow (first : Nat) : Vm W E Unit := do
  let s ← get
  match s.openUpvalues with
  | (i, _) :: _ => if i ≥ first then fail .windowOverlapsOpenUpvalue
  | [] => pure ()

/-- The value of an upvalue of the running closure. -/
def upvalueValue (frame : Frame) (index : Nat) : Vm W E Val := do
  let r ← demand frame.upvalues[index]?
  let s ← get
  match ← demand s.upvaluePool[r]? with
  | .open i => readSlot i
  | .closed v => return v

/-- Write an upvalue of the running closure. -/
def setUpvalueValue (frame : Frame) (index : Nat) (v : Val) : Vm W E Unit := do
  let r ← demand frame.upvalues[index]?
  let s ← get
  match ← demand s.upvaluePool[r]? with
  | .open i => writeSlot i v
  | .closed _ => setUpvalue r (.closed v)

/-! ## Closures -/

/-- Intern string literals. -/
def internAll (rt : Runtime W E) : List (List UInt8) → Vm W E (List Val)
  | [] => return []
  | literal :: literals => do
    let v ← ask (rt.allocString literal)
    let vs ← internAll rt literals
    return v :: vs

/-- Allocate a closure. -/
def allocClosure (rt : Runtime W E) (closure : Closure) : Vm W E Val := do
  let p ← tell rt.allocClosure
  modify fun s => { s with luaFunctions := Function.update s.luaFunctions p (some closure) }
  return .obj p

/-- Push a closure over a program. -/
def pushChunk (rt : Runtime W E) (program : Program) : Vm W E Unit := do
  checkStackSpace 1
  let literals ← internAll rt program.bytecode.stringLiterals
  let v ← allocClosure rt ⟨program.bytecode, literals, []⟩
  pushAll [v]

end Machine

end Dellingr
