import Dellingr.Vm.Machine

/-!
# Calls

Calling a function, from Lua and from Rust: the resolution of the callee, the
admission of a Lua call and the layout of its frame, the invocation of a Rust
function, the return of results and the cleanup after an error.

Every function takes the one way Rust code calls a function, `call_unguarded`,
as a parameter (`CallFn`), since a Rust callee may use it again; the knot is tied
in `Dellingr.Vm.Dispatch`.
-/

namespace Dellingr

/-- A call made from Rust: of the function below the given number of topmost
    arguments, for the given results. -/
abbrev CallFn (W E : Type) := Nat → RetCount → Vm W E Unit

namespace Machine

open Effect

variable {W E : Type} (rt : Runtime W E) (call : CallFn W E)

/-- Set the bottom of the running frame. -/
def setBottom (bottom : Nat) : Vm W E Unit :=
  modify fun s => { s with stackBottom := bottom }

/-- The stack index of the callee of a call with `numArgs` arguments on top. -/
def callBase (numArgs : Nat) : Vm W E Nat := do
  let top ← getTop
  let s ← get
  if numArgs + 1 ≤ top then return s.stackBottom + (top - (numArgs + 1))
  else fail (.invalidStackIndex (-(numArgs : Int) - 1))

/-- Prepare a call's operand window at `callee`: with fixed arguments the stack
    ends right after them, and with open arguments the producer already left the
    top there. Returns the argument count. -/
def callWindow (callee : Nat) (args : ArgCount) : Vm W E Nat := do
  checkWindow callee
  match args with
  | .fixed n =>
    truncate (callee + 1 + n)
    return n
  | .dynamic =>
    let s ← get
    let actual ← sub s.stack.length callee
    let actual ← sub actual 1
    if actual ≤ MAX_ARGUMENTS then return actual else fail (.tooManyArguments MAX_ARGUMENTS)

/-! ## Rust functions -/

/-- Run a Rust function's program on the slots from its frame bottom on. -/
def runHost : Host W E → Vm W E Nat
  | .done result => do
    let n ← liftExcept result
    return n.toNat
  | .work f next => do
    let s ← get
    let r := f (s.stack.drop s.stackBottom) s.world
    modify fun s => { s with stack := s.stack.take s.stackBottom ++ r.1, world := r.2 }
    runHost (next r.1 r.2)
  | .load program next => do
    let r ← attempt (pushChunk rt program)
    runHost (next r)
  | .call numArgs expected next => do
    let r ← attempt (call numArgs.toNat expected)
    runHost (next r)

/-- Invoke a Rust function on the arguments from `callBase` on. On success its
    results occupy the slots from `callBase` on, and their count is returned. -/
def invokeRustFn (function : RustFnId) (callBase : Nat) : Vm W E Nat := do
  world rt.pollInterrupt
  let s ← get
  setBottom callBase
  match ← attempt (runHost rt call (rt.rustFunction function s.world)) with
  | .error e =>
    setBottom s.stackBottom
    fail e
  | .ok reported =>
    let available ← getTop
    if reported > available then
      setBottom s.stackBottom
      fail (.resultCountExceedsStack reported available)
    else
      modify fun s =>
        { s with stack := s.stack.take callBase ++ s.stack.drop (s.stack.length - reported) }
      setBottom s.stackBottom
      return reported

/-! ## Admission -/

/-- Pop the innermost activation record and its extra arguments, releasing the
    units it held. -/
def popActivation : Vm W E Unit := do
  let s ← get
  let info ← demand s.callStack.head?
  let metamethodDepth ← sub s.metamethodDepth info.units
  let callDepth ← sub s.callDepth 1
  modify fun s => { s with
    metamethodDepth := metamethodDepth
    varargStack := s.varargStack.take info.varargStart
    callStack := s.callStack.tail
    callDepth := callDepth }

/-- Undo a refused admission. -/
def rejectAdmission {α : Type} (e : ErrorKind E) (frameBottom oldStackBottom : Nat) :
    Vm W E α := do
  truncate frameBottom
  setBottom oldStackBottom
  popActivation
  fail e

/-- Move the extra arguments from `start` on to the shared arena. -/
def collectVarargs (start : Nat) : Vm W E Unit := do
  let s ← get
  require (start ≤ s.stack.length)
  modify fun s => { s with
    varargStack := s.varargStack ++ s.stack.drop start
    stack := s.stack.take start }

/-- Push the record of a call whose frame starts at `frameBottom`. A vararg
    function's extra arguments move to the arena, another's surplus arguments
    are dropped. -/
def layoutArguments (bytecode : Bytecode) (numArgs frameBottom : Nat) : Vm W E Unit := do
  let s ← get
  let varargStart := s.varargStack.length
  if bytecode.isVararg ∧ numArgs > bytecode.numParams then
    let start ← sub s.stack.length (numArgs - bytecode.numParams)
    collectVarargs start
  modify fun s => { s with callStack := ⟨varargStart, 0⟩ :: s.callStack }
  if numArgs > bytecode.numParams ∧ ¬bytecode.isVararg then
    truncate (frameBottom + bytecode.numParams)

/-- Reserve the registers of a frame and the headroom above them, or undo the
    admission. -/
def reserveFrame (frameBottom maxStack oldStackBottom : Nat) : Vm W E Unit := do
  let frameTop := frameBottom + maxStack
  let s ← get
  match ← attempt (checkStackSpace (frameTop + FRAME_HEADROOM - s.stack.length)) with
  | .error e => rejectAdmission e frameBottom oldStackBottom
  | .ok () => resize frameTop

/-- Admit a Lua call: check the call depth, push the activation record, and lay
    out the callee's frame above the arguments. A tail admission does not count
    the activation it replaces. -/
def admitLuaCall (bytecode : Bytecode) (numArgs oldStackBottom : Nat) (tail : Bool) :
    Vm W E Unit := do
  let s ← get
  let depth ← sub s.callDepth (if tail then 1 else 0)
  if depth ≥ MAX_CALL_DEPTH then fail (.callDepthExceeded depth MAX_CALL_DEPTH)
  world rt.pollInterrupt
  let frameBottom ← sub s.stack.length numArgs
  modify fun s => { s with callDepth := s.callDepth + 1, stackBottom := frameBottom }
  layoutArguments bytecode numArgs frameBottom
  reserveFrame frameBottom bytecode.maxStack oldStackBottom

/-- The frame of the activation just admitted, built from the closure in its
    function slot. -/
def admittedFrame : Vm W E Frame := do
  let s ← get
  let slot ← sub s.stackBottom 1
  let v ← readSlot slot
  let closure ← demand (s.luaFunction v)
  return {
    bytecode := closure.bytecode
    literals := closure.literals
    upvalues := closure.upvalues
    stackBottom := s.stackBottom
    top := s.stackBottom + closure.bytecode.maxStack
    ip := 0 }

/-! ## Resolution -/

/-- Resolve a callee that is not a function through its `__call` handlers, each
    taking the callable before it as one more argument. There is room for
    `MAX_ARGUMENTS` arguments in all. Gives the outcome and the units still to
    be released. -/
def resolveCallable (idx oldStackBottom : Nat) (tail : Bool) :
    (room charges : Nat) → Vm W E (Except (ErrorKind E) (Option Nat) × Nat)
  | room, charges => do
    let s ← get
    let func ← readSlot idx
    match func, s.luaFunction func with
    | .rustFn f, _ => do
      drain idx (idx + 1)
      let r ← attempt (invokeRustFn rt call f idx)
      return (r.map some, charges)
    | _, some closure => do
      match ← attempt
        (admitLuaCall rt closure.bytecode (MAX_ARGUMENTS - room) oldStackBottom tail) with
      | .error e => return (.error e, charges)
      | .ok () =>
        let s ← get
        let info ← demand s.callStack.head?
        modify fun s =>
          { s with callStack := { info with units := charges } :: s.callStack.tail }
        return (.ok none, 0)
    | _, none => do
      let handler := rt.callHandler func s.world
      if handler = .nil then return (.error (.functionCall func), charges)
      match room with
      | 0 => return (.error (.tooManyArguments MAX_ARGUMENTS), charges)
      | room + 1 =>
        match ← attempt (checkStackSpace 1) with
        | .error e => return (.error e, charges)
        | .ok () =>
          writeSlot idx handler
          insertSlot (idx + 1) func
          let s ← get
          match handler, s.luaFunction handler with
          | .rustFn _, _ | _, some _ =>
            resolveCallable idx oldStackBottom tail room charges
          | _, none =>
            if s.metamethodDepth ≥ MAX_METAMETHOD_DEPTH then
              return (.error (.metamethodDepthExceeded s.metamethodDepth MAX_METAMETHOD_DEPTH),
                charges)
            else
              modify fun s => { s with metamethodDepth := s.metamethodDepth + 1 }
              resolveCallable idx oldStackBottom tail room (charges + 1)

/-- Release units of a `__call` chain. -/
def releaseChainCharges (charges : Nat) : Vm W E Unit := do
  let s ← get
  let depth ← sub s.metamethodDepth charges
  modify fun s => { s with metamethodDepth := depth }

/-- Start a call of a callee that is not a function. -/
def beginCallableCall (idx numArgs oldStackBottom : Nat) (tail : Bool) :
    Vm W E (Option Nat) := do
  let (result, charges) ← resolveCallable rt call idx oldStackBottom tail
    (MAX_ARGUMENTS - numArgs) 0
  releaseChainCharges charges
  liftExcept result

/-- Resolve the callable at `idx` and start the call. A Rust callee runs to
    completion and its result count is returned; a Lua callee is admitted but
    not run. -/
def beginCall (idx numArgs oldStackBottom : Nat) (tail : Bool) : Vm W E (Option Nat) := do
  let s ← get
  let func ← readSlot idx
  match func, s.luaFunction func with
  | .rustFn f, _ => do
    drain idx (idx + 1)
    let n ← invokeRustFn rt call f idx
    return some n
  | _, some closure => do
    admitLuaCall rt closure.bytecode numArgs oldStackBottom tail
    return none
  | _, none => beginCallableCall rt call idx numArgs oldStackBottom tail

/-- Adjust a completed call's results to the expected count. -/
def finishCall (expected : RetCount) (actual : Nat) : Vm W E Unit := do
  match expected with
  | .all => return ()
  | .fixed n =>
    if n ≠ actual then
      let s ← get
      let kept ← sub s.stack.length actual
      resizeStack (kept + n)

/-- A call made by `OP_CALL`: whether a Lua callee was admitted. -/
def callFromLua (numArgs : Nat) (expected : RetCount) : Vm W E Bool := do
  let idx ← callBase numArgs
  let s ← get
  match ← beginCall rt call idx numArgs s.stackBottom false with
  | some n =>
    finishCall expected n
    return false
  | none => return true

/-- The call of `OP_TAILCALL`, which ends the calling activation before the
    callee runs: the callee and its arguments slide down into the caller's
    function slot. A Rust callee's result count is returned. -/
def tailCallFromLua (inst : Instr) (ra : Nat) : Vm W E (Option Nat) := do
  world rt.flushCost
  let numArgs ← callWindow ra inst.callArgs
  let callee ← callBase numArgs
  let s ← get
  let callerBottom := s.stackBottom
  let destination ← sub callerBottom 1
  closeUpvalues callerBottom
  drain destination callee
  let s ← get
  let caller ← demand s.callStack.head?
  modify fun s => { s with callStack := { caller with units := 0 } :: s.callStack.tail }
  releaseChainCharges caller.units
  setBottom destination
  beginCall rt call destination numArgs destination true

/-- Finish a tail call whose Lua callee was admitted: the callee's record takes
    the caller's place and extra-argument start. -/
def replaceTailCaller : Vm W E Unit := do
  let s ← get
  match s.callStack with
  | callee :: caller :: rest =>
    require (caller.varargStart ≤ callee.varargStart ∧
      callee.varargStart ≤ s.varargStack.length)
    let callDepth ← sub s.callDepth 1
    modify fun s => { s with
      varargStack :=
        s.varargStack.take caller.varargStart ++ s.varargStack.drop callee.varargStart
      callStack := { callee with varargStart := caller.varargStart } :: rest
      callDepth := callDepth }
  | _ => panic

/-! ## Returns -/

/-- Finish a returning frame's results, the `count` values from `first` on:
    close the frame's upvalues, and slide the results down into its function
    slot. -/
def collectReturns (frame : Frame) (first count : Nat) : Vm W E Nat := do
  if count > MAX_RESULTS then fail (.tooManyResults MAX_RESULTS)
  closeUpvalues frame.stackBottom
  truncate (first + count)
  let slot ← sub frame.stackBottom 1
  drain slot first
  return count

/-- The result count of the call a suspended frame is waiting on, read back from
    the instruction before its cursor. -/
def pendingCallResults (frame : Frame) : Vm W E RetCount := do
  let pc ← sub frame.ip 1
  let inst ← demand frame.bytecode.code[pc]?
  return inst.callResults

/-- Unwind every frame of an invocation after an error, the innermost first. -/
def unwindInvocation (oldStackBottom : Nat) : List Frame → Vm W E Unit
  | [] => setBottom oldStackBottom
  | frame :: frames => do
    closeUpvalues frame.stackBottom
    truncate frame.stackBottom
    popActivation
    match frames.head? with
    | some caller => setBottom caller.stackBottom
    | none => pure ()
    unwindInvocation oldStackBottom frames

end Machine

end Dellingr
