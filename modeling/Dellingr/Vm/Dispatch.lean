import Dellingr.Vm.Call

/-!
# The dispatch loop

The execution of bytecode: one instruction (`execInstr`), the instructions of one
activation until it calls or returns (`runFrame`), the activations of one
invocation (`evalBatched`, `runInvocation`), and the calls made from Rust
(`callUnguarded`), which start an invocation of their own.

The loops take a bound on the number of instructions and activations, and the
nesting of invocations one on its depth (`callFn`); where a bound is reached the
computation times out. Every finite part of a run is the run under some bound.
-/

namespace Dellingr

/-- How an activation was left: a Lua callee was admitted, it was admitted by a
    tail call, or the activation returned `count` results from `first` on. -/
inductive Leave
  | call
  | tailCall
  | ret (first count : Nat)

/-- What follows an instruction: the next one, or the end of the activation. -/
inductive Next
  | next (ip : Nat)
  | leave (how : Leave)

namespace Machine

open Effect

variable {W E : Type} (rt : Runtime W E) (call : CallFn W E)

/-! ## Cursors and operands -/

/-- The cursor `ip` moved by a verified offset. -/
def jumped (ip : Nat) (offset : Int) : Vm W E Nat :=
  if 0 ≤ offset then return ip + offset.toNat else sub ip offset.natAbs

/-- Take a jump that may go backward, polling the interrupt first when it
    does. -/
def branch (ip : Nat) (offset : Int) : Vm W E Nat := do
  if offset < 0 then world rt.pollInterrupt
  jumped ip offset

/-- A resolved string literal. -/
def literal (frame : Frame) (i : Nat) : Vm W E Val := demand frame.literals[i]?

/-- A number literal. -/
def getNumberConstant (frame : Frame) (i : Nat) : Vm W E F64 :=
  demand frame.bytecode.numberLiterals[i]?

/-- A cache operand, which names a slot of its family. The source looks the slot
    up with a check and does without it where the operand is past the family's
    slots; here that is a fault, so that the absence of faults says that it does
    not happen. -/
def cacheOperand (slots : Nat) (inst : Instr) : Vm W E (Option Nat) := do
  match inst.cacheSlot with
  | none => return none
  | some slot =>
    require (slot < slots)
    return some slot

/-! ## Table access -/

/-- Push a handler's call window, call it, and return its units whatever the
    outcome. -/
def handlerCall (window : List Val) (expected : RetCount) (units : Nat) : Vm W E Unit := do
  modify fun s => { s with metamethodDepth := s.metamethodDepth + units }
  pushAll window
  let r ← attempt (call (window.length - 1) expected)
  let s ← get
  let depth ← sub s.metamethodDepth units
  modify fun s => { s with metamethodDepth := depth }
  liftExcept r

/-- Call a handler and take its one result into register `dst`. -/
def handlerResult (dst : Nat) (window : List Val) (units : Nat) : Vm W E Unit := do
  handlerCall call window (.fixed 1) units
  let v ← popVal
  writeSlot dst v

/-- `R[dst] = receiver[key]`, through the lookup's cache slot. -/
def getIndex (dst : Nat) (receiver key : Val) (cache : Option Nat) : Vm W E Unit := do
  let s ← get
  match ← ask (rt.resolveIndex receiver key cache s.metamethodDepth) with
  | .value v => writeSlot dst v
  | .call handler target units =>
    checkStackSpace 3
    handlerResult call dst [handler, target, key] units

/-- `R[dst] = receiver.name`. -/
def regGetField (frame : Frame) (inst : Instr) (dst : Nat) (receiver : Val) : Vm W E Unit := do
  let cache ← cacheOperand frame.bytecode.fieldCacheSlots inst
  let key ← literal frame inst.c
  getIndex rt call dst receiver key cache

/-- `R[dst] = R[table][R[key]]`. -/
def regGetTable (dst table key : Nat) : Vm W E Unit := do
  let receiver ← readSlot table
  let keyVal ← readSlot key
  getIndex rt call dst receiver keyVal none

/-- `receiver[key] = v`, through the store's cache slot. -/
def setIndex (receiver key v : Val) (cache : Option Nat) : Vm W E Unit := do
  let s ← get
  match ← ask (rt.storeField receiver key v cache s.metamethodDepth) with
  | none => return ()
  | some (handler, target, units) =>
    checkStackSpace 4
    handlerCall call [handler, target, key, v] (.fixed 0) units

/-- `R[table].name = R[src]`. -/
def regSetField (frame : Frame) (inst : Instr) (table src : Nat) : Vm W E Unit := do
  let receiver ← readSlot table
  let v ← readSlot src
  let key ← literal frame inst.b
  let cache ← cacheOperand frame.bytecode.setFieldCacheSlots inst
  setIndex rt call receiver key v cache

/-- `R[table][R[key]] = R[src]`. -/
def regSetTable (table key src : Nat) : Vm W E Unit := do
  let keyVal ← readSlot key
  let v ← readSlot src
  let receiver ← readSlot table
  setIndex rt call receiver keyVal v none

/-- A constructor's store into the fresh table `R[table]`, at its pinned entry
    if it has one. -/
def initTable (table : Nat) (key : Val) (src : Nat) (entry : Option Nat) : Vm W E Unit := do
  let v ← readSlot src
  let tbl ← readSlot table
  world (rt.initField tbl key v entry)

/-- Store `count` positional values from `R[table + 1..]` as batch `batch` of
    the constructor in `R[table]`. -/
def regSetList (table count batch : Nat) : Vm W E Unit := do
  let tbl ← readSlot table
  let values ← readSlots (table + 1) count
  world (rt.setList tbl (batch * MAX_TABLE_BATCH_SIZE + 1) values)

/-- The keys of a template, resolved. -/
def templateKeys (frame : Frame) : List Nat → Vm W E (List Val)
  | [] => return []
  | key :: keys => do
    let v ← literal frame key
    let vs ← templateKeys frame keys
    return v :: vs

/-- `R[dst] = {...}` from a constructor template. -/
def regNewTableTemplate (frame : Frame) (dst template : Nat) : Vm W E Unit := do
  let keys ← demand frame.bytecode.tableTemplates[template]?
  let keys ← templateKeys frame keys
  let v ← tell (rt.allocTableWithTemplate keys)
  writeSlot dst v

/-- `R[dst] = #R[src]`. -/
def regLen (dst src : Nat) : Vm W E Unit := do
  let v ← readSlot src
  match ← ask (rt.resolveLength v) with
  | .inl len => writeSlot dst len
  | .inr handler =>
    checkStackSpace 3
    handlerResult call dst [handler, v, v] 0

/-! ## Values -/

/-- A binary arithmetic instruction on two values. -/
def arith (op : ArithOp) (dst : Nat) (lhs rhs : Val) : Vm W E Unit := do
  match lhs, rhs with
  | .num x, .num y => writeSlot dst (.num (rt.arithmetic op x y))
  | _, _ =>
    let s ← get
    raise (rt.arithmeticError lhs rhs s.world)

/-- `R[dst] = R[first] .. ... .. R[first + count - 1]`. -/
def regConcat (dst first count : Nat) : Vm W E Unit := do
  let values ← readSlots first count
  let v ← ask (rt.concat values)
  writeSlot dst v

/-- Compare two values. -/
def compareVals (op : CompareOp) (lhs rhs : Val) : Vm W E Bool := do
  let s ← get
  match rt.compare op lhs rhs s.world with
  | .ok b => return b
  | .error e => raise e

/-- A number among the controls of a numeric loop. -/
def forNumber (v : Val) : Vm W E F64 := do
  match v.asNum with
  | some n => return n
  | none =>
    let s ← get
    raise (rt.forTypeError v s.world)

/-- Numeric-for setup over the registers from `slot` on: the cursor past the
    loop when it does not run. -/
def instrForPrep (slot ip : Nat) (bodyLen : Int) : Vm W E Nat := do
  let startVal ← readSlot slot
  let endVal ← readSlot (slot + 1)
  let stepVal ← readSlot (slot + 2)
  let step ← forNumber rt stepVal
  let limit ← forNumber rt endVal
  let start ← forNumber rt startVal
  if rt.forCondition start limit step then
    writeSlots slot [.num start, .num limit, .num step, .num start]
    return ip
  else jumped ip bodyLen

/-- Numeric-for step: the cursor back at the body while the loop continues. -/
def instrForLoop (slot ip : Nat) (offset : Int) : Vm W E Nat := do
  let varVal ← readSlot slot
  let limitVal ← readSlot (slot + 1)
  let stepVal ← readSlot (slot + 2)
  match varVal.asNum, limitVal.asNum, stepVal.asNum with
  | some var, some limit, some step =>
    let var := rt.forStep var step
    if rt.forCondition var limit step then
      -- An interrupted iteration writes no counter.
      let ip ← branch rt ip offset
      writeSlot slot (.num var)
      writeSlot (slot + 3) (.num var)
      return ip
    else return ip
  | _, _, _ => fail .numericForControlsNotNumeric

/-! ## Generic loops -/

/-- The loop variables of `numVars` from the results of the iterator. -/
def tforVars (numVars : Nat) (results : List Val) : List Val :=
  (List.range numVars).map fun i => results.getD i .nil

/-- Move the `returned` iterator results at `base'` into the loop variables, then
    drop them. -/
def takeTforResults (base numVars base' returned : Nat) : Vm W E Unit := do
  let results ← readSlots base' returned
  writeSlots (base + 3) (tforVars numVars results)
  truncate base'

/-- Call the iterator on the loop's state and control, and store its results in
    the loop variables. -/
def instrTforCall (base numVars : Nat) (cursor : Option Nat) : Vm W E Unit := do
  let iterator ← readSlot base
  let state ← readSlot (base + 1)
  let control ← readSlot (base + 2)
  match ← tell (rt.tforDirect iterator state control cursor) with
  | some (first, second) =>
    writeSlots (base + 3) (tforVars numVars (first :: second.toList))
  | none =>
    let s ← get
    let base' := s.stack.length
    match iterator with
    | .rustFn f =>
      checkStackSpace 2
      pushAll [state, control]
      let returned ← invokeRustFn rt call f base'
      takeTforResults base numVars base' returned
    | _ =>
      checkStackSpace 3
      pushAll [iterator, state, control]
      call 2 .all
      let s ← get
      let returned ← sub s.stack.length base'
      takeTforResults base numVars base' returned

/-- The cursor out of a generic loop whose first variable is nil; else the
    control variable is updated. -/
def instrTforLoop (base ip : Nat) (offset : Int) : Vm W E Nat := do
  let first ← readSlot (base + 3)
  if first = .nil then jumped ip offset
  else
    writeSlot (base + 2) first
    return ip

/-! ## Functions -/

/-- The upvalues a closure captures from the running frame. -/
def capture (frame : Frame) : List UpvalueDesc → Vm W E (List Nat)
  | [] => return []
  | desc :: descs => do
    let r ← (match desc with
      | .local i => findOrCreateUpvalue (frame.stackBottom + i)
      | .upvalue i => demand frame.upvalues[i]?)
    let rs ← capture frame descs
    return r :: rs

/-- `R[dst] =` a closure of a nested function, capturing its upvalues from the
    running frame. -/
def regClosure (frame : Frame) (dst nested : Nat) : Vm W E Unit := do
  let bytecode ← demand frame.bytecode.nested[nested]?
  let literals ← internAll rt bytecode.stringLiterals
  let captured ← capture frame bytecode.upvalues
  let v ← allocClosure rt ⟨bytecode, literals, captured⟩
  writeSlot dst v

/-- Copy the extra arguments to `R[dst..]`: exactly `n` padded with nil, or every
    one, leaving the top after the last. -/
def regVararg (dst : Nat) (count : RetCount) : Vm W E Unit := do
  let s ← get
  let info ← demand s.callStack.head?
  let available ← sub s.varargStack.length info.varargStart
  let varargs := s.varargStack.drop info.varargStart
  match count with
  | .fixed n =>
    writeSlots dst (varargs.take (min n available) ++
      List.replicate (n - min n available) .nil)
  | .all =>
    checkWindow dst
    checkStackSpace (available - (s.stack.length - dst))
    truncate dst
    pushAll varargs

/-! ## Instructions -/

/-- Execute an instruction of a frame; `ip` is the cursor past it. -/
def execInstr (frame : Frame) (inst : Instr) (ip : Nat) : Vm W E Next := do
  let op ← demand inst.opcode
  let base := frame.stackBottom
  let ra := base + inst.a
  let rb := base + inst.b
  let rc := base + inst.c
  world (rt.charge op)
  match op with
  -- Moves and constants
  | .move =>
    let v ← readSlot rb
    writeSlot ra v
    return .next ip
  | .loadNil =>
    writeSlots ra (List.replicate inst.b .nil)
    return .next ip
  | .loadBool =>
    writeSlot ra (.bool (inst.b != 0))
    return .next ip
  | .loadNum =>
    let n ← getNumberConstant frame inst.b
    writeSlot ra (.num n)
    return .next ip
  | .loadStr =>
    let v ← literal frame inst.b
    writeSlot ra v
    return .next ip
  -- Upvalues
  | .getUpval =>
    let v ← upvalueValue frame inst.b
    writeSlot ra v
    return .next ip
  | .setUpval =>
    let v ← readSlot ra
    setUpvalueValue frame inst.b v
    return .next ip
  | .close =>
    closeUpvalues ra
    return .next ip
  -- Globals and builtins
  | .getGlobal =>
    let cache ← cacheOperand frame.bytecode.globalCacheSlots inst
    let name ← literal frame inst.b
    let v ← tell (rt.readGlobal name cache)
    writeSlot ra v
    return .next ip
  | .setGlobal =>
    let cache ← cacheOperand frame.bytecode.globalCacheSlots inst
    let v ← readSlot ra
    let name ← literal frame inst.b
    tell fun w => ((), rt.writeGlobal name cache v w)
    return .next ip
  | .getBuiltin =>
    require (inst.b < BUILTIN_COUNT)
    let v ← tell fun w => (rt.readBuiltin inst.b w, w)
    writeSlot ra v
    return .next ip
  | .setBuiltin =>
    require (inst.b < BUILTIN_COUNT)
    let v ← readSlot ra
    tell fun w => ((), rt.writeBuiltin inst.b v w)
    return .next ip
  -- Table creation
  | .newTable =>
    let v ← tell (rt.allocTable 0)
    writeSlot ra v
    return .next ip
  | .newTablePresized =>
    let v ← tell (rt.allocTable inst.b)
    writeSlot ra v
    return .next ip
  | .newTableTemplate =>
    regNewTableTemplate rt frame ra inst.b
    return .next ip
  -- Table reads
  | .getField =>
    let receiver ← readSlot rb
    regGetField rt call frame inst ra receiver
    return .next ip
  | .self =>
    let receiver ← readSlot rb
    writeSlot (ra + 1) receiver
    regGetField rt call frame inst ra receiver
    return .next ip
  | .getTable =>
    regGetTable rt call ra rb rc
    return .next ip
  -- Table writes
  | .setField =>
    regSetField rt call frame inst ra rc
    return .next ip
  | .setTable =>
    regSetTable rt call ra rb rc
    return .next ip
  | .initField =>
    let key ← literal frame inst.b
    initTable rt ra key rc none
    return .next ip
  | .initFieldPinned =>
    let key ← literal frame inst.b
    initTable rt ra key rc (some inst.d)
    return .next ip
  | .initIndex =>
    let key ← readSlot rb
    initTable rt ra key rc none
    return .next ip
  | .setList =>
    let s ← get
    let count ← (match inst.setListCount with
      | some count => return count
      | none => sub s.stack.length (ra + 1))
    world (rt.chargeElements count)
    regSetList rt ra count inst.c
    if inst.setListCount = none then resize frame.top
    return .next ip
  -- Arithmetic
  | .arith op .regReg =>
    let lhs ← readSlot rb
    let rhs ← readSlot rc
    arith rt op ra lhs rhs
    return .next ip
  | .arith op .regConst =>
    let lhs ← readSlot rb
    let y ← getNumberConstant frame inst.c
    arith rt op ra lhs (.num y)
    return .next ip
  | .arith op .constReg =>
    let x ← getNumberConstant frame inst.b
    let rhs ← readSlot rc
    arith rt op ra (.num x) rhs
    return .next ip
  | .unm =>
    match ← readSlot rb with
    | .num n => writeSlot ra (.num (rt.negate n))
    | other => do
      let s ← get
      raise (rt.arithmeticError other other s.world)
    return .next ip
  | .not =>
    let v ← readSlot rb
    writeSlot ra (.bool !v.truthy)
    return .next ip
  | .len =>
    regLen rt call ra rb
    return .next ip
  | .concat =>
    regConcat rt ra rb inst.c
    return .next ip
  -- Comparisons
  | .compare op =>
    let lhs ← readSlot rb
    let rhs ← readSlot rc
    let b ← compareVals rt op lhs rhs
    writeSlot ra (.bool b)
    return .next ip
  -- Control flow
  | .jmp =>
    let ip ← branch rt ip inst.sj
    return .next ip
  | .branchCompare op =>
    let lhs ← readSlot ra
    let rhs ← readSlot rb
    if ← compareVals rt op lhs rhs then return .next ip
    else
      let ip ← branch rt ip inst.sj
      return .next ip
  | .testFalse =>
    let v ← readSlot ra
    if v.truthy then return .next ip
    else
      let ip ← branch rt ip inst.sj
      return .next ip
  | .testTrue =>
    let v ← readSlot ra
    if v.truthy then
      let ip ← branch rt ip inst.sj
      return .next ip
    else return .next ip
  -- Loops
  | .forPrep =>
    let ip ← instrForPrep rt ra ip inst.sj
    return .next ip
  | .forLoop =>
    let ip ← instrForLoop rt ra ip inst.sj
    return .next ip
  | .tforCall =>
    world rt.flushCost
    let cursor ← cacheOperand frame.bytecode.tforCursorSlots inst
    instrTforCall rt call ra inst.b cursor
    return .next ip
  | .tforLoop =>
    let ip ← instrTforLoop ra ip inst.sj
    return .next ip
  -- Functions
  | .closure =>
    regClosure rt frame ra inst.b
    return .next ip
  | .call =>
    world rt.flushCost
    let args ← callWindow ra inst.callArgs
    if ← callFromLua rt call args inst.callResults then return .leave .call
    else
      match inst.callResults with
      | .fixed _ => resize frame.top
      | .all => pure ()
      return .next ip
  | .ret =>
    world rt.flushCost
    match inst.returnCount with
    | .fixed n => return .leave (.ret ra n)
    | .all =>
      let s ← get
      let count ← sub s.stack.length ra
      return .leave (.ret ra count)
  | .vararg =>
    regVararg ra inst.varargCount
    return .next ip
  | .tailCall =>
    match ← tailCallFromLua rt call inst ra with
    | some count =>
      let first ← sub base 1
      return .leave (.ret first count)
    | none => return .leave .tailCall

/-- Dispatch one activation of a frame from the cursor `ip` until it calls a Lua
    function or returns, giving the cursor it was left at. -/
def runFrame (frame : Frame) : (fuel ip : Nat) → Vm W E (Leave × Nat)
  | 0, _ => timeout
  | fuel + 1, ip => do
    let inst ← demand frame.bytecode.code[ip]?
    match ← execInstr rt call frame inst (ip + 1) with
    | .next ip' => runFrame frame fuel ip'
    | .leave how => return (how, ip + 1)

/-! ## Invocations -/

/-- Return from a frame to its Lua caller, giving the frames left and the error,
    if any: one of the returning frame while it is still there, or one of the
    caller's call instruction. -/
def returnToCaller (frame caller : Frame) (rest : List Frame) (first count : Nat) :
    Vm W E (List Frame × Except (ErrorKind E) Unit) := do
  match ← attempt (collectReturns frame first count) with
  | .error e => return (frame :: caller :: rest, .error e)
  | .ok count =>
    popActivation
    setBottom caller.stackBottom
    let expected ← pendingCallResults caller
    match ← attempt (finishCall expected count) with
    | .error e => return (caller :: rest, .error e)
    | .ok () =>
      match expected with
      | .fixed _ => resize caller.top
      | .all => pure ()
      return (caller :: rest, .ok ())

/-- Run the frames of an invocation, the innermost first, until its entry frame
    returns or an error is raised; the frames left are those of that moment. -/
def evalBatched (bound : Nat) : (fuel : Nat) → List Frame →
    Vm W E (List Frame × Except (ErrorKind E) (Nat × Nat))
  | 0, _ => timeout
  | _ + 1, [] => panic
  | fuel + 1, frame :: rest => do
    match ← attempt (runFrame rt call frame bound frame.ip) with
    | .error e => return (frame :: rest, .error e)
    | .ok (.call, ip) =>
      let callee ← admittedFrame
      evalBatched bound fuel (callee :: { frame with ip := ip } :: rest)
    | .ok (.tailCall, _) =>
      replaceTailCaller
      let callee ← admittedFrame
      evalBatched bound fuel (callee :: rest)
    | .ok (.ret first count, ip) =>
      match rest with
      | [] => return ([{ frame with ip := ip }], .ok (first, count))
      | caller :: rest =>
        match ← returnToCaller { frame with ip := ip } caller rest first count with
        | (frames, .ok ()) => evalBatched bound fuel frames
        | (frames, .error e) => return (frames, .error e)

/-- Run the Lua activation just admitted to completion in a dispatch-loop
    invocation of its own. On success its results sit from its function slot
    upwards, and their count is returned. -/
def runInvocation (bound oldStackBottom : Nat) : Vm W E Nat := do
  let frame ← admittedFrame
  match ← evalBatched rt call bound bound [frame] with
  | (frames, .error e) =>
    unwindInvocation oldStackBottom frames
    fail e
  | (frames, .ok (first, count)) =>
    let frame ← demand frames.head?
    match ← attempt (collectReturns frame first count) with
    | .error e =>
      unwindInvocation oldStackBottom frames
      fail e
    | .ok count =>
      popActivation
      setBottom oldStackBottom
      return count

/-- A call made from Rust. -/
def callUnguarded (bound : Nat) (numArgs : Nat) (expected : RetCount) : Vm W E Unit := do
  let idx ← callBase numArgs
  let s ← get
  let oldStackBottom := s.stackBottom
  let result ← attempt (
    if s.nativeCallDepth ≥ MAX_NATIVE_CALL_DEPTH then
      fail (.nativeCallDepthExceeded s.nativeCallDepth MAX_NATIVE_CALL_DEPTH)
    else do
      modify fun s => { s with nativeCallDepth := s.nativeCallDepth + 1 }
      let r ← attempt (do
        let actual ← (do
          match ← beginCall rt call idx numArgs oldStackBottom false with
          | some n => return n
          | none => runInvocation rt call bound oldStackBottom)
        finishCall expected actual)
      let s ← get
      let depth ← sub s.nativeCallDepth 1
      modify fun s => { s with nativeCallDepth := depth }
      liftExcept r)
  match result with
  | .ok () => return ()
  | .error e =>
    truncate idx
    setBottom oldStackBottom
    fail e

/-- The calls made from Rust, nested at most `depth` deep. -/
def callFn (bound : Nat) : (depth : Nat) → CallFn W E
  | 0 => fun _ _ => timeout
  | depth + 1 => callUnguarded rt (callFn bound depth) bound

end Machine

end Dellingr
