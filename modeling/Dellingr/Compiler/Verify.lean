import Dellingr.Compiler.Bytecode

/-!
# The bytecode verifier

What every function admitted to execution has passed, whether it was compiled
or comes from a save a user may have edited: static operand bounds, register
ranges, the control flow and the open-results protocol.

Open results are the only place where the top of the stack differs from the top
of the frame between instructions: a producer (a call asking for all results, a
vararg of every value) must be followed by its consumer (a call with open
arguments, an open return or set-list) on the very next instruction, which no
jump may enter, and the range the consumer reads must start at or below that of
the producer.

The verifier also restates the policy by which cache slots are allocated, and
checks it against the counts the function declares.
-/

namespace Dellingr

/-- The most fixed arguments of a call in bytecode. -/
def MAX_FIXED_ARGS : Nat := 254

/-- The most fixed results of a call in bytecode. -/
def MAX_FIXED_RESULTS : Nat := 254

/-- The most parameters and locals of a function. -/
def MAX_FRAME_SLOTS : Nat := 255

/-- The most literals of one pool. -/
def MAX_LITERALS : Nat := 65536

/-- The most nested functions of a function. -/
def MAX_NESTED : Nat := 255

/-- The most table templates of a function. -/
def MAX_TABLE_TEMPLATES : Nat := 255

/-- The most fields of a table template. -/
def MAX_TABLE_TEMPLATE_FIELDS : Nat := 255

/-- The most captured variables of a function. -/
def MAX_UPVALUES : Nat := 255

/-! ## Rejections -/

/-- The pool an instruction operand indexes. -/
inductive BytecodeOperand
  | numberLiteral | stringLiteral | tableTemplate | nestedChunk | upvalue
  deriving DecidableEq, Repr

/-- The lists of a function that have a limit. -/
inductive BytecodePool
  | tableTemplate | nestedChunk | upvalueDescriptor | literal
  deriving DecidableEq, Repr

/-- The cache families allocated in instruction order. -/
inductive CacheFamily
  | field | setField | tforCursor
  deriving DecidableEq, Repr

/-- Why the verifier rejected a function. -/
inductive ValidationReason
  | childUpvalueInvalid
  | registerOutOfRange
  | frameTooSmall
  | frameSizeUnencodable
  | countOperandInvalid
  | openResultsNotConsumed
  | openResultsWithoutProducer
  | jumpTargetOutOfRange
  | backwardLoopExit
  | emptyCode
  | lineInfoLengthMismatch
  | missingFinalReturn
  | unknownOpcode
  | globalCacheSlotOrder
  | builtinSlotOutOfRange
  | tforCallWithoutResults
  | tforCallResultCountExceeded
  | varargInNonVarargFunction
  | booleanOperandInvalid
  | concatTooFewValues
  | cacheSlotCountMismatch
  | indexOutOfRange (operand : BytecodeOperand)
  | tooMany (what : BytecodePool) (limit : Nat)
  | tableTemplateTooLarge
  | frameSlotCountExceeded
  | templateKeyInvalid (template : Nat)
  | templateKeyDuplicate (template : Nat)
  | cacheSlotOrder (family : CacheFamily)
  | reservedBitsNonZero (opcode : Nat) (raw : BitVec 64)
  | chunkDepthExceeded
  deriving DecidableEq, Repr

/-- A rejection: the instruction it is about, if any, and the reason. -/
structure BytecodeValidationError where
  instruction : Option Nat
  reason : ValidationReason
  deriving DecidableEq, Repr

/-- The verifier's result. -/
abbrev Validation (α : Type) := Except BytecodeValidationError α

/-- Reject, naming the instruction. -/
def rejectAt {α : Type} (pc : Nat) (reason : ValidationReason) : Validation α :=
  .error ⟨some pc, reason⟩

/-- Reject the function as a whole. -/
def reject {α : Type} (reason : ValidationReason) : Validation α := .error ⟨none, reason⟩

/-- Reject unless a condition holds. -/
def ensureAt (pc : Nat) (p : Prop) [Decidable p] (reason : ValidationReason) : Validation Unit :=
  if p then .ok () else rejectAt pc reason

/-- Reject the function unless a condition holds. -/
def ensure (p : Prop) [Decidable p] (reason : ValidationReason) : Validation Unit :=
  if p then .ok () else reject reason

/-! ## Operands -/

/-- An index operand lies in its pool. -/
def checkIndex (pc value len : Nat) (operand : BytecodeOperand) : Validation Unit :=
  ensureAt pc (value < len) (.indexOutOfRange operand)

/-- The registers `first..first + count` exist in a frame of `frame`
    registers. -/
def checkRegisters (pc first count frame : Nat) : Validation Unit :=
  ensureAt pc (first + count ≤ frame) .registerOutOfRange

/-- A fixed count operand, or none when it is the open sentinel. -/
def countOperand (pc value limit : Nat) : Validation (Option Nat) :=
  if value = OPEN_COUNT then .ok none
  else if value ≤ limit then .ok (some value)
  else rejectAt pc .countOperandInvalid

/-- The absolute target of a transfer at `pc`, if it lies in the code. -/
def jumpTarget (pc : Nat) (inst : Instr) (codeLen : Nat) : Option Nat :=
  let target := (pc : Int) + 1 + inst.sj
  if 0 ≤ target ∧ target < codeLen then some target.toNat else none

/-- Where the range an open consumer reads starts: a call's arguments and a
    set-list's values just above the callee or the table, a return's values at
    its own first register. -/
def Instr.windowStart (consumer : Instr) : Nat :=
  match consumer.opcode with
  | some .call | some .tailCall | some .setList => consumer.a + 1
  | _ => consumer.a

/-- Whether `consumer` reads a range that starts at or below where `producer`
    left its values. -/
def openWindowFits (consumer producer : Instr) : Bool := consumer.windowStart ≤ producer.a

/-! ## Cache slots -/

/-- The slots allocated so far: for every string literal the slot of its first
    cached global read, and the next slot of each family. -/
structure SlotCursors where
  globals : List (Option Nat)
  nextGlobal : Nat := 0
  nextField : Nat := 0
  nextSetField : Nat := 0
  nextTforCursor : Nat := 0

/-- A cached operand of a family allocated in instruction order names the next
    slot. -/
def sequential (pc : Nat) (slot : Option Nat) (next : Nat) (family : CacheFamily) :
    Validation Nat :=
  match slot with
  | none => .ok next
  | some slot => if slot = next then .ok (next + 1) else rejectAt pc (.cacheSlotOrder family)

/-- A cached global read names its name's slot, allocating the next one on the
    name's first cached read. -/
def globalRead (pc name slot : Nat) (slots : SlotCursors) : Validation SlotCursors :=
  match slots.globals[name]?.join with
  | some expected =>
    if slot = expected then .ok slots else rejectAt pc .globalCacheSlotOrder
  | none =>
    if slot = slots.nextGlobal then
      .ok { slots with
        globals := slots.globals.set name (some slots.nextGlobal)
        nextGlobal := slots.nextGlobal + 1 }
    else rejectAt pc .globalCacheSlotOrder

/-- A cached global write takes a fresh slot. -/
def globalWrite (pc slot : Nat) (slots : SlotCursors) : Validation SlotCursors :=
  if slot = slots.nextGlobal then .ok { slots with nextGlobal := slots.nextGlobal + 1 }
  else rejectAt pc .globalCacheSlotOrder

/-! ## Instructions -/

section Check

variable (bc : Bytecode)

/-- The pool operand of an instruction lies in its pool. -/
def checkPool (pc : Nat) (inst : Instr) : Validation Unit :=
  match inst.poolOperand with
  | none => rejectAt pc .unknownOpcode
  | some (.number, i) => checkIndex pc i bc.numberLiterals.length .numberLiteral
  | some (.string, i) => checkIndex pc i bc.stringLiterals.length .stringLiteral
  | some (.template, i) => checkIndex pc i bc.tableTemplates.length .tableTemplate
  | some (.nested, i) => checkIndex pc i bc.nested.length .nestedChunk
  | some (.upvalue, i) => checkIndex pc i bc.upvalues.length .upvalue

/-- A register of the frame. -/
def checkReg (pc value : Nat) : Validation Unit := checkRegisters pc value 1 bc.maxStack

/-- The operands of a binary arithmetic instruction. -/
def checkArith (pc : Nat) (inst : Instr) (operands : ArithOperands) : Validation Unit := do
  checkReg bc pc inst.a
  match operands with
  | .regReg =>
    checkReg bc pc inst.b
    checkReg bc pc inst.c
  | .regConst =>
    checkReg bc pc inst.b
    checkPool bc pc inst
  | .constReg =>
    checkPool bc pc inst
    checkReg bc pc inst.c

/-- The operands of an instruction, and the cache slot it takes. -/
def checkOperands (pc : Nat) (inst : Instr) (op : Opcode) (slots : SlotCursors) :
    Validation SlotCursors := do
  match op with
  | .arith _ operands =>
    checkArith bc pc inst operands
    return slots
  -- Two registers: moves, unary operators and compare-and-branch.
  | .move | .unm | .not | .len | .branchCompare _ =>
    checkReg bc pc inst.a
    checkReg bc pc inst.b
    return slots
  -- Three registers: table reads and writes by key, comparisons.
  | .getTable | .setTable | .initIndex | .compare _ =>
    checkReg bc pc inst.a
    checkReg bc pc inst.b
    checkReg bc pc inst.c
    return slots
  -- One register.
  | .newTable | .testFalse | .testTrue =>
    checkReg bc pc inst.a
    return slots
  | .loadNil =>
    ensureAt pc (inst.b ≠ 0) .countOperandInvalid
    checkRegisters pc inst.a inst.b bc.maxStack
    return slots
  | .loadBool =>
    checkReg bc pc inst.a
    ensureAt pc (inst.b ≤ 1) .booleanOperandInvalid
    return slots
  | .loadNum | .loadStr | .getUpval | .setUpval | .newTableTemplate | .closure =>
    checkReg bc pc inst.a
    checkPool bc pc inst
    return slots
  | .close =>
    ensureAt pc (inst.a ≤ bc.maxStack) .registerOutOfRange
    return slots
  | .getGlobal =>
    checkReg bc pc inst.a
    checkPool bc pc inst
    match inst.cacheSlot with
    | none => return slots
    | some slot => globalRead pc inst.b slot slots
  | .setGlobal =>
    checkReg bc pc inst.a
    checkPool bc pc inst
    match inst.cacheSlot with
    | none => return slots
    | some slot => globalWrite pc slot slots
  | .getBuiltin | .setBuiltin =>
    checkReg bc pc inst.a
    ensureAt pc (inst.b < BUILTIN_COUNT) .builtinSlotOutOfRange
    return slots
  | .newTablePresized =>
    checkReg bc pc inst.a
    ensureAt pc (inst.b ≤ 255) .countOperandInvalid
    return slots
  | .getField =>
    checkReg bc pc inst.a
    checkReg bc pc inst.b
    checkPool bc pc inst
    let next ← sequential pc inst.cacheSlot slots.nextField .field
    return { slots with nextField := next }
  | .self =>
    checkRegisters pc inst.a 2 bc.maxStack
    checkReg bc pc inst.b
    checkPool bc pc inst
    let next ← sequential pc inst.cacheSlot slots.nextField .field
    return { slots with nextField := next }
  | .setField =>
    checkReg bc pc inst.a
    checkPool bc pc inst
    checkReg bc pc inst.c
    let next ← sequential pc inst.cacheSlot slots.nextSetField .setField
    return { slots with nextSetField := next }
  | .initField | .initFieldPinned =>
    checkReg bc pc inst.a
    checkPool bc pc inst
    checkReg bc pc inst.c
    return slots
  | .setList =>
    checkReg bc pc inst.a
    match ← countOperand pc inst.b 255 with
    | some count => checkRegisters pc inst.a (1 + count) bc.maxStack
    | none => pure ()
    return slots
  | .concat =>
    checkReg bc pc inst.a
    ensureAt pc (2 ≤ inst.c) .concatTooFewValues
    checkRegisters pc inst.b inst.c bc.maxStack
    return slots
  | .jmp => return slots
  -- Loop exits skip forward past the loop: dispatch does not poll the
  -- interrupt on them.
  | .forPrep | .tforLoop =>
    ensureAt pc (0 ≤ inst.sj) .backwardLoopExit
    checkRegisters pc inst.a 4 bc.maxStack
    return slots
  | .forLoop =>
    checkRegisters pc inst.a 4 bc.maxStack
    return slots
  | .tforCall =>
    ensureAt pc (inst.b ≤ 255) .tforCallResultCountExceeded
    ensureAt pc (inst.b ≠ 0) .tforCallWithoutResults
    checkRegisters pc inst.a (3 + inst.b) bc.maxStack
    let next ← sequential pc inst.cacheSlot slots.nextTforCursor .tforCursor
    return { slots with nextTforCursor := next }
  | .call =>
    ensureAt pc (inst.d ≤ 1) .booleanOperandInvalid
    let args ← countOperand pc inst.b MAX_FIXED_ARGS
    let results ← countOperand pc inst.c MAX_FIXED_RESULTS
    checkRegisters pc inst.a (1 + args.getD 0) bc.maxStack
    checkRegisters pc inst.a (results.getD 0) bc.maxStack
    return slots
  | .tailCall =>
    ensureAt pc (inst.d ≤ 1) .booleanOperandInvalid
    let args ← countOperand pc inst.b MAX_FIXED_ARGS
    checkRegisters pc inst.a (1 + args.getD 0) bc.maxStack
    return slots
  | .ret =>
    match ← countOperand pc inst.b 255 with
    | some count => checkRegisters pc inst.a count bc.maxStack
    | none => checkReg bc pc inst.a
    return slots
  | .vararg =>
    ensureAt pc bc.isVararg .varargInNonVarargFunction
    let count ← countOperand pc inst.b MAX_FIXED_RESULTS
    checkRegisters pc inst.a (max (count.getD 1) 1) bc.maxStack
    return slots

/-- Whether the instruction after the producer at `pc` consumes what it leaves,
    and no jump enters it. -/
def openConsumed (targeted : List Bool) (pc : Nat) (inst : Instr) : Bool :=
  match bc.code[pc + 1]? with
  | some next => !targeted.getD (pc + 1) false && next.consumesOpen && openWindowFits next inst
  | none => false

/-- Whether the instruction before the consumer at `pc` produces what it reads,
    and no jump enters between them. -/
def openProduced (targeted : List Bool) (pc : Nat) (inst : Instr) : Bool :=
  match pc with
  | 0 => false
  | prev + 1 =>
    match bc.code[prev]? with
    | some previous =>
      !targeted.getD pc false && previous.producesOpen && openWindowFits inst previous
    | none => false

/-- The open-results protocol at an instruction. -/
def checkOpenResults (targeted : List Bool) (pc : Nat) (inst : Instr) : Validation Unit := do
  ensureAt pc (inst.producesOpen → openConsumed bc targeted pc inst) .openResultsNotConsumed
  ensureAt pc (inst.consumesOpen → openProduced bc targeted pc inst) .openResultsWithoutProducer

/-- The checks of one instruction. -/
def checkInstr (targeted : List Bool) (slots : SlotCursors) (inst : Instr) (pc : Nat) :
    Validation SlotCursors :=
  match inst.opcode with
  | none => rejectAt pc .unknownOpcode
  | some op => do
    ensureAt pc inst.reservedBitsZero (.reservedBitsNonZero op.number inst.raw)
    let slots ← checkOperands bc pc inst op slots
    checkOpenResults bc targeted pc inst
    return slots

/-- The checks of the instructions from `pc` on. -/
def checkCode (targeted : List Bool) : List Instr → Nat → SlotCursors → Validation SlotCursors
  | [], _, slots => .ok slots
  | inst :: code, pc, slots => do
    let slots ← checkInstr bc targeted slots inst pc
    checkCode targeted code (pc + 1) slots

/-- Mark the targets of the transfers from `pc` on. -/
def markTargets (codeLen : Nat) : List Instr → Nat → List Bool → Validation (List Bool)
  | [], _, targeted => .ok targeted
  | inst :: code, pc, targeted =>
    if inst.isTransfer then
      match jumpTarget pc inst codeLen with
      | some target => markTargets codeLen code (pc + 1) (targeted.set target true)
      | none => rejectAt pc .jumpTargetOutOfRange
    else markTargets codeLen code (pc + 1) targeted

/-- The keys of a template name string literals, no two of the same content. -/
def checkTemplate (index : Nat) : List Nat → List (List UInt8) → Validation Unit
  | [], _ => .ok ()
  | key :: keys, seen =>
    match bc.stringLiterals[key]? with
    | none => reject (.templateKeyInvalid index)
    | some bytes =>
      if bytes ∈ seen then reject (.templateKeyDuplicate index)
      else checkTemplate index keys (bytes :: seen)

/-- The templates from `index` on. -/
def checkTemplates : List (List Nat) → Nat → Validation Unit
  | [], _ => .ok ()
  | template :: templates, index => do
    checkTemplate bc index template []
    checkTemplates templates (index + 1)

/-- What is checked of a function besides its instructions. -/
def checkHeader : Validation Unit := do
  ensure (bc.code ≠ []) .emptyCode
  ensure (bc.lineInfo.length = bc.code.length) .lineInfoLengthMismatch
  ensure (bc.tableTemplates.length ≤ MAX_TABLE_TEMPLATES)
    (.tooMany .tableTemplate MAX_TABLE_TEMPLATES)
  ensure (bc.nested.length ≤ MAX_NESTED) (.tooMany .nestedChunk MAX_NESTED)
  ensure (bc.upvalues.length ≤ MAX_UPVALUES) (.tooMany .upvalueDescriptor MAX_UPVALUES)
  ensure (bc.numberLiterals.length ≤ MAX_LITERALS ∧ bc.stringLiterals.length ≤ MAX_LITERALS)
    (.tooMany .literal MAX_LITERALS)
  ensure (∀ template ∈ bc.tableTemplates, template.length ≤ MAX_TABLE_TEMPLATE_FIELDS)
    .tableTemplateTooLarge
  ensure (bc.numParams + bc.numLocals ≤ MAX_FRAME_SLOTS) .frameSlotCountExceeded
  ensure (bc.maxStack ≠ OPEN_COUNT) .frameSizeUnencodable
  ensure (bc.numParams + bc.numLocals ≤ bc.maxStack) .frameTooSmall
  ensureAt (bc.code.length - 1) ((bc.code.getLast?.bind Instr.opcode) = some .ret)
    .missingFinalReturn
  checkTemplates bc bc.tableTemplates 0

/-- The declared cache slots are those the instructions take. -/
def checkSlotCounts (slots : SlotCursors) : Validation Unit :=
  ensure (bc.globalCacheSlots = slots.nextGlobal ∧ bc.fieldCacheSlots = slots.nextField ∧
    bc.setFieldCacheSlots = slots.nextSetField ∧ bc.tforCursorSlots = slots.nextTforCursor)
    .cacheSlotCountMismatch

/-- Verify a function body. -/
def validateBytecode : Validation Unit := do
  checkHeader bc
  let targeted ← markTargets bc.code.length bc.code 0 (List.replicate bc.code.length false)
  let slots ← checkCode bc targeted bc.code 0
    { globals := List.replicate bc.stringLiterals.length none }
  checkSlotCounts bc slots

/-- A captured variable is one of the enclosing function. -/
def UpvalueDesc.validIn (parent : Bytecode) : UpvalueDesc → Prop
  | .local slot => slot < parent.numParams + parent.numLocals
  | .upvalue slot => slot < parent.upvalues.length

instance (parent : Bytecode) : (desc : UpvalueDesc) → Decidable (desc.validIn parent)
  | .local slot => inferInstanceAs (Decidable (slot < parent.numParams + parent.numLocals))
  | .upvalue slot => inferInstanceAs (Decidable (slot < parent.upvalues.length))

/-- Verify a nested function against the one enclosing it. -/
def validateChild (parent child : Bytecode) : Validation Unit :=
  ensure (∀ desc ∈ child.upvalues, desc.validIn parent) .childUpvalueInvalid

/-- The limit of the depth of nested functions. -/
def MAX_CHUNK_NESTING : Nat := 200

/-- Verify the depth of a nested function. -/
def validateDepth (depth : Nat) : Validation Unit :=
  ensure (depth ≤ MAX_CHUNK_NESTING) .chunkDepthExceeded

end Check

/-- A tree all of whose functions pass verification, each nested one also
    against the function enclosing it. -/
inductive Admitted : Bytecode → Prop
  | mk {bc : Bytecode} (valid : validateBytecode bc = .ok ())
      (child : ∀ c ∈ bc.nested, validateChild bc c = .ok ())
      (nested : ∀ c ∈ bc.nested, Admitted c) : Admitted bc

end Dellingr
