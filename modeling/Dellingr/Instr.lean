import Dellingr.Lib.Binary64

/-!
# Instructions

The fixed-width register instruction encoding: a 64-bit word holding an opcode,
three 16-bit operands `A`, `B`, `C` and an 8-bit operand `D`, or, for the forms
that carry a jump offset, a signed 24-bit offset in place of `C` and `D`.

An instruction is a word (`Instr`) that need not decode: `Instr.opcode` gives no
opcode where the word holds a number that names none. Every opcode declares its
operand layout, which fixes the bits it leaves unused, and the pool one of its
operands indexes, if any.
-/

namespace Dellingr

/-- The binary arithmetic operators, in opcode-row order. -/
inductive ArithOp
  | add | sub | mul | div | mod | pow
  deriving DecidableEq, Repr

/-- Which operand of a binary arithmetic opcode is a number literal. -/
inductive ArithOperands
  | regReg | regConst | constReg
  deriving DecidableEq, Repr

/-- The comparison operators shared by the value and branch forms. -/
inductive CompareOp
  | lt | le | gt | ge | eq | ne
  deriving DecidableEq, Repr

/-- The opcodes. -/
inductive Opcode
  | move | loadNil | loadBool | loadNum | loadStr
  | getUpval | setUpval | close
  | getGlobal | setGlobal | getBuiltin | setBuiltin
  | newTable | newTablePresized | newTableTemplate
  | getField | getTable | setField | setTable
  | initField | initFieldPinned | initIndex | setList | self
  | arith (op : ArithOp) (operands : ArithOperands)
  | unm | not | len | concat
  | compare (op : CompareOp)
  | jmp
  | branchCompare (op : CompareOp)
  | testFalse | testTrue
  | forPrep | forLoop | tforCall | tforLoop
  | call | ret | vararg | closure | tailCall
  deriving DecidableEq, Repr

/-- The count operand meaning "every value up to the top". -/
def OPEN_COUNT : Nat := 0xffff

/-- The largest offset of a jump. -/
def MAX_JUMP_OFFSET : Nat := 2 ^ 23 - 1

/-- The slots of one cache family of one function. -/
def MAX_CACHE_SLOTS : Nat := 255

/-- The number of the well-known globals with a slot of their own. -/
def BUILTIN_COUNT : Nat := 19

/-! ## Opcode numbers -/

namespace ArithOp

/-- The opcode of the operator with two registers. -/
def base : ArithOp → Nat
  | add => 24
  | sub => 27
  | mul => 30
  | div => 33
  | mod => 36
  | pow => 39

/-- Decode an arithmetic opcode into its operator and operand kinds. -/
def decode (opcode : Nat) : Option (ArithOp × ArithOperands) :=
  if opcode < 24 ∨ opcode > 41 then none
  else
    let index := opcode - 24
    let op := match index / 3 with
      | 0 => add
      | 1 => sub
      | 2 => mul
      | 3 => div
      | 4 => mod
      | _ => pow
    let operands := match index % 3 with
      | 0 => .regReg
      | 1 => .regConst
      | _ => .constReg
    some (op, operands)

end ArithOp

namespace ArithOperands

/-- The place of an opcode in its operator's row. -/
def offset : ArithOperands → Nat
  | regReg => 0
  | regConst => 1
  | constReg => 2

end ArithOperands

namespace CompareOp

/-- The place of a comparison among the six. -/
def index : CompareOp → Nat
  | lt => 0
  | le => 1
  | gt => 2
  | ge => 3
  | eq => 4
  | ne => 5

/-- The comparison at a place. -/
def fromIndex : Nat → Option CompareOp
  | 0 => some lt
  | 1 => some le
  | 2 => some gt
  | 3 => some ge
  | 4 => some eq
  | 5 => some ne
  | _ => none

end CompareOp

namespace Opcode

/-- The number of an opcode. -/
def number : Opcode → Nat
  | move => 0
  | loadNil => 1
  | loadBool => 2
  | loadNum => 3
  | loadStr => 4
  | getUpval => 5
  | setUpval => 6
  | close => 7
  | getGlobal => 8
  | setGlobal => 9
  | getBuiltin => 10
  | setBuiltin => 11
  | newTable => 12
  | newTablePresized => 13
  | newTableTemplate => 14
  | getField => 15
  | getTable => 16
  | setField => 17
  | setTable => 18
  | initField => 19
  | initFieldPinned => 20
  | initIndex => 21
  | setList => 22
  | self => 23
  | arith op operands => op.base + operands.offset
  | unm => 42
  | not => 43
  | len => 44
  | concat => 45
  | compare op => 46 + op.index
  | jmp => 52
  | branchCompare op => 53 + op.index
  | testFalse => 59
  | testTrue => 60
  | forPrep => 61
  | forLoop => 62
  | tforCall => 63
  | tforLoop => 64
  | call => 65
  | ret => 66
  | vararg => 67
  | closure => 68
  | tailCall => 69

/-- The opcode of a number, if it is one. -/
def decode : Nat → Option Opcode
  | 0 => some move
  | 1 => some loadNil
  | 2 => some loadBool
  | 3 => some loadNum
  | 4 => some loadStr
  | 5 => some getUpval
  | 6 => some setUpval
  | 7 => some close
  | 8 => some getGlobal
  | 9 => some setGlobal
  | 10 => some getBuiltin
  | 11 => some setBuiltin
  | 12 => some newTable
  | 13 => some newTablePresized
  | 14 => some newTableTemplate
  | 15 => some getField
  | 16 => some getTable
  | 17 => some setField
  | 18 => some setTable
  | 19 => some initField
  | 20 => some initFieldPinned
  | 21 => some initIndex
  | 22 => some setList
  | 23 => some self
  | 42 => some unm
  | 43 => some not
  | 44 => some len
  | 45 => some concat
  | 52 => some jmp
  | 59 => some testFalse
  | 60 => some testTrue
  | 61 => some forPrep
  | 62 => some forLoop
  | 63 => some tforCall
  | 64 => some tforLoop
  | 65 => some call
  | 66 => some ret
  | 67 => some vararg
  | 68 => some closure
  | 69 => some tailCall
  | n =>
    if n < 46 then (ArithOp.decode n).map fun p => arith p.1 p.2
    else if n < 52 then (CompareOp.fromIndex (n - 46)).map compare
    else (CompareOp.fromIndex (n - 53)).map branchCompare

/-- Every opcode is decoded from its number. -/
theorem decode_number (op : Opcode) : decode op.number = some op := by
  cases op with
  | arith op operands => cases op <;> cases operands <;> rfl
  | compare op => cases op <;> rfl
  | branchCompare op => cases op <;> rfl
  | _ => rfl

end Opcode

/-! ## Layouts and pools -/

/-- The operand layout of an opcode, which fixes its reserved bits. -/
inductive Layout
  | a | ab | abc | abd | abcd | j | aj | abj
  deriving DecidableEq, Repr

namespace Layout

/-- The bits of the operand `A`. -/
def bitsA : BitVec 64 := 0xffff#64 <<< 40

/-- The bits of the operand `B`. -/
def bitsB : BitVec 64 := 0xffff#64 <<< 24

/-- The bits of the operand `C`. -/
def bitsC : BitVec 64 := 0xffff#64 <<< 8

/-- The bits of the operand `D`. -/
def bitsD : BitVec 64 := 0xff#64

/-- The bits of the jump offset. -/
def bitsJ : BitVec 64 := 0xffffff#64

/-- The bits a layout leaves unused, which must be zero. -/
def reserved (layout : Layout) : BitVec 64 :=
  let used := match layout with
    | a => bitsA
    | ab => bitsA ||| bitsB
    | abc => bitsA ||| bitsB ||| bitsC
    | abd => bitsA ||| bitsB ||| bitsD
    | abcd => bitsA ||| bitsB ||| bitsC ||| bitsD
    | j => bitsJ
    | aj => bitsA ||| bitsJ
    | abj => bitsA ||| bitsB ||| bitsJ
  (1#64 <<< 56 - 1#64) &&& ~~~used

/-- Whether a layout carries a jump offset. -/
def isJump : Layout → Bool
  | j | aj | abj => true
  | _ => false

end Layout

/-- The pool indexed by an instruction operand. -/
inductive OperandPool
  | number | string | template | nested | upvalue
  deriving DecidableEq, Repr

/-- The operand that indexes a pool. -/
inductive PoolField
  | b | c
  deriving DecidableEq, Repr

namespace Opcode

/-- The operand layout of an opcode. -/
def layout : Opcode → Layout
  | close | newTable => .a
  | move | loadNil | loadBool | loadNum | loadStr | getUpval | setUpval
  | getBuiltin | setBuiltin | newTablePresized | newTableTemplate
  | unm | not | len | ret | vararg | closure => .ab
  | getTable | setTable | initField | initIndex | setList | arith .. | concat | compare _ => .abc
  | getGlobal | setGlobal | tforCall | tailCall => .abd
  | getField | setField | initFieldPinned | self | call => .abcd
  | jmp => .j
  | testFalse | testTrue | forPrep | forLoop | tforLoop => .aj
  | branchCompare _ => .abj

/-- Whether the opcode carries a jump offset. -/
def isTransfer (op : Opcode) : Bool := op.layout.isJump

/-- The pool an operand of the opcode indexes, and which operand. -/
def pool : Opcode → Option (OperandPool × PoolField)
  | loadNum => some (.number, .b)
  | loadStr | getGlobal | setGlobal | setField | initField | initFieldPinned => some (.string, .b)
  | getField | self => some (.string, .c)
  | getUpval | setUpval => some (.upvalue, .b)
  | newTableTemplate => some (.template, .b)
  | closure => some (.nested, .b)
  | arith _ .regConst => some (.number, .c)
  | arith _ .constReg => some (.number, .b)
  | _ => none

end Opcode

/-! ## Counts -/

/-- The argument count of a call. -/
inductive ArgCount
  | fixed (n : Nat)
  | dynamic
  deriving DecidableEq, Repr

/-- The result count of a call or a return. -/
inductive RetCount
  | fixed (n : Nat)
  | all
  deriving DecidableEq, Repr

/-- Decode a count operand. Values outside the width of a count, which never
    pass verification, decode saturated. -/
def ArgCount.fromOperand (n : Nat) : ArgCount :=
  if n = OPEN_COUNT then .dynamic else if n > 255 then .fixed 255 else .fixed n

/-- Decode a count operand. Values outside the width of a count, which never
    pass verification, decode saturated. -/
def RetCount.fromOperand (n : Nat) : RetCount :=
  if n = OPEN_COUNT then .all else if n > 255 then .fixed 255 else .fixed n

/-! ## Words -/

/-- A 64-bit encoded instruction. -/
structure Instr where
  raw : BitVec 64
  deriving DecidableEq, Repr

namespace Instr

/-- Encode an opcode and its operands. -/
def pack (opcode : Opcode) (a b c : BitVec 16) (d : BitVec 8) : Instr :=
  ⟨BitVec.ofNat 8 opcode.number ++ a ++ b ++ c ++ d⟩

/-- Encode an opcode, two operands and a jump offset. -/
def packJump (opcode : Opcode) (a b : BitVec 16) (offset : Int) : Instr :=
  ⟨BitVec.ofNat 8 opcode.number ++ a ++ b ++ BitVec.ofInt 24 offset⟩

variable (inst : Instr)

/-- The opcode, if the word holds one. -/
def opcode : Option Opcode := Opcode.decode (inst.raw.extractLsb' 56 8).toNat

/-- The operand `A`. -/
def a : Nat := (inst.raw.extractLsb' 40 16).toNat

/-- The operand `B`. -/
def b : Nat := (inst.raw.extractLsb' 24 16).toNat

/-- The operand `C`. -/
def c : Nat := (inst.raw.extractLsb' 8 16).toNat

/-- The operand `D`. -/
def d : Nat := (inst.raw.extractLsb' 0 8).toNat

/-- The signed jump offset of a transfer opcode, relative to the next
    instruction. -/
def sj : Int := (inst.raw.extractLsb' 0 24).toInt

/-- The cache slot of a cache-bearing opcode; the operand is biased by one, and
    zero is uncached. -/
def cacheSlot : Option Nat := if inst.d = 0 then none else some (inst.d - 1)

/-- The pool and the index an operand of the instruction names, if any. -/
def poolOperand : Option (OperandPool × Nat) :=
  match inst.opcode.bind Opcode.pool with
  | some (pool, .b) => some (pool, inst.b)
  | some (pool, .c) => some (pool, inst.c)
  | none => none

/-- Whether every bit the opcode's layout leaves unused is zero. -/
def reservedBitsZero : Bool :=
  match inst.opcode with
  | some op => inst.raw &&& op.layout.reserved == 0
  | none => false

/-- Whether the instruction carries a jump offset. -/
def isTransfer : Bool := inst.opcode.any Opcode.isTransfer

/-- The argument count of a call or a tail call. -/
def callArgs : ArgCount := .fromOperand inst.b

/-- The result count a call asks for. -/
def callResults : RetCount := .fromOperand inst.c

/-- Whether a call or a tail call is that of a method. -/
def callIsMethod : Bool := inst.d != 0

/-- The result count of a return. -/
def returnCount : RetCount := .fromOperand inst.b

/-- The value count of a vararg. -/
def varargCount : RetCount := .fromOperand inst.b

/-- The positional count of a set-list, none when open. -/
def setListCount : Option Nat := if inst.b = OPEN_COUNT then none else some inst.b

/-- Whether the instruction leaves an open top for the next one to consume: a
    call asking for all results, or a vararg of every value. -/
def producesOpen : Bool :=
  match inst.opcode with
  | some .call => inst.c == OPEN_COUNT
  | some .vararg => inst.b == OPEN_COUNT
  | _ => false

/-- Whether the instruction reads an open top left by the one before it: a call
    or tail call with open arguments, an open return or set-list. -/
def consumesOpen : Bool :=
  match inst.opcode with
  | some .call | some .tailCall | some .ret | some .setList => inst.b == OPEN_COUNT
  | _ => false

end Instr

end Dellingr
