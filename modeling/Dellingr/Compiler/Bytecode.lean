import Dellingr.Instr

/-!
# Bytecode

A compiled function: its instructions, its literal pools, the templates of its
table constructors, its nested functions and the variables it captures.

The names and the source of a function, which only diagnostics read, are left
out.
-/

namespace Dellingr

/-- A captured variable: a local of the enclosing function, or one of the
    variables that function captures. -/
inductive UpvalueDesc
  | local (slot : Nat)
  | upvalue (slot : Nat)
  deriving DecidableEq, Repr

/-- A compiled function. -/
structure Bytecode where
  code : List Instr
  numberLiterals : List F64 := []
  stringLiterals : List (List UInt8) := []
  /-- For every template the string literals naming its keys, in insertion
      order. -/
  tableTemplates : List (List Nat) := []
  globalCacheSlots : Nat := 0
  fieldCacheSlots : Nat := 0
  setFieldCacheSlots : Nat := 0
  tforCursorSlots : Nat := 0
  numParams : Nat := 0
  /-- The most non-parameter locals in scope at once. -/
  numLocals : Nat := 0
  /-- The registers a frame of the function reserves. -/
  maxStack : Nat := 0
  nested : List Bytecode := []
  upvalues : List UpvalueDesc := []
  isVararg : Bool := false
  /-- The source line of every instruction. -/
  lineInfo : List Nat := []

end Dellingr
