import Dellingr.Lib.Saturating

/-!
# The cost registry

Every charge the virtual machine and the standard library make (`Charge`), and
the price list of a metered state, one weight for every charge (`CostModel`).
How a state accounts for cost (`Costing`) is fixed when it is built.
-/

namespace Dellingr

/-- One family of costed work. -/
inductive Charge
  -- Opcodes
  | add | sub | mul | div | mod | pow | negate | newTable | tableWrite | arrayElement
  -- Base library
  | rawset
  -- Math library
  | mathAbs | mathAcos | mathAsin | mathAtan | mathAtan2 | mathCeil | mathCos | mathDeg | mathExp
  | mathFloor | mathFmod | mathLog | mathMax | mathMin | mathModf | mathRad | mathRandom | mathSin
  | mathSqrt | mathTan
  -- String library
  | stringFind | stringFormat | stringGmatch | stringGsub | stringLower | stringMatch
  | stringReverse | stringSub | stringUpper
  -- Table library
  | tableConcat | tableInsert | tableMove | tablePack | tableRemove | tableSort
  deriving DecidableEq, Repr

namespace Charge

/-- The number of charges. -/
def COUNT : Nat := 46

/-- The position of a charge in a model's weights. -/
def index (charge : Charge) : Fin COUNT := ⟨charge.ctorIdx, by cases charge <;> decide⟩

end Charge

/-- A weight for every charge. -/
structure CostModel where
  weights : Vector UInt32 Charge.COUNT
  deriving DecidableEq

namespace CostModel

/-- Every weight 0. -/
def zero : CostModel := ⟨Vector.replicate Charge.COUNT 0⟩

/-- Every weight 1. -/
def DEFAULT : CostModel := ⟨Vector.replicate Charge.COUNT 1⟩

/-- The weight of one unit of a charge. -/
def weight (model : CostModel) (charge : Charge) : UInt32 := model.weights[charge.index]

/-- The cost of so many units of a charge. -/
def cost (model : CostModel) (charge : Charge) (units : UInt64) : UInt64 :=
  saturatingMul units (model.weight charge).toUInt64

end CostModel

/-- How a state accounts for cost. -/
inductive Costing
  | metered (model : CostModel)
  | off
  deriving DecidableEq

end Dellingr
