import Stencil.Operator

/-!
# Evaluation modes

Whether an operand runs every time its statement runs. Only an operand that does may be computed
ahead of the statement.
-/

namespace Stencil

/-- Whether an operand runs every time its statement runs. -/
inductive Evaluation where
  | unconditional
  | conditional
deriving DecidableEq, Repr, Inhabited

namespace Evaluation

/-- The mode of the right operand of an operator, from the mode of the whole expression. The left
operand has the mode of the whole expression. -/
def rightOperand (mode : Evaluation) (op : Operator) : Evaluation :=
  if op.shortCircuits then .conditional else mode

/-- Whether the operand always runs. -/
def isUnconditional (mode : Evaluation) : Bool := mode = .unconditional

end Evaluation

end Stencil
