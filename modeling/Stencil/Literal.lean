import Stencil.Decimal.Binary64

/-!
# Literals

Constant values in a template. Two literals are equal when they have the same kind and the same
content; floats are compared by their bits, so `1` and `1.0` differ, and so do `0.0` and `-0.0`.
-/

namespace Stencil

/-- A constant value. -/
inductive Literal where
  | null
  | bool (value : Bool)
  | int (value : Int64)
  | float (value : Binary64)
  | str (value : String)
deriving DecidableEq, Repr, Inhabited

end Stencil
