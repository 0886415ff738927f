import Stencil.Computation
import Stencil.Decimal.Layout
import Stencil.Text.Quoted

/-!
# Computations as text

The text of a computation, close to how the expression stands in a template. Alias names of cached
filters are derived from it.
-/

namespace Stencil

/-- Floats take the greater of two equally near decimals and are positional from `0.0001` up to, not
including, `1e16`. -/
def Literal.floatLayout : NumberLayout := ⟨.up, -4, 15, false⟩

/-- The text of a float, infinities and NaN included. -/
def Literal.floatText (x : Binary64) : String :=
  if x.isNaN then "NaN"
  else if x.isInfinite then if x.isNegative then "-inf" else "inf"
  else floatLayout.text x

/-- The text of a literal. -/
def Literal.text : Literal → String
  | .null => "None"
  | .bool true => "true"
  | .bool false => "false"
  | .int value => toString value.toInt
  | .float value => floatText value
  | .str value => Text.quoted value

namespace Computation

mutual

/-- The text of a computation. A filter without a name is written `filter`. -/
def text : Computation → String
  | .placeholder name => "$" ++ name
  | .identifier name => name
  | .literal value => value.text
  | .binary op left right => "(" ++ left.text ++ " " ++ op.symbol ++ " " ++ right.text ++ ")"
  | .filter name operand => operand.text ++ "|" ++ name.getD "filter"
  | .call callee arguments => callee.text ++ "(" ++ textOf arguments ++ ")"
  | .list items => "[" ++ textOf items ++ "]"
termination_by structural c => c

/-- The texts of a list of computations with commas between them. -/
def textOf : List Computation → String
  | [] => ""
  | [c] => c.text
  | c :: rest => c.text ++ ", " ++ textOf rest
termination_by structural cs => cs

end

end Computation

end Stencil
