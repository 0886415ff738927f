/-!
# Binary operators

The thirteen binary operators of template expressions. `and` and `or` look at their right operand
only for some values of the left one; every other operator looks at both.
-/

namespace Stencil

/-- A binary operator of template expressions. -/
inductive Operator where
  | add
  | subtract
  | multiply
  | divide
  | modulo
  | equal
  | notEqual
  | lessThan
  | lessThanOrEqual
  | greaterThan
  | greaterThanOrEqual
  | and
  | or
deriving DecidableEq, Repr

namespace Operator

/-- Whether the right operand is evaluated only for some values of the left one. -/
def shortCircuits : Operator → Bool
  | .and | .or => true
  | _ => false

theorem shortCircuits_iff {op : Operator} : op.shortCircuits = true ↔ op = .and ∨ op = .or := by
  cases op <;> decide

/-- The operator as it stands in template text. -/
def symbol : Operator → String
  | .add => "+"
  | .subtract => "-"
  | .multiply => "*"
  | .divide => "/"
  | .modulo => "%"
  | .equal => "=="
  | .notEqual => "!="
  | .lessThan => "<"
  | .lessThanOrEqual => "<="
  | .greaterThan => ">"
  | .greaterThanOrEqual => ">="
  | .and => "and"
  | .or => "or"

/-- Every operator. -/
def all : List Operator :=
  [.add, .subtract, .multiply, .divide, .modulo, .equal, .notEqual, .lessThan, .lessThanOrEqual,
    .greaterThan, .greaterThanOrEqual, .and, .or]

theorem mem_all (op : Operator) : op ∈ all := by
  cases op <;> decide

/-- The name of the operator in the tree format. -/
def name : Operator → String
  | .add => "add"
  | .subtract => "subtract"
  | .multiply => "multiply"
  | .divide => "divide"
  | .modulo => "modulo"
  | .equal => "equal"
  | .notEqual => "not_equal"
  | .lessThan => "less_than"
  | .lessThanOrEqual => "less_than_or_equal"
  | .greaterThan => "greater_than"
  | .greaterThanOrEqual => "greater_than_or_equal"
  | .and => "and"
  | .or => "or"

/-- The operator with the given name. -/
def ofName? (text : String) : Option Operator := all.find? (·.name == text)

@[simp]
theorem ofName?_name (op : Operator) : ofName? op.name = some op := by
  cases op <;> decide

end Operator

end Stencil
