import Stencil.Tree

/-!
# The computation of an expression

An expression has a computation; a statement has none, and neither has an expression with a
statement inside. The computation of an expression is put together from those of its parts
(`computation?_binary_eq_some` and its like).
-/

namespace Stencil.Node

mutual

/-- The computation of an expression. -/
def computation? : Node → Option Computation
  | .placeholder _ name _ => some (.placeholder name)
  | .identifier _ name => some (.identifier name)
  | .literal _ value => some (.literal value)
  | .binary _ op left right => do
    let left ← left.computation?
    let right ← right.computation?
    return .binary op left right
  | .filter _ operand name _ => do
    let operand ← operand.computation?
    return .filter name operand
  | .call _ callee arguments => do
    let callee ← callee.computation?
    let arguments ← computationsOf? arguments
    return .call callee arguments
  | .list _ items => do
    let items ← computationsOf? items
    return .list items
  | .template .. | .function .. | .conditional .. | .assign .. | .write .. => none
termination_by structural n => n

/-- The computations of a list of expressions. -/
def computationsOf? : List Node → Option (List Computation)
  | [] => some []
  | n :: rest => do
    let c ← n.computation?
    let cs ← computationsOf? rest
    return c :: cs
termination_by structural ns => ns

end

section Parts

variable {span : Span} {c : Computation} {cs : List Computation}

theorem computation?_binary_eq_some {op : Operator} {left right : Node} :
    (binary span op left right).computation? = some c ↔ ∃ l, left.computation? = some l ∧
      ∃ r, right.computation? = some r ∧ .binary op l r = c := by
  simp [computation?, Option.bind_eq_some_iff]

theorem computation?_filter_eq_some {operand : Node} {name cachedAs : Option String} :
    (filter span operand name cachedAs).computation? = some c ↔
      ∃ inner, operand.computation? = some inner ∧ .filter name inner = c := by
  simp [computation?, Option.bind_eq_some_iff]

theorem computation?_call_eq_some {callee : Node} {arguments : List Node} :
    (call span callee arguments).computation? = some c ↔ ∃ f, callee.computation? = some f ∧
      ∃ parts, computationsOf? arguments = some parts ∧ .call f parts = c := by
  simp [computation?, Option.bind_eq_some_iff]

theorem computation?_list_eq_some {items : List Node} :
    (list span items).computation? = some c ↔
      ∃ parts, computationsOf? items = some parts ∧ .list parts = c := by
  simp [computation?, Option.bind_eq_some_iff]

theorem computationsOf?_cons_eq_some {n : Node} {rest : List Node} :
    computationsOf? (n :: rest) = some cs ↔ ∃ c, n.computation? = some c ∧
      ∃ later, computationsOf? rest = some later ∧ c :: later = cs := by
  simp [computationsOf?, Option.bind_eq_some_iff]

end Parts

end Stencil.Node
