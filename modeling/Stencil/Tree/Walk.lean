import Stencil.Tree

/-!
# Walks over a tree

The nodes of a tree in document order: a node comes before its children, and the children from left
to right, the condition of a conditional before its branches.

`assignments` and `scopes` gather what belongs to one function: they do not enter functions that
are defined inside.
-/

namespace Stencil

namespace Node

mutual

/-- The node and all nodes below it, in document order. -/
def preorder : Node → List Node
  | n@(.template _ _ _ body) => n :: preorderOf body
  | n@(.function _ _ ⟨body, _⟩) => n :: preorderOf body
  | n@(.conditional _ condition ⟨thenBody, _⟩ none) =>
    n :: (condition.preorder ++ preorderOf thenBody)
  | n@(.conditional _ condition ⟨thenBody, _⟩ (some ⟨elseBody, _⟩)) =>
    n :: (condition.preorder ++ preorderOf thenBody ++ preorderOf elseBody)
  | n@(.assign _ _ value) => n :: value.preorder
  | n@(.identifier ..) | n@(.placeholder ..) | n@(.literal ..) => [n]
  | n@(.binary _ _ left right) => n :: (left.preorder ++ right.preorder)
  | n@(.filter _ operand _ _) => n :: operand.preorder
  | n@(.call _ callee arguments) => n :: (callee.preorder ++ preorderOf arguments)
  | n@(.list _ items) => n :: preorderOf items
  | n@(.write _ operand) => n :: operand.preorder
termination_by structural n => n

/-- The nodes of a list of trees, in document order. -/
def preorderOf : List Node → List Node
  | [] => []
  | n :: rest => n.preorder ++ preorderOf rest
termination_by structural ns => ns

end

mutual

/-- The variables that are assigned at or below a node, outside the functions defined there. -/
def assignments : Node → List String
  | .template _ _ _ body => assignmentsOf body
  | .function .. => []
  | .conditional _ condition ⟨thenBody, _⟩ none =>
    condition.assignments ++ assignmentsOf thenBody
  | .conditional _ condition ⟨thenBody, _⟩ (some ⟨elseBody, _⟩) =>
    condition.assignments ++ assignmentsOf thenBody ++ assignmentsOf elseBody
  | .assign _ target value => target :: value.assignments
  | .identifier .. | .placeholder .. | .literal .. => []
  | .binary _ _ left right => left.assignments ++ right.assignments
  | .filter _ operand _ _ => operand.assignments
  | .call _ callee arguments => callee.assignments ++ assignmentsOf arguments
  | .list _ items => assignmentsOf items
  | .write _ operand => operand.assignments
termination_by structural n => n

/-- The variables that a list of trees assigns. -/
def assignmentsOf : List Node → List String
  | [] => []
  | n :: rest => n.assignments ++ assignmentsOf rest
termination_by structural ns => ns

end

mutual

/-- The scopes of the branches below a node, outside the functions defined there. -/
def scopes : Node → List Scope
  | .template _ _ _ body => scopesOf body
  | .function .. => []
  | .conditional _ condition ⟨thenBody, thenScope⟩ none =>
    condition.scopes ++ thenScope :: scopesOf thenBody
  | .conditional _ condition ⟨thenBody, thenScope⟩ (some ⟨elseBody, elseScope⟩) =>
    condition.scopes ++ thenScope :: scopesOf thenBody ++ elseScope :: scopesOf elseBody
  | .assign _ _ value => value.scopes
  | .identifier .. | .placeholder .. | .literal .. => []
  | .binary _ _ left right => left.scopes ++ right.scopes
  | .filter _ operand _ _ => operand.scopes
  | .call _ callee arguments => callee.scopes ++ scopesOf arguments
  | .list _ items => scopesOf items
  | .write _ operand => operand.scopes
termination_by structural n => n

/-- The scopes of the branches below a list of nodes. -/
def scopesOf : List Node → List Scope
  | [] => []
  | n :: rest => n.scopes ++ scopesOf rest
termination_by structural ns => ns

end

/-- The name and the note of a placeholder. -/
def read? : Node → Option (String × Option Resolution)
  | .placeholder _ name resolution => some (name, resolution)
  | _ => none

/-- The placeholders of a tree with their notes, in document order. -/
def reads (n : Node) : List (String × Option Resolution) := n.preorder.filterMap read?

/-- Whether the node is a literal. -/
def isLiteral : Node → Bool
  | .literal .. => true
  | _ => false

end Node

namespace Block

/-- The variables that a block assigns, its branches included. -/
def assignments (block : Block Node) : List String := Node.assignmentsOf block.body

/-- The scope of a block and those of the branches below it. -/
def scopes (block : Block Node) : List Scope := block.scope :: Node.scopesOf block.body

/-- The names that these scopes declare and that hold no cached computation. -/
def declaredNames (block : Block Node) : List String := block.scopes.flatMap Scope.plainNames

/-- The aliases that these scopes hold, with their computations. -/
def declaredAliases (block : Block Node) : List (String × Computation) :=
  block.scopes.flatMap fun scope => scope.aliases.toList.map Prod.swap

end Block

end Stencil
