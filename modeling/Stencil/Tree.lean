import Stencil.Scope
import Stencil.Span

/-!
# Template trees

A template is a tree of nodes. Statements and expressions are nodes alike; a block is a list of
nodes with a scope of its own, and stands as the body of a function or as a branch of a
conditional. The body of a template is a plain list of nodes without a scope.

The optimiser notes on a placeholder how it is to be read, and on a filter the alias that holds its
value.
-/

namespace Stencil

/-- How a placeholder is read. -/
inductive Access where
  /-- By looking its name up when the template runs. -/
  | dynamic
  /-- As a local variable that is certainly assigned. -/
  | direct (name : String)
  /-- As an alias that holds the value. -/
  | cached (name : String)
deriving DecidableEq, Repr, Inhabited

/-- The variable that stands for the placeholder. -/
def Access.identifier? : Access → Option String
  | .dynamic => none
  | .direct name | .cached name => some name

/-- What the optimiser notes on a placeholder. -/
@[ext]
structure Resolution where
  /-- Whether the placeholder is read every time its statement runs. -/
  cacheEligible : Bool
  access : Access
deriving DecidableEq, Repr, Inhabited

/-- A list of statements with a scope of its own. -/
@[ext]
structure Block (α : Type) where
  body : List α
  scope : Scope

/-- A node of a template tree. -/
inductive Node where
  /-- A whole template, with the names that are given from outside. -/
  | template (span : Span) (name : String) (globals : OrderedSet String) (body : List Node)
  | function (span : Span) (name : String) (body : Block Node)
  | conditional (span : Span) (condition : Node) (thenBranch : Block Node)
      (elseBranch : Option (Block Node))
  | assign (span : Span) (target : String) (value : Node)
  | identifier (span : Span) (name : String)
  | placeholder (span : Span) (name : String) (resolution : Option Resolution)
  | literal (span : Span) (value : Literal)
  | binary (span : Span) (op : Operator) (left right : Node)
  /-- A named filter, or the filter of the template when it has no name. -/
  | filter (span : Span) (operand : Node) (name : Option String) (cachedAs : Option String)
  | call (span : Span) (callee : Node) (arguments : List Node)
  | list (span : Span) (items : List Node)
  /-- Appends the value of an expression to the output. -/
  | write (span : Span) (operand : Node)

namespace Node

instance : Inhabited Node := ⟨.literal .generated .null⟩

/-- Where the node stands in the template text. -/
def span : Node → Span
  | .template span _ _ _ | .function span _ _ | .conditional span _ _ _ | .assign span _ _
  | .identifier span _ | .placeholder span _ _ | .literal span _ | .binary span _ _ _
  | .filter span _ _ _ | .call span _ _ | .list span _ | .write span _ => span

/-- The node at another place. -/
def withSpan (span : Span) : Node → Node
  | .template _ name globals body => .template span name globals body
  | .function _ name body => .function span name body
  | .conditional _ condition thenBranch elseBranch =>
    .conditional span condition thenBranch elseBranch
  | .assign _ target value => .assign span target value
  | .identifier _ name => .identifier span name
  | .placeholder _ name resolution => .placeholder span name resolution
  | .literal _ value => .literal span value
  | .binary _ op left right => .binary span op left right
  | .filter _ operand name cachedAs => .filter span operand name cachedAs
  | .call _ callee arguments => .call span callee arguments
  | .list _ items => .list span items
  | .write _ operand => .write span operand

/-- A short name of the kind of the node. -/
def kindName : Node → String
  | .template .. => "template"
  | .function .. => "function"
  | .conditional .. => "if"
  | .assign .. => "assign"
  | .identifier .. => "identifier"
  | .placeholder .. => "placeholder"
  | .literal .. => "literal"
  | .binary .. => "binop"
  | .filter .. => "filter"
  | .call .. => "call"
  | .list .. => "list"
  | .write .. => "buffer_write"

/-- The variable that an assignment sets. -/
def target? : Node → Option String
  | .assign _ target _ => some target
  | _ => none

end Node

/-- A block that declares nothing. -/
def Block.plain (body : List Node) : Block Node := ⟨body, ∅⟩

end Stencil
