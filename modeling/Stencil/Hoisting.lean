import Stencil.Options
import Stencil.Tree.Computation

/-!
# Hoisting

When both branches of a conditional define the same alias for the same computation, the definition
can be moved in front of the conditional: one of the two copies moves, the other is dropped. The
blocks are treated from the inside out, so that a definition can leave several conditionals.

A definition stays where it is when it reads a variable that its own branch assigns.
-/

namespace Stencil

namespace Hoisting

/-- One of the two branches of a conditional. -/
inductive Branch where
  | thenBranch
  | elseBranch
deriving DecidableEq, Repr

/-- The removal of an alias from a branch of the conditional at a place. -/
@[ext]
structure Event where
  name : String
  computation : Computation
  branch : Branch
  span : Span
deriving DecidableEq

/-- Whether a list of statements assigns a variable at its top level. -/
def assigns (body : List Node) (name : String) : Bool := body.any (·.target? = some name)

/-- The first assignment to a variable at the top level of a list of statements: its value, the
assignment itself, and the other statements. -/
def takeAssignment? (name : String) : List Node → Option (Node × Node × List Node)
  | [] => none
  | n@(.assign _ target value) :: rest =>
    if target = name then some (value, n, rest)
    else (takeAssignment? name rest).map fun (value, taken, rest) => (value, taken, n :: rest)
  | n :: rest =>
    (takeAssignment? name rest).map fun (value, taken, rest) => (value, taken, n :: rest)

/-- The definition of an alias that may leave a list of statements, and the other statements. It may
leave when it is an expression that reads nothing which the same list assigns. -/
def definition? (name : String) (body : List Node) : Option (Node × List Node) := do
  let (value, taken, rest) ← takeAssignment? name body
  let c ← value.computation?
  if c.identifiers.any (assigns body) then none else some (taken, rest)

/-- The aliases that two scopes hold under the same name, in the order of the first. -/
def shared (thenScope elseScope : Scope) : List (Computation × String) :=
  thenScope.aliases.toList.filter fun (c, name) => elseScope.aliasFor? c = some name

/-- The branches of a conditional and the scope around it while definitions move out. -/
structure Exchange where
  thenBranch : Block Node
  elseBranch : Block Node
  enclosing : Scope
  /-- The definitions that have moved out, in order. -/
  moved : List Node
  events : List Event

/-- Moves the definition of one alias out of both branches, if it may leave both. -/
def Exchange.move (span : Span) (x : Exchange) (entry : Computation × String) : Exchange :=
  let (c, name) := entry
  match definition? name x.thenBranch.body, definition? name x.elseBranch.body with
  | some (definition, thenBody), some (_, elseBody) =>
    { thenBranch := ⟨thenBody, x.thenBranch.scope.forget c⟩
      elseBranch := ⟨elseBody, x.elseBranch.scope.forget c⟩
      enclosing := x.enclosing.register c name
      moved := x.moved ++ [definition]
      events := x.events ++ [⟨name, c, .thenBranch, span⟩, ⟨name, c, .elseBranch, span⟩] }
  | _, _ => x

/-- Moves every definition that may leave out of both branches. -/
def exchange (span : Span) (thenBranch elseBranch : Block Node) (enclosing : Scope) : Exchange :=
  (shared thenBranch.scope elseBranch.scope).foldl (Exchange.move span)
    ⟨thenBranch, elseBranch, enclosing, [], []⟩

/-- Moves definitions out of the conditionals of a list of statements. The scope is that of the
block to which the statements belong. -/
def lift : List Node → Scope → List Node × Scope × List Event
  | [], scope => ([], scope, [])
  | .conditional span condition thenBranch (some elseBranch) :: rest, scope =>
    let x := exchange span thenBranch elseBranch scope
    let (rest, scope, events) := lift rest x.enclosing
    (x.moved ++ .conditional span condition x.thenBranch (some x.elseBranch) :: rest, scope,
      x.events ++ events)
  | n :: rest, scope =>
    let (rest, scope, events) := lift rest scope
    (n :: rest, scope, events)

mutual

/-- Moves definitions out of conditionals everywhere in a tree. -/
def hoist : Node → Node × List Event
  | .template span name globals body =>
    let (body, events) := hoistEach body
    (.template span name globals body, events)
  | .function span name ⟨body, scope⟩ =>
    let (body, inner) := hoistEach body
    let (body, scope, outer) := lift body scope
    (.function span name ⟨body, scope⟩, inner ++ outer)
  | .conditional span condition ⟨thenBody, thenScope⟩ none =>
    let (condition, first) := hoist condition
    let (thenBody, inner) := hoistEach thenBody
    let (thenBody, thenScope, outer) := lift thenBody thenScope
    (.conditional span condition ⟨thenBody, thenScope⟩ none, first ++ inner ++ outer)
  | .conditional span condition ⟨thenBody, thenScope⟩ (some ⟨elseBody, elseScope⟩) =>
    let (condition, first) := hoist condition
    let (thenBody, inThen) := hoistEach thenBody
    let (thenBody, thenScope, fromThen) := lift thenBody thenScope
    let (elseBody, inElse) := hoistEach elseBody
    let (elseBody, elseScope, fromElse) := lift elseBody elseScope
    (.conditional span condition ⟨thenBody, thenScope⟩ (some ⟨elseBody, elseScope⟩),
      first ++ inThen ++ fromThen ++ inElse ++ fromElse)
  | .assign span target value =>
    let (value, events) := hoist value
    (.assign span target value, events)
  | .identifier span name => (.identifier span name, [])
  | .placeholder span name resolution => (.placeholder span name resolution, [])
  | .literal span value => (.literal span value, [])
  | .binary span op left right =>
    let (left, first) := hoist left
    let (right, second) := hoist right
    (.binary span op left right, first ++ second)
  | .filter span operand name cachedAs =>
    let (operand, events) := hoist operand
    (.filter span operand name cachedAs, events)
  | .call span callee arguments =>
    let (callee, first) := hoist callee
    let (arguments, second) := hoistEach arguments
    (.call span callee arguments, first ++ second)
  | .list span items =>
    let (items, events) := hoistEach items
    (.list span items, events)
  | .write span operand =>
    let (operand, events) := hoist operand
    (.write span operand, events)
termination_by structural n => n

/-- Moves definitions out of conditionals in a list of trees. The list itself gains nothing. -/
def hoistEach : List Node → List Node × List Event
  | [] => ([], [])
  | n :: rest =>
    let (n, first) := hoist n
    let (rest, second) := hoistEach rest
    (n :: rest, first ++ second)
termination_by structural ns => ns

end

end Hoisting

/-- Moves shared definitions out of conditionals, if the options ask for it. -/
def Node.hoistAliases (options : Options) (root : Node) : Node × List Hoisting.Event :=
  if options.hoistAliases then Hoisting.hoist root else (root, [])

end Stencil
