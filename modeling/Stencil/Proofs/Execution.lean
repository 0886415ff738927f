import Stencil.Proofs.Source

/-!
# Running a function body

A body runs on the variables that are set, and the notes of the optimiser say how each placeholder
and each filter gets its value. What the operations compute is left open: a `Runtime` gives total
functions for them, the values that identifiers have in the environment, and those that
placeholders have in the context.

A run ends with variables, with the values that were written, and with a log of the work that was
done: every look-up of a placeholder by its name and every application of a filter. It is stuck
when a note sends a read to a variable that is not set.
-/

namespace Stencil

/-- What the operations of a template compute. -/
structure Runtime (V : Type) where
  literal : Literal → V
  truth : V → Bool
  operate : Operator → V → V → V
  /-- The value of an operator that its left operand decides alone, if it does. Only `and` and `or`
  are asked. -/
  settle : Operator → V → Option V
  filter : Option String → V → V
  call : V → List V → V
  list : List V → V
  /-- The values of identifiers that are no variables of the function. -/
  environment : String → V
  /-- The values of placeholders that are no variables of the function. -/
  context : String → V

/-- The variables that are set, with their values. -/
abbrev Locals (V : Type) := String → Option V

/-- Sets a variable. -/
def Locals.set {V : Type} (locals : Locals V) (name : String) (value : V) : Locals V :=
  fun other => if other = name then some value else locals other

@[simp]
theorem Locals.set_self {V : Type} (locals : Locals V) (name : String) (value : V) :
    locals.set name value name = some value := if_pos rfl

theorem Locals.set_of_ne {V : Type} (locals : Locals V) {name other : String} (value : V)
    (h : other ≠ name) : locals.set name value other = locals other := if_neg h

/-- A piece of work that a run does. -/
inductive Step where
  /-- Looks a placeholder up by its name. -/
  | lookup (name : String)
  /-- Applies a filter. -/
  | filter (name : Option String)
deriving DecidableEq, Repr

/-- Whether the work is a look-up. -/
def Step.isLookup : Step → Bool
  | .lookup _ => true
  | .filter _ => false

/-- Whether the work is the application of a filter. -/
def Step.isFilter : Step → Bool
  | .lookup _ => false
  | .filter _ => true

/-- The variable that a placeholder is read from, if it is not looked up. -/
def Resolution.source? (resolution : Option Resolution) : Option String :=
  resolution.bind fun r => r.access.identifier?

section Evaluation

variable {V : Type} (rt : Runtime V) (locals : Locals V)

mutual

/-- The value of an expression, and the work that it takes. -/
def Node.eval : Node → Option (V × List Step)
  | .identifier _ name => some ((locals name).getD (rt.environment name), [])
  | .placeholder _ name resolution =>
    match Resolution.source? resolution with
    | none => some ((locals name).getD (rt.context name), [.lookup name])
    | some source => (locals source).map fun v => (v, [])
  | .literal _ value => some (rt.literal value, [])
  | .binary _ op left right => do
    let (a, first) ← left.eval
    match if op = .and ∨ op = .or then rt.settle op a else none with
    | some v => return (v, first)
    | none =>
      let (b, second) ← right.eval
      return (rt.operate op a b, first ++ second)
  | .filter _ operand name none => do
    let (v, work) ← operand.eval
    return (rt.filter name v, work ++ [.filter name])
  | .filter _ _ _ (some source) => (locals source).map fun v => (v, [])
  | .call _ callee arguments => do
    let (f, first) ← callee.eval
    let (vs, second) ← Node.evalEach arguments
    return (rt.call f vs, first ++ second)
  | .list _ items => do
    let (vs, work) ← Node.evalEach items
    return (rt.list vs, work)
  | .template .. | .function .. | .conditional .. | .assign .. | .write .. => none
termination_by structural n => n

/-- The values of expressions from left to right, and the work that they take. -/
def Node.evalEach : List Node → Option (List V × List Step)
  | [] => some ([], [])
  | n :: rest => do
    let (v, first) ← n.eval
    let (vs, second) ← Node.evalEach rest
    return (v :: vs, first ++ second)
termination_by structural ns => ns

end

end Evaluation

/-- What a statement leaves behind. -/
structure Outcome (V : Type) where
  locals : Locals V
  /-- The values that were written, in order. -/
  output : List V
  /-- The work that was done, in order. -/
  log : List Step

/-- One piece of code after another. -/
def Outcome.andThen {V : Type} (first later : Outcome V) : Outcome V :=
  ⟨later.locals, first.output ++ later.output, first.log ++ later.log⟩

section Statements

variable {V : Type} (rt : Runtime V)

mutual

/-- Runs a statement. The definition of a function does nothing by itself. -/
def Node.exec : Node → Locals V → Option (Outcome V)
  | .assign _ target value, locals => do
    let (v, work) ← value.eval rt locals
    return ⟨locals.set target v, [], work⟩
  | .write _ operand, locals => do
    let (v, work) ← operand.eval rt locals
    return ⟨locals, [v], work⟩
  | .conditional _ condition ⟨thenBody, _⟩ none, locals => do
    let (v, work) ← condition.eval rt locals
    (if rt.truth v then Node.execEach thenBody locals else some ⟨locals, [], []⟩).map
      (Outcome.mk locals [] work).andThen
  | .conditional _ condition ⟨thenBody, _⟩ (some ⟨elseBody, _⟩), locals => do
    let (v, work) ← condition.eval rt locals
    (if rt.truth v then Node.execEach thenBody locals else Node.execEach elseBody locals).map
      (Outcome.mk locals [] work).andThen
  | .function .., locals => some ⟨locals, [], []⟩
  | n@(.template ..), locals | n@(.identifier ..), locals | n@(.placeholder ..), locals
  | n@(.literal ..), locals | n@(.binary ..), locals | n@(.filter ..), locals
  | n@(.call ..), locals | n@(.list ..), locals => do
    let (_, work) ← n.eval rt locals
    return ⟨locals, [], work⟩
termination_by structural n => n

/-- Runs statements one after another. -/
def Node.execEach : List Node → Locals V → Option (Outcome V)
  | [], locals => some ⟨locals, [], []⟩
  | n :: rest, locals => do
    let first ← n.exec locals
    let later ← Node.execEach rest first.locals
    return first.andThen later
termination_by structural ns => ns

end

theorem Node.execEach_cons {n : Node} {rest : List Node} {locals : Locals V}
    {first later : Outcome V} (run : n.exec rt locals = some first)
    (after : Node.execEach rt rest first.locals = some later) :
    Node.execEach rt (n :: rest) locals = some (first.andThen later) := by
  rw [Node.execEach, run]
  change (Node.execEach rt rest first.locals).bind _ = _
  rw [after]
  rfl

theorem Node.exec_assign {value : Node} {locals : Locals V} {v : V} {work : List Step} (span : Span)
    (target : String) (run : value.eval rt locals = some (v, work)) :
    (Node.assign span target value).exec rt locals = some ⟨locals.set target v, [], work⟩ := by
  rw [Node.exec, run]
  rfl

theorem Node.exec_write {operand : Node} {locals : Locals V} {v : V} {work : List Step}
    (span : Span) (run : operand.eval rt locals = some (v, work)) :
    (Node.write span operand).exec rt locals = some ⟨locals, [v], work⟩ := by
  rw [Node.exec, run]
  rfl

/-- A missing branch runs like an empty one. -/
theorem Node.exec_conditional {condition : Node} {locals : Locals V} {v : V} {work : List Step}
    (span : Span) (thenBranch : Block Node) (elseBranch : Option (Block Node))
    (run : condition.eval rt locals = some (v, work)) :
    (Node.conditional span condition thenBranch elseBranch).exec rt locals =
      (Node.execEach rt (if rt.truth v then thenBranch.body else elseBranch.elim [] Block.body)
        locals).map (Outcome.mk locals [] work).andThen := by
  cases elseBranch with
  | none =>
    rw [Node.exec, run]
    cases chosen : rt.truth v <;> simp [chosen, Node.execEach]
  | some elseBranch =>
    rw [Node.exec, run]
    cases chosen : rt.truth v <;> simp [chosen]

/-- Runs the body of a function. -/
def Block.run (block : Block Node) (locals : Locals V) : Option (Outcome V) :=
  Node.execEach rt block.body locals

end Statements

end Stencil
