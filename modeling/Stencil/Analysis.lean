import Stencil.Analysis.State

/-!
# The analysis

One walk through a tree in document order. It checks that variables are assigned before they are
read, notes on every placeholder how it is to be read, puts the definitions of aliases in front of
the statements that first need them, and watches for filters whose cached value would be stale.

Each statement of a block begins anew as something that always runs; only the right operands of
`and` and `or` do not. A function is walked with a knowledge of its own, and the branches of a
conditional with a copy of what is known in front of it.
-/

namespace Stencil

namespace Analysis

mutual

/-- Walks one node. -/
def walk (ctx : Context) : Node → State → Except Failure (Node × State)
  | .template span name globals body, st => do
    let (body, st) ← walkTemplate ctx body { st with globals }
    return (.template span name globals body, st)
  | .function span name ⟨body, scope⟩, st => do
    let (walked, inner) ←
      walkBlock (ctx.enterFunction ⟨body, scope⟩) body (st.enterFunction ⟨body, scope⟩)
    return (.function span name ⟨walked, inner.frame.commit scope⟩, st.leaveFunction inner)
  | .conditional span condition ⟨thenBody, thenScope⟩ elseBranch, st => do
    let (condition, st) ← walk ctx condition st
    let branch := ctx.enterBranch st.frame.aliases
    let (thenBody, inThen) ← walkBlock branch thenBody (st.enterBranch thenScope)
    let afterThen := st.leaveBranch inThen
    let thenBranch : Block Node := ⟨thenBody, inThen.frame.commit thenScope⟩
    match elseBranch with
    | none =>
      return (.conditional span condition thenBranch none,
        afterThen.join [inThen.frame.assigned, st.frame.assigned])
    | some ⟨elseBody, elseScope⟩ =>
      let (elseBody, inElse) ← walkBlock branch elseBody (afterThen.enterBranch elseScope)
      let afterElse := afterThen.leaveBranch inElse
      return (.conditional span condition thenBranch
          (some ⟨elseBody, inElse.frame.commit elseScope⟩),
        afterElse.join [inThen.frame.assigned, inElse.frame.assigned])
  | .assign span target value, st => do
    let (value, st) ← walk ctx value st
    return (.assign span target value, st.assign ctx target)
  | .identifier span name, st => return (.identifier span name, st)
  | .placeholder span name _, st => do
    let (resolution, st) ← st.read ctx span name
    return (.placeholder span name (some resolution), st)
  | .literal span value, st => return (.literal span value, st)
  | .binary span op left right, st => do
    let mode := st.evaluation
    let (left, st) ← walk ctx left st
    let (right, st) ← walk ctx right (st.evaluating (mode.rightOperand op))
    return (.binary span op left right, st.evaluating mode)
  | .filter span operand name cachedAs, st => do
    let (operand, st) ← walk ctx operand st
    let st ← st.checkFilter ctx span operand
    let (cached, st) := st.cacheFilter ctx span operand name
    return (.filter span operand name (cached.or cachedAs), st)
  | .call span callee arguments, st => do
    let (callee, st) ← walk ctx callee st
    let (arguments, st) ← walkEach ctx arguments st
    return (.call span callee arguments, st)
  | .list span items, st => do
    let (items, st) ← walkEach ctx items st
    return (.list span items, st)
  | .write span operand, st => do
    let (operand, st) ← walk ctx operand st
    return (.write span operand, st)
termination_by structural n => n

/-- Walks operands from left to right. -/
def walkEach (ctx : Context) : List Node → State → Except Failure (List Node × State)
  | [], st => return ([], st)
  | n :: rest, st => do
    let (n, st) ← walk ctx n st
    let (rest, st) ← walkEach ctx rest st
    return (n :: rest, st)
termination_by structural ns => ns

/-- Walks the body of a template. It is no block, so nothing is put in front of its nodes. -/
def walkTemplate (ctx : Context) : List Node → State → Except Failure (List Node × State)
  | [], st => return ([], st)
  | n :: rest, st => do
    let (n, st) ← walk ctx n st.beginStatement
    let (rest, st) ← walkTemplate ctx rest st
    return (n :: rest, st)
termination_by structural ns => ns

/-- Walks the statements of a block, and puts in front of each the definitions it needs. -/
def walkBlock (ctx : Context) : List Node → State → Except Failure (List Node × State)
  | [], st => return ([], st)
  | n :: rest, st => do
    let (n, st) ← walk ctx n st.beginStatement
    let (rest, after) ← walkBlock ctx rest st.endStatement
    return (st.frame.pending ++ n :: rest, after)
termination_by structural ns => ns

end

end Analysis

/-- An analysed tree, with the warnings and the placeholders in document order. -/
structure Analysis where
  tree : Node
  warnings : List Warning
  reads : List Analysis.Read

/-- Analyses a tree. -/
def Node.analyze (options : Options) (root : Node) : Except Analysis.Failure Analysis := do
  let (tree, st) ← Analysis.walk (.top options) root .start
  return ⟨tree, st.warnings, st.reads⟩

end Stencil
