import Stencil.Alias
import Stencil.Assigned
import Stencil.Diagnostic
import Stencil.Evaluation
import Stencil.FilterLedger
import Stencil.Options
import Stencil.Tree.Walk

/-!
# The state of an analysis

What the analysis knows while it walks through a tree, and the steps it takes at the nodes that
matter: reading a placeholder, filtering a value, assigning a variable, and entering and leaving
functions and branches.

A `Context` holds what stays fixed while one block is walked, a `Frame` what belongs to that block,
and a `State` everything else that changes on the way.
-/

namespace Stencil.Analysis

/-- A placeholder that was read, and how. -/
@[ext]
structure Read where
  name : String
  span : Span
  resolution : Resolution
deriving DecidableEq, Repr

/-- Why an analysis failed, with the warnings that were reported before. -/
@[ext]
structure Failure where
  cause : AnalysisError
  warnings : List Warning
deriving DecidableEq, Repr

/-- What belongs to the block that is being walked. -/
@[ext]
structure Frame where
  /-- The names that are assigned on every path to this point. -/
  assigned : Assigned String
  /-- The aliases of the block: those of its scope, and those introduced since. -/
  aliases : AliasMap
  /-- The aliases that were introduced, in order. -/
  introduced : List (Computation × String)
  /-- The names that the block itself assigns, in order. -/
  assignedHere : OrderedSet String
  /-- Definitions of aliases that belong in front of the current statement. -/
  pending : List Node

namespace Frame

/-- The frame of a block that is entered with the given names assigned. -/
def enter (scope : Scope) (assigned : Assigned String) : Frame :=
  { assigned, aliases := scope.aliases, introduced := [], assignedHere := ∅, pending := [] }

/-- Adds an alias for a computation, with the statement that defines it. -/
def define (frame : Frame) (c : Computation) (name : String) (value : Node) : Frame :=
  { frame with
    aliases := frame.aliases.insert c name
    introduced := frame.introduced ++ [(c, name)]
    pending := frame.pending ++ [.assign .generated name value] }

/-- Records an assignment. -/
def assign (frame : Frame) (name : String) : Frame :=
  { frame with
    assigned := frame.assigned.insert name
    assignedHere := frame.assignedHere.insert name }

/-- The scope of the block once it has been walked: it declares what the block assigned, and then
the aliases that were introduced. -/
def commit (frame : Frame) (scope : Scope) : Scope :=
  frame.introduced.foldl (fun scope entry => scope.register entry.1 entry.2)
    { scope with locals := scope.locals.extend frame.assignedHere.toList }

end Frame

/-- What stays fixed while one block is walked. -/
@[ext]
structure Context where
  options : Options
  /-- Whether the block is part of a function. Aliases are introduced only there. -/
  inFunction : Bool
  /-- The names that the function assigns anywhere. They are never aliased. -/
  assignedAnywhere : List String
  /-- The names that the scopes of the function declare. -/
  declared : List String
  /-- The aliases of the blocks around this one, the nearest block first. -/
  enclosing : List AliasMap

namespace Context

/-- Outside every function. -/
def top (options : Options) : Context := ⟨options, false, [], [], []⟩

/-- Inside a function. -/
def enterFunction (ctx : Context) (body : Block Node) : Context :=
  { options := ctx.options
    inFunction := true
    assignedAnywhere := body.assignments
    declared := body.declaredNames
    enclosing := [] }

/-- Inside a branch of a block with the given aliases. -/
def enterBranch (ctx : Context) (aliases : AliasMap) : Context :=
  { ctx with enclosing := aliases :: ctx.enclosing }

end Context

/-- What changes while a tree is walked. -/
@[ext]
structure State where
  /-- The names that the innermost template begun so far takes from outside. -/
  globals : OrderedSet String
  evaluation : Evaluation
  frame : Frame
  /-- The computation behind each alias of the function. -/
  holders : OrderedMap String Computation
  ledger : FilterLedger String
  /-- The warnings reported so far. -/
  warnings : List Warning
  /-- The placeholders read so far. -/
  reads : List Read

namespace State

/-- The state before anything was walked. -/
def start : State :=
  { globals := ∅, evaluation := .unconditional, frame := .enter ∅ ∅, holders := ∅, ledger := ∅
    warnings := [], reads := [] }

/-- Enters a function. Its parameters are the names that its scope declares. -/
def enterFunction (st : State) (body : Block Node) : State :=
  { st with
    frame := .enter body.scope (.ofList body.scope.locals.toList)
    holders := .ofList body.declaredAliases
    ledger := ∅ }

/-- Leaves a function: what was known about the code around it holds again. -/
def leaveFunction (st inner : State) : State :=
  { st with globals := inner.globals, warnings := inner.warnings, reads := inner.reads }

/-- Enters a branch with a copy of the assigned names. -/
def enterBranch (st : State) (scope : Scope) : State :=
  { st with frame := .enter scope st.frame.assigned }

/-- Leaves a branch. -/
def leaveBranch (st inner : State) : State := { inner with frame := st.frame }

/-- Joins the outcomes of the branches of a conditional. -/
def join (st : State) (outcomes : List (Assigned String)) : State :=
  { st with frame := { st.frame with assigned := st.frame.assigned.join outcomes } }

/-- Sets how the next operand is evaluated. -/
def evaluating (st : State) (mode : Evaluation) : State := { st with evaluation := mode }

/-- Begins a statement. -/
def beginStatement (st : State) : State := st.evaluating .unconditional

/-- Ends a statement; its pending definitions are taken care of. -/
def endStatement (st : State) : State := { st with frame := { st.frame with pending := [] } }

/-- The alias of a computation that this block or the nearest block around it holds. -/
def visibleAlias? (st : State) (ctx : Context) (c : Computation) : Option String :=
  (st.frame.aliases :: ctx.enclosing).findSome? (·.get? c)

/-- Whether a name is an alias of this block or of a block around it. -/
def isVisibleAlias (st : State) (ctx : Context) (name : String) : Bool :=
  (st.frame.aliases :: ctx.enclosing).any fun aliases => name ∈ aliases.values

/-- Whether a name belongs to the template rather than to an alias. -/
def isUserName (st : State) (ctx : Context) (name : String) : Bool :=
  name ∈ ctx.assignedAnywhere || name ∈ ctx.declared || name ∈ st.globals

/-- Whether a name cannot become the alias of a computation. -/
def isTaken (st : State) (ctx : Context) (c : Computation) (name : String) : Bool :=
  (st.holders.get? name).any (· ≠ c) || st.isUserName ctx name

/-- How many names can be taken. -/
def takenBound (st : State) (ctx : Context) : Nat :=
  st.holders.toList.length + ctx.assignedAnywhere.length + ctx.declared.length +
    st.globals.toList.length

/-- A name for the alias of a computation that no other alias or variable of the function has. -/
def freshAlias (st : State) (ctx : Context) (c : Computation) : String :=
  Alias.freshName (st.isTaken ctx c) (st.takenBound ctx) c.preferredAlias

/-- The alias of a computation; a new one is defined in front of the current statement. -/
def aliasFor (st : State) (ctx : Context) (c : Computation) (value : Node) : String × State :=
  match st.visibleAlias? ctx c with
  | some name => (name, st)
  | none =>
    let name := st.freshAlias ctx c
    (name,
      { st with
        holders := st.holders.insert name c
        frame := st.frame.define c name value })

/-- Records an assignment. -/
def assign (st : State) (ctx : Context) (name : String) : State :=
  { st with
    frame := st.frame.assign name
    ledger := if ctx.options.cachePlaceholders then st.ledger.assign name else st.ledger }

/-- The definition of the alias of a placeholder: the placeholder, looked up by its name. -/
def lookupOf (span : Span) (name : String) : Node :=
  .placeholder span name (some ⟨true, .dynamic⟩)

/-- How a placeholder is read: directly if that is allowed and it is certainly assigned; through an
alias if it is always read, belongs to a function and is assigned nowhere in it; else by its
name. -/
def access (st : State) (ctx : Context) (span : Span) (name : String) : Access × State :=
  if name ∈ st.frame.assigned ∧ ctx.options.directAccess then (.direct name, st)
  else if st.evaluation.isUnconditional ∧ ctx.options.cachePlaceholders ∧ ctx.inFunction ∧
      name ∉ ctx.assignedAnywhere then
    let (alternative, st) := st.aliasFor ctx (.placeholder name) (lookupOf span name)
    (.cached alternative, st)
  else (.dynamic, st)

/-- Reads a placeholder. -/
def read (st : State) (ctx : Context) (span : Span) (name : String) :
    Except Failure (Resolution × State) :=
  if ctx.options.checkAssignments ∧ name ∉ st.frame.assigned ∧ name ∉ st.globals then
    .error ⟨.unassigned name span, st.warnings⟩
  else
    let eligible := st.evaluation.isUnconditional
    let (access, st) := st.access ctx span name
    let resolution : Resolution := ⟨eligible, access⟩
    .ok (resolution, { st with reads := st.reads ++ [⟨name, span, resolution⟩] })

/-- Reports a warning, fails with it or drops it, as the options say. -/
def warn (st : State) (ctx : Context) (warning : Warning) : Except Failure State :=
  if ctx.options.rejectWarnings then .error ⟨.rejected warning, st.warnings⟩
  else if ctx.options.reportWarnings then .ok { st with warnings := st.warnings ++ [warning] }
  else .ok st

/-- The variable whose present value a filter of this operand sees. A placeholder counts where the
function assigns it. -/
def filteredVariable? (ctx : Context) : Node → Option String
  | .identifier _ name => some name
  | .placeholder _ name _ => if name ∈ ctx.assignedAnywhere then some name else none
  | _ => none

/-- Records the filter of a variable. -/
def recordFilter (st : State) (ctx : Context) (span : Span) (name : String) :
    Except Failure State :=
  let (ledger, use) := st.ledger.filter name
  let st := { st with ledger }
  match use with
  | .stale previous epoch => st.warn ctx ⟨name, span, previous, epoch⟩
  | .fresh | .again => .ok st

/-- Looks for a stale value at a filter. -/
def checkFilter (st : State) (ctx : Context) (span : Span) (operand : Node) :
    Except Failure State :=
  match ctx.options.cachePlaceholders, filteredVariable? ctx operand with
  | true, some name => st.recordFilter ctx span name
  | _, _ => .ok st

/-- The alias that an operand was resolved to. -/
def aliasedOperand? (st : State) (ctx : Context) : Node → Option String
  | .placeholder _ _ (some ⟨_, .cached name⟩) => some name
  | .identifier _ name => if st.isVisibleAlias ctx name then some name else none
  | _ => none

/-- Keeps the value of a filter in an alias, where its operand is an alias and the filter always
runs. -/
def cacheFilter (st : State) (ctx : Context) (span : Span) (operand : Node)
    (filter : Option String) : Option String × State :=
  if ctx.options.keepsFilters ∧ st.evaluation.isUnconditional ∧ ctx.inFunction then
    match st.aliasedOperand? ctx operand with
    | none => (none, st)
    | some source =>
      let (name, st) := st.aliasFor ctx (.filter filter (.identifier source))
        (.filter span (.identifier .generated source) filter none)
      (some name, st)
  else (none, st)

end State

end Stencil.Analysis
