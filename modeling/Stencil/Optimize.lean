import Stencil.Analysis
import Stencil.Hoisting

/-!
# Optimising a template

The analysis, and then the hoisting pass. Diagnostics are handed over when the work is done: the
error alone if the analysis fails, and otherwise every reported warning.
-/

namespace Stencil

/-- The passes that the options switch on, in order. -/
def Options.passes (options : Options) : List String :=
  "optimization-analysis" :: if options.hoistAliases then ["final-pass-hoisting"] else []

/-- An optimised tree, and what was observed on the way. -/
structure Optimization where
  tree : Node
  warnings : List Warning
  reads : List Analysis.Read
  hoists : List Hoisting.Event

namespace Optimization

/-- What the optimiser says about the tree. -/
def diagnostics (o : Optimization) : List Diagnostic := o.warnings.map Warning.diagnostic

end Optimization

/-- What the optimiser says about a tree whose analysis failed. -/
def Analysis.Failure.diagnostics (failure : Analysis.Failure) : List Diagnostic :=
  [failure.cause.diagnostic]

/-- Runs all passes over a tree. -/
def Node.optimize (options : Options) (root : Node) : Except Analysis.Failure Optimization := do
  let analysis ← root.analyze options
  let (tree, hoists) := analysis.tree.hoistAliases options
  return ⟨tree, analysis.warnings, analysis.reads, hoists⟩

end Stencil
