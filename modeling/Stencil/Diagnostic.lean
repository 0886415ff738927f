import Stencil.Span

/-!
# Warnings, errors and diagnostics

What the optimiser has to say about a template: a warning about a filter whose cached value would
be stale, or an error that ends the analysis. Both are shown as diagnostics, with a severity and a
location.
-/

namespace Stencil

/-- A variable is filtered, assigned again and filtered again. -/
@[ext]
structure Warning where
  name : String
  span : Span
  /-- The number of the assignment after which the variable was filtered first. -/
  previous : UInt32
  /-- The number of the assignment after which it is filtered now. -/
  epoch : UInt32
deriving DecidableEq, Repr

namespace Warning

/-- What the warning says. -/
def message (w : Warning) : String :=
  "'" ++ w.name ++ "' is filtered again after reassignment (assignment #" ++
    toString w.epoch.toNat ++ " was already filtered at assignment #" ++
    toString w.previous.toNat ++
    "); a filter cache keyed by this name would return a stale value"

/-- The warning with its location. -/
def text (w : Warning) : String := w.span.text ++ ": " ++ w.message

end Warning

/-- Why an analysis ends. -/
inductive AnalysisError where
  /-- A placeholder is neither given from outside nor certainly assigned. -/
  | unassigned (name : String) (span : Span)
  /-- A warning, where warnings are not accepted. -/
  | rejected (warning : Warning)
deriving DecidableEq, Repr

namespace AnalysisError

/-- The variable that the error is about. -/
def name : AnalysisError → String
  | .unassigned name _ => name
  | .rejected warning => warning.name

/-- Where the error stands. -/
def span : AnalysisError → Span
  | .unassigned _ span => span
  | .rejected warning => warning.span

/-- Whether the error is a warning that was not accepted. -/
def isRejectedWarning : AnalysisError → Bool
  | .unassigned .. => false
  | .rejected _ => true

/-- What the error says. -/
def message : AnalysisError → String
  | .unassigned name _ => "$" ++ name ++ " is not assigned on every path reaching this read"
  | .rejected warning => warning.message

/-- The error with its location. -/
def text : AnalysisError → String
  | e@(.unassigned _ span) => span.text ++ ": " ++ e.message
  | .rejected warning => "warning treated as error: " ++ warning.text

end AnalysisError

/-- How serious a diagnostic is. -/
inductive Severity where
  | error
  | warning
deriving DecidableEq, Repr

/-- The word for a severity. -/
def Severity.text : Severity → String
  | .error => "error"
  | .warning => "warning"

/-- A message about a place in a template. -/
@[ext]
structure Diagnostic where
  severity : Severity
  span : Span
  message : String
deriving DecidableEq, Repr

/-- A warning as a diagnostic. -/
def Warning.diagnostic (w : Warning) : Diagnostic := ⟨.warning, w.span, w.message⟩

/-- An error as a diagnostic. -/
def AnalysisError.diagnostic (e : AnalysisError) : Diagnostic := ⟨.error, e.span, e.message⟩

namespace Diagnostic

/-- How many diagnostics have a severity. -/
def count (severity : Severity) (diagnostics : List Diagnostic) : Nat :=
  diagnostics.countP (·.severity = severity)

/-- The severity in bold type. -/
def bold (s : String) : String := "\x1b[1m" ++ s ++ "\x1b[0m"

/-- The line that shows a diagnostic about a template on a console. -/
def line (styled : Bool) (origin : String) (d : Diagnostic) : String :=
  (if styled then bold d.severity.text else d.severity.text) ++ " " ++ origin ++ ":" ++
    d.span.text ++ ": " ++ d.message

end Diagnostic

end Stencil
