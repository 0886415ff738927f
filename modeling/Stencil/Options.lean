/-!
# Options

Seven switches steer the optimiser. A level presets them, and single switches can be overridden
afterwards.
-/

namespace Stencil

/-- A switch of the optimiser. -/
inductive Flag where
  /-- Keep looked-up placeholders in aliases, and watch for filter caches that go stale. -/
  | cachePlaceholders
  /-- Report warnings instead of dropping them. -/
  | reportWarnings
  /-- Fail on the first warning. -/
  | rejectWarnings
  /-- Fail on a placeholder that is neither given from outside nor certainly assigned. -/
  | checkAssignments
  /-- Read certainly assigned variables directly. -/
  | directAccess
  /-- Move aliases that both branches of a conditional define in front of it. -/
  | hoistAliases
  /-- Keep filtered values of aliases in aliases too. -/
  | cacheFilters
deriving DecidableEq, Repr

namespace Flag

/-- Every switch, in the order in which option files list them. -/
def all : List Flag :=
  [.cachePlaceholders, .reportWarnings, .rejectWarnings, .checkAssignments, .directAccess,
    .hoistAliases, .cacheFilters]

theorem mem_all (flag : Flag) : flag ∈ all := by
  cases flag <;> decide

/-- The name of the switch in option files. -/
def name : Flag → String
  | .cachePlaceholders => "cache_resolved_placeholders"
  | .reportWarnings => "enable_warnings"
  | .rejectWarnings => "warnings_as_errors"
  | .checkAssignments => "static_analysis"
  | .directAccess => "directly_access_defined_variables"
  | .hoistAliases => "hoist_conditional_aliases"
  | .cacheFilters => "cache_filtered_placeholders"

/-- The switch with the given name. -/
def ofName? (text : String) : Option Flag := all.find? (·.name == text)

end Flag

/-- The positions of all switches. -/
@[ext]
structure Options where
  cachePlaceholders : Bool := false
  reportWarnings : Bool := false
  rejectWarnings : Bool := false
  checkAssignments : Bool := false
  directAccess : Bool := false
  hoistAliases : Bool := false
  cacheFilters : Bool := false
deriving DecidableEq, Repr, Inhabited

/-- New positions for some of the switches. -/
abbrev Overrides := Flag → Option Bool

namespace Options

/-- The position of a switch. -/
def get (options : Options) : Flag → Bool
  | .cachePlaceholders => options.cachePlaceholders
  | .reportWarnings => options.reportWarnings
  | .rejectWarnings => options.rejectWarnings
  | .checkAssignments => options.checkAssignments
  | .directAccess => options.directAccess
  | .hoistAliases => options.hoistAliases
  | .cacheFilters => options.cacheFilters

/-- The options with the given positions. -/
def ofFlags (position : Flag → Bool) : Options where
  cachePlaceholders := position .cachePlaceholders
  reportWarnings := position .reportWarnings
  rejectWarnings := position .rejectWarnings
  checkAssignments := position .checkAssignments
  directAccess := position .directAccess
  hoistAliases := position .hoistAliases
  cacheFilters := position .cacheFilters

@[simp]
theorem get_ofFlags (position : Flag → Bool) (flag : Flag) :
    (ofFlags position).get flag = position flag := by
  cases flag <;> rfl

@[simp]
theorem ofFlags_get (options : Options) : ofFlags options.get = options := rfl

/-- Sets the switches that the overrides name. -/
def override (options : Options) (overrides : Overrides) : Options :=
  ofFlags fun flag => (overrides flag).getD (options.get flag)

/-- Whether filtered values are kept. A filter can only be kept for a placeholder that is. -/
def keepsFilters (options : Options) : Bool := options.cachePlaceholders && options.cacheFilters

end Options

/-- How much is optimised. -/
inductive Level where
  | zero
  | one
  | two
  | three
deriving DecidableEq, Repr, Inhabited

namespace Level

/-- Every level. -/
def all : List Level := [.zero, .one, .two, .three]

/-- The digit of a level. -/
def digit : Level → String
  | .zero => "0"
  | .one => "1"
  | .two => "2"
  | .three => "3"

/-- The level with the given digit. -/
def ofDigit? (text : String) : Option Level := all.find? (·.digit == text)

/-- Reads a level: a digit, after any number of letters `O` or `o`. -/
def parse? (text : String) : Option Level :=
  ofDigit? (String.ofList (text.toList.dropWhile fun c => c == 'O' || c == 'o'))

/-- The options of a level. Each level adds to the one below it. -/
def options : Level → Options
  | .zero => {}
  | .one => { directAccess := true }
  | .two => { directAccess := true, cachePlaceholders := true }
  | .three =>
    { directAccess := true, cachePlaceholders := true, cacheFilters := true, hoistAliases := true }

end Level

end Stencil
