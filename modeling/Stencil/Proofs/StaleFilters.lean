import Stencil.Proofs.Registration
import Mathlib.Algebra.Group.Nat.Defs

/-!
# No stale filter goes unreported

A cache of filtered values goes stale on a control path that filters a variable, assigns it and
filters it again. The analysis follows no paths: it keeps one ledger for a function and passes over
all of its branches in document order. A path leaves out some of the steps in that order and never
swaps two of them, so what makes a path stale is met by the ledger too, perhaps with steps of other
branches in between. These can only bring the warning forward.

* `FilterLedger.exists_stale`: a ledger that meets the three steps in order gives a warning.
* `Node.sublist_of_mem_cachePaths`: a path keeps the document order.
* `Analysis.Statements.recorded`: the warnings of every function are reported.
* `analyze_reports_stale_filters`: so no stale path goes unreported.
-/

namespace Stencil

/-- What matters to a cache of filtered values: a variable is assigned, or it is filtered at a
place. -/
inductive CacheStep where
  | assign (name : String)
  | filter (name : String) (span : Span)
deriving DecidableEq, Repr

/-- The variable of a step. -/
def CacheStep.name : CacheStep → String
  | .assign name | .filter name _ => name

/-- The warning about a filter that finds a stale value. -/
def FilterUse.warning? (name : String) (span : Span) : FilterUse → Option Warning
  | .stale previous epoch => some ⟨name, span, previous, epoch⟩
  | .fresh | .again => none

namespace FilterHistory

/-- A history that the ledger can have: the first filter came before the last assignment or behind
it, but never later than the last filter. -/
structure Sane (h : FilterHistory) : Prop where
  first : ∀ previous, h.first = some previous → previous ≤ h.epoch
  recorded : h.filtered = true → h.first.isSome

/-- The variable was filtered. -/
structure Filtered (h : FilterHistory) : Prop extends h.Sane where
  once : h.first.isSome

/-- The variable was filtered, and has been assigned since. -/
structure Overdue (h : FilterHistory) : Prop where
  unfiltered : h.filtered = false
  previous : ∃ previous, h.first = some previous ∧ previous < h.epoch

section Phases

variable {h : FilterHistory}

theorem toNat_assign (few : h.epoch.toNat + 1 < 2 ^ 32) :
    h.assign.epoch.toNat = h.epoch.toNat + 1 := by
  change (h.epoch + 1).toNat = _
  rw [UInt32.toNat_add]
  exact Nat.mod_eq_of_lt few

theorem Sane.assign (sane : h.Sane) (few : h.epoch.toNat + 1 < 2 ^ 32) : h.assign.Sane := by
  constructor
  · intro previous first
    have before := UInt32.le_iff_toNat_le.1 (sane.first previous first)
    rw [UInt32.le_iff_toNat_le, toNat_assign few]
    omega
  · intro filtered
    cases filtered

theorem Filtered.assign (filtered : h.Filtered) (few : h.epoch.toNat + 1 < 2 ^ 32) :
    h.assign.Overdue := by
  obtain ⟨previous, first⟩ := Option.isSome_iff_exists.1 filtered.once
  have before := UInt32.le_iff_toNat_le.1 (filtered.first previous first)
  refine ⟨rfl, previous, first, ?_⟩
  rw [UInt32.lt_iff_toNat_lt, toNat_assign few]
  omega

theorem Overdue.assign (overdue : h.Overdue) (few : h.epoch.toNat + 1 < 2 ^ 32) :
    h.assign.Overdue := by
  obtain ⟨previous, first, before⟩ := overdue.previous
  rw [UInt32.lt_iff_toNat_lt] at before
  refine ⟨rfl, previous, first, ?_⟩
  rw [UInt32.lt_iff_toNat_lt, toNat_assign few]
  omega

theorem epoch_filter (h : FilterHistory) : h.filter.1.epoch = h.epoch := by
  unfold filter
  split
  · rfl
  · split <;> rfl

theorem Sane.filter (sane : h.Sane) : h.filter.1.Filtered := by
  unfold FilterHistory.filter
  split
  · rename_i filtered
    exact ⟨sane, sane.recorded filtered⟩
  · split
    · refine ⟨⟨fun previous first => ?_, fun _ => rfl⟩, rfl⟩
      cases first
      exact UInt32.le_refl _
    · rename_i previous first
      have once : h.first.isSome := by
        rw [first]
        rfl
      exact ⟨⟨sane.first, fun _ => once⟩, once⟩

/-- Only this filter finds a stale value, and those behind it find the new one. -/
theorem Overdue.filter (overdue : h.Overdue) :
    ∃ previous, h.filter.2 = .stale previous h.epoch := by
  obtain ⟨previous, first, before⟩ := overdue.previous
  refine ⟨previous, ?_⟩
  simp [FilterHistory.filter, overdue.unfiltered, first, before]

end Phases

end FilterHistory

namespace FilterLedger

/-- The ledger behind a step, and the warning that the step gives. -/
def step (ledger : FilterLedger String) : CacheStep → FilterLedger String × Option Warning
  | .assign name => (ledger.assign name, none)
  | .filter name span => ((ledger.filter name).1, (ledger.filter name).2.warning? name span)

/-- The ledger behind some steps. -/
def after (ledger : FilterLedger String) (steps : List CacheStep) : FilterLedger String :=
  steps.foldl (fun ledger step => (ledger.step step).1) ledger

/-- The warnings that some steps give, in order. -/
def warnings (ledger : FilterLedger String) : List CacheStep → List Warning
  | [] => []
  | step :: rest => (ledger.step step).2.toList ++ (ledger.step step).1.warnings rest

theorem after_append (ledger : FilterLedger String) (first second : List CacheStep) :
    ledger.after (first ++ second) = (ledger.after first).after second :=
  List.foldl_append

theorem warnings_append (ledger : FilterLedger String) (first second : List CacheStep) :
    ledger.warnings (first ++ second) =
      ledger.warnings first ++ (ledger.after first).warnings second := by
  induction first generalizing ledger with
  | nil => rfl
  | cons step rest ih =>
    rw [List.cons_append, warnings, warnings, ih, List.append_assoc]
    rfl

section Histories

variable {ledger : FilterLedger String} {name : String} {steps : List CacheStep}

theorem history_step_of_ne {step : CacheStep} (other : step.name ≠ name) :
    (ledger.step step).1.history name = ledger.history name := by
  cases step with
  | assign target => exact (history_assign ledger target name).trans (if_neg other)
  | filter target span => exact (history_filter ledger target name).trans (if_neg other)

theorem history_step_assign (ledger : FilterLedger String) (name : String) :
    (ledger.step (.assign name)).1.history name = (ledger.history name).assign :=
  (history_assign ledger name name).trans (if_pos rfl)

theorem history_step_filter (ledger : FilterLedger String) (name : String) (span : Span) :
    (ledger.step (.filter name span)).1.history name = (ledger.history name).filter.1 :=
  (history_filter ledger name name).trans (if_pos rfl)

/-- One of the steps is a filter of the variable that is warned about. -/
def Warns (ledger : FilterLedger String) (name : String) (steps : List CacheStep) : Prop :=
  ∃ warning ∈ ledger.warnings steps, warning.name = name ∧ .filter name warning.span ∈ steps

theorem Warns.cons {step : CacheStep} (h : (ledger.step step).1.Warns name steps) :
    ledger.Warns name (step :: steps) := by
  obtain ⟨warning, member, same, place⟩ := h
  exact ⟨warning, List.mem_append_right _ member, same, List.mem_cons_of_mem _ place⟩

/-- The steps that are left leave room for the counter of assignments. -/
def Roomy (ledger : FilterLedger String) (name : String) (steps : List CacheStep) : Prop :=
  (ledger.history name).epoch.toNat + steps.count (.assign name) < 2 ^ 32

theorem Roomy.other {step : CacheStep} (room : ledger.Roomy name (step :: steps))
    (other : step.name ≠ name) : (ledger.step step).1.Roomy name steps := by
  unfold Roomy at room ⊢
  rw [history_step_of_ne other]
  rw [List.count_cons] at room
  omega

theorem Roomy.assign (room : ledger.Roomy name (.assign name :: steps)) :
    (ledger.history name).epoch.toNat + 1 < 2 ^ 32 ∧
      (ledger.step (.assign name)).1.Roomy name steps := by
  unfold Roomy at room ⊢
  rw [List.count_cons_self] at room
  have few : (ledger.history name).epoch.toNat + 1 < 2 ^ 32 := by omega
  refine ⟨few, ?_⟩
  rw [history_step_assign, FilterHistory.toNat_assign few]
  omega

theorem Roomy.filter {span : Span} (room : ledger.Roomy name (.filter name span :: steps)) :
    (ledger.step (.filter name span)).1.Roomy name steps := by
  unfold Roomy at room ⊢
  rw [history_step_filter, FilterHistory.epoch_filter]
  rw [List.count_cons] at room
  omega

/-- Whatever assignments come in between, the next filter of a variable that has changed since it
was filtered is warned about. -/
theorem warns_of_overdue (room : ledger.Roomy name steps)
    (overdue : (ledger.history name).Overdue) {span : Span} (h : .filter name span ∈ steps) :
    ledger.Warns name steps := by
  induction steps generalizing ledger with
  | nil => cases h
  | cons step rest ih =>
    by_cases other : step.name = name
    · cases step with
      | assign target =>
        obtain rfl : target = name := other
        obtain ⟨few, room⟩ := room.assign
        apply Warns.cons
        apply ih room
        · rw [history_step_assign]
          exact overdue.assign few
        · simpa using h
      | filter target place =>
        obtain rfl : target = name := other
        obtain ⟨previous, stale⟩ := overdue.filter
        refine ⟨⟨target, place, previous, (ledger.history target).epoch⟩, ?_, rfl,
          List.mem_cons_self⟩
        apply List.mem_append_left
        simp [step, FilterLedger.filter, stale, FilterUse.warning?]
    · apply Warns.cons
      apply ih (room.other other)
      · rw [history_step_of_ne other]
        exact overdue
      · rcases List.mem_cons.1 h with here | behind
        · exact absurd (congrArg CacheStep.name here).symm other
        · exact behind

/-- The same for a variable that was filtered and is assigned before it is filtered again. -/
theorem warns_of_filtered (room : ledger.Roomy name steps)
    (filtered : (ledger.history name).Filtered) {span : Span}
    (h : [.assign name, .filter name span].Sublist steps) : ledger.Warns name steps := by
  induction steps generalizing ledger with
  | nil => cases h
  | cons step rest ih =>
    apply Warns.cons
    by_cases other : step.name = name
    · cases step with
      | assign target =>
        obtain rfl : target = name := other
        obtain ⟨few, room⟩ := room.assign
        have overdue : ((ledger.step (.assign target)).1.history target).Overdue := by
          rw [history_step_assign]
          exact filtered.assign few
        have behind : [CacheStep.filter target span].Sublist rest := by
          cases h with
          | cons _ later => exact (List.sublist_cons_self _ _).trans later
          | cons_cons _ later => exact later
        exact warns_of_overdue room overdue (List.singleton_sublist.1 behind)
      | filter target place =>
        obtain rfl : target = name := other
        apply ih room.filter
        · rw [history_step_filter]
          exact filtered.toSane.filter
        · cases h with
          | cons _ later => exact later
    · apply ih (room.other other)
      · rw [history_step_of_ne other]
        exact filtered
      · cases h with
        | cons _ later => exact later
        | cons_cons => exact absurd rfl other

/-- A ledger that meets a filter, an assignment and another filter of a variable in this order gives
a warning about the variable. -/
theorem exists_stale (room : ledger.Roomy name steps) (sane : (ledger.history name).Sane)
    {first second : Span}
    (h : [.filter name first, .assign name, .filter name second].Sublist steps) :
    ledger.Warns name steps := by
  induction steps generalizing ledger with
  | nil => cases h
  | cons step rest ih =>
    apply Warns.cons
    by_cases other : step.name = name
    · cases step with
      | assign target =>
        obtain rfl : target = name := other
        obtain ⟨few, room⟩ := room.assign
        apply ih room
        · rw [history_step_assign]
          exact sane.assign few
        · cases h with
          | cons _ later => exact later
      | filter target place =>
        obtain rfl : target = name := other
        have filtered : ((ledger.step (.filter target place)).1.history target).Filtered := by
          rw [history_step_filter]
          exact sane.filter
        have behind : [CacheStep.assign target, .filter target second].Sublist rest := by
          cases h with
          | cons _ later => exact (List.sublist_cons_self _ _).trans later
          | cons_cons _ later => exact later
        exact warns_of_filtered room.filter filtered behind
    · apply ih (room.other other)
      · rw [history_step_of_ne other]
        exact sane
      · cases h with
        | cons _ later => exact later
        | cons_cons => exact absurd rfl other

end Histories

end FilterLedger

/-- Every path of one list followed by every path of another. -/
def CacheStep.chain (paths next : List (List CacheStep)) : List (List CacheStep) :=
  paths.flatMap fun path => next.map (path ++ ·)

theorem CacheStep.mem_chain {paths next : List (List CacheStep)} {path : List CacheStep} :
    path ∈ chain paths next ↔ ∃ p ∈ paths, ∃ q ∈ next, p ++ q = path := by
  simp [chain]

namespace Node

open CacheStep

/-- The variable whose present value an operand has. A placeholder has that of the variable of its
name, if that is one of the assigned ones. -/
def variableOf? (assigned : List String) : Node → Option String
  | .identifier _ name => some name
  | .placeholder _ name _ => if name ∈ assigned then some name else none
  | _ => none

/-- The step of a filter that is applied to an operand, if it is applied to a variable. -/
def filterStep (assigned : List String) (span : Span) (operand : Node) : List CacheStep :=
  ((operand.variableOf? assigned).map (CacheStep.filter · span)).toList

mutual

/-- The steps of a node in document order, those of the functions defined there left out. -/
def cacheSteps (assigned : List String) : Node → List CacheStep
  | .template _ _ _ body => cacheStepsOf assigned body
  | .function .. | .identifier .. | .placeholder .. | .literal .. => []
  | .conditional _ condition ⟨thenBody, _⟩ none =>
    condition.cacheSteps assigned ++ cacheStepsOf assigned thenBody
  | .conditional _ condition ⟨thenBody, _⟩ (some ⟨elseBody, _⟩) =>
    condition.cacheSteps assigned ++
      (cacheStepsOf assigned thenBody ++ cacheStepsOf assigned elseBody)
  | .assign _ target value => value.cacheSteps assigned ++ [.assign target]
  | .binary _ _ left right => left.cacheSteps assigned ++ right.cacheSteps assigned
  | .filter span operand _ _ => operand.cacheSteps assigned ++ operand.filterStep assigned span
  | .call _ callee arguments => callee.cacheSteps assigned ++ cacheStepsOf assigned arguments
  | .list _ items => cacheStepsOf assigned items
  | .write _ operand => operand.cacheSteps assigned
termination_by structural n => n

/-- The steps of a list of nodes in document order. -/
def cacheStepsOf (assigned : List String) : List Node → List CacheStep
  | [] => []
  | n :: rest => n.cacheSteps assigned ++ cacheStepsOf assigned rest
termination_by structural ns => ns

end

mutual

/-- The steps of a node on each control path through it. The branch of a conditional is chosen
freely, a missing branch is an empty one, and `and` and `or` may leave out their right operand. -/
def cachePaths (assigned : List String) : Node → List (List CacheStep)
  | .template _ _ _ body => cachePathsOf assigned body
  | .function .. | .identifier .. | .placeholder .. | .literal .. => [[]]
  | .conditional _ condition ⟨thenBody, _⟩ none =>
    chain (condition.cachePaths assigned) (cachePathsOf assigned thenBody ++ [[]])
  | .conditional _ condition ⟨thenBody, _⟩ (some ⟨elseBody, _⟩) =>
    chain (condition.cachePaths assigned)
      (cachePathsOf assigned thenBody ++ cachePathsOf assigned elseBody)
  | .assign _ target value => chain (value.cachePaths assigned) [[.assign target]]
  | .binary _ op left right =>
    chain (left.cachePaths assigned)
      (right.cachePaths assigned ++ if op = .and ∨ op = .or then [[]] else [])
  | .filter span operand _ _ =>
    chain (operand.cachePaths assigned) [operand.filterStep assigned span]
  | .call _ callee arguments =>
    chain (callee.cachePaths assigned) (cachePathsOf assigned arguments)
  | .list _ items => cachePathsOf assigned items
  | .write _ operand => operand.cachePaths assigned
termination_by structural n => n

/-- The steps of a list of nodes on each control path through it. -/
def cachePathsOf (assigned : List String) : List Node → List (List CacheStep)
  | [] => [[]]
  | n :: rest => chain (n.cachePaths assigned) (cachePathsOf assigned rest)
termination_by structural ns => ns

end

section Order

variable {assigned : List String} {path steps steps' : List CacheStep}
  {paths paths' : List (List CacheStep)}

/-- Paths that keep an order, followed by paths that keep another one. -/
theorem sublist_of_mem_chain (first : ∀ p ∈ paths, p.Sublist steps)
    (second : ∀ p ∈ paths', p.Sublist steps') (member : path ∈ chain paths paths') :
    path.Sublist (steps ++ steps') := by
  obtain ⟨p, hp, q, hq, rfl⟩ := mem_chain.1 member
  exact (first p hp).append (second q hq)

theorem sublist_of_mem_either (first : ∀ p ∈ paths, p.Sublist steps)
    (second : ∀ p ∈ paths', p.Sublist steps') :
    ∀ p ∈ paths ++ paths', p.Sublist (steps ++ steps') := by
  intro p member
  rcases List.mem_append.1 member with left | right
  · exact (first p left).trans (List.sublist_append_left _ _)
  · exact (second p right).trans (List.sublist_append_right _ _)

theorem sublist_of_mem_singleton : ∀ p ∈ [steps], p.Sublist steps := by
  intro p member
  obtain rfl := List.mem_singleton.1 member
  exact List.Sublist.refl _

/-- A path that may be left out. -/
theorem sublist_of_mem_optional (first : ∀ p ∈ paths, p.Sublist steps) :
    ∀ p ∈ paths ++ [[]], p.Sublist steps := by
  intro p member
  rcases List.mem_append.1 member with kept | skipped
  · exact first p kept
  · rw [List.mem_singleton.1 skipped]
    exact List.nil_sublist _

mutual

theorem sublist_of_mem_cachePaths (n : Node) :
    ∀ path ∈ n.cachePaths assigned, path.Sublist (n.cacheSteps assigned) := by
  intro path member
  cases n with
  | template span name globals body => exact sublist_of_mem_cachePathsOf body path member
  | function | identifier | placeholder | literal => exact sublist_of_mem_singleton path member
  | conditional span condition thenBranch elseBranch =>
    obtain ⟨thenBody, thenScope⟩ := thenBranch
    cases elseBranch with
    | none =>
      exact sublist_of_mem_chain (sublist_of_mem_cachePaths condition)
        (sublist_of_mem_optional (sublist_of_mem_cachePathsOf thenBody)) member
    | some block =>
      obtain ⟨elseBody, elseScope⟩ := block
      exact sublist_of_mem_chain (sublist_of_mem_cachePaths condition)
        (sublist_of_mem_either (sublist_of_mem_cachePathsOf thenBody)
          (sublist_of_mem_cachePathsOf elseBody)) member
  | assign span target value =>
    exact sublist_of_mem_chain (sublist_of_mem_cachePaths value) sublist_of_mem_singleton member
  | binary span op left right =>
    refine sublist_of_mem_chain (sublist_of_mem_cachePaths left) ?_ member
    split
    · exact sublist_of_mem_optional (sublist_of_mem_cachePaths right)
    · rw [List.append_nil]
      exact sublist_of_mem_cachePaths right
  | filter span operand name cachedAs =>
    exact sublist_of_mem_chain (sublist_of_mem_cachePaths operand) sublist_of_mem_singleton member
  | call span callee arguments =>
    exact sublist_of_mem_chain (sublist_of_mem_cachePaths callee)
      (sublist_of_mem_cachePathsOf arguments) member
  | list span items => exact sublist_of_mem_cachePathsOf items path member
  | write span operand => exact sublist_of_mem_cachePaths operand path member
termination_by structural n

/-- A control path keeps the document order of its steps. -/
theorem sublist_of_mem_cachePathsOf (ns : List Node) :
    ∀ path ∈ cachePathsOf assigned ns, path.Sublist (cacheStepsOf assigned ns) := by
  intro path member
  cases ns with
  | nil => exact sublist_of_mem_singleton path member
  | cons n rest =>
    exact sublist_of_mem_chain (sublist_of_mem_cachePaths n) (sublist_of_mem_cachePathsOf rest)
      member
termination_by structural ns

end

end Order

theorem count_assign_filterStep (assigned : List String) (name : String) (span : Span)
    (operand : Node) : (operand.filterStep assigned span).count (.assign name) = 0 := by
  unfold filterStep
  cases operand.variableOf? assigned <;> simp

mutual

theorem count_assign_cacheSteps (assigned : List String) (name : String) (n : Node) :
    (n.cacheSteps assigned).count (.assign name) = n.assignments.count name := by
  cases n with
  | template span _ globals body => exact count_assign_cacheStepsOf assigned name body
  | function | identifier | placeholder | literal => rfl
  | conditional span condition thenBranch elseBranch =>
    obtain ⟨thenBody, thenScope⟩ := thenBranch
    cases elseBranch with
    | none =>
      rw [cacheSteps, assignments, List.count_append, List.count_append,
        count_assign_cacheSteps assigned name condition,
        count_assign_cacheStepsOf assigned name thenBody]
    | some block =>
      obtain ⟨elseBody, elseScope⟩ := block
      rw [cacheSteps, assignments, List.count_append, List.count_append, List.count_append,
        List.count_append, count_assign_cacheSteps assigned name condition,
        count_assign_cacheStepsOf assigned name thenBody,
        count_assign_cacheStepsOf assigned name elseBody, Nat.add_assoc]
  | assign span target value =>
    rw [cacheSteps, assignments, List.count_append, count_assign_cacheSteps assigned name value,
      List.count_cons, List.count_cons]
    simp
  | binary span op left right =>
    rw [cacheSteps, assignments, List.count_append, List.count_append,
      count_assign_cacheSteps assigned name left, count_assign_cacheSteps assigned name right]
  | filter span operand _ cachedAs =>
    rw [cacheSteps, assignments, List.count_append, count_assign_filterStep,
      count_assign_cacheSteps assigned name operand, Nat.add_zero]
  | call span callee arguments =>
    rw [cacheSteps, assignments, List.count_append, List.count_append,
      count_assign_cacheSteps assigned name callee,
      count_assign_cacheStepsOf assigned name arguments]
  | list span items => exact count_assign_cacheStepsOf assigned name items
  | write span operand => exact count_assign_cacheSteps assigned name operand
termination_by structural n

/-- Each assignment is a step. -/
theorem count_assign_cacheStepsOf (assigned : List String) (name : String) (ns : List Node) :
    (cacheStepsOf assigned ns).count (.assign name) = (assignmentsOf ns).count name := by
  cases ns with
  | nil => rfl
  | cons n rest =>
    rw [cacheStepsOf, assignmentsOf, List.count_append, List.count_append,
      count_assign_cacheSteps assigned name n, count_assign_cacheStepsOf assigned name rest]
termination_by structural ns

end

end Node

namespace Block

/-- The steps of a function in document order. -/
def cacheSteps (f : Block Node) : List CacheStep := Node.cacheStepsOf f.assignments f.body

/-- The steps of a function on each control path through its body. -/
def cachePaths (f : Block Node) : List (List CacheStep) := Node.cachePathsOf f.assignments f.body

/-- The warnings that a function gives by itself: those of a ledger that passes over its steps. -/
def staleFilters (f : Block Node) : List Warning :=
  (∅ : FilterLedger String).warnings f.cacheSteps

/-- A function with a path on which a cached value goes stale gives a warning. -/
theorem exists_staleFilter {f : Block Node} {path : List CacheStep} {name : String}
    {first second : Span} (few : f.assignments.count name < 2 ^ 32) (along : path ∈ f.cachePaths)
    (stale : [.filter name first, .assign name, .filter name second].Sublist path) :
    ∃ warning ∈ f.staleFilters, warning.name = name ∧
      .filter name warning.span ∈ f.cacheSteps := by
  have inOrder := stale.trans (Node.sublist_of_mem_cachePathsOf f.body path along)
  apply FilterLedger.exists_stale _ _ inOrder
  · change 0 + (Node.cacheStepsOf f.assignments f.body).count (.assign name) < 2 ^ 32
    rw [Node.count_assign_cacheStepsOf, Nat.zero_add]
    exact few
  · constructor
    · intro previous first
      cases first
    · intro filtered
      cases filtered

end Block

namespace Analysis

/-- The options under which every stale filter is reported. -/
structure Reporting (options : Options) : Prop where
  caching : options.cachePlaceholders = true
  reporting : options.reportWarnings = true
  lenient : options.rejectWarnings = false

/-- A walk over the given steps and functions, from a ledger and some warnings to others: the ledger
has passed over the steps, and the warnings that the steps and the functions give are reported. -/
structure Recorded (steps : List CacheStep) (functions : List (Block Node))
    (before : FilterLedger String) (reported : List Warning) (behind : FilterLedger String)
    (reported' : List Warning) : Prop where
  ledger : behind = before.after steps
  warnings : ∃ raised, reported' = reported ++ raised ∧ (before.warnings steps).Sublist raised ∧
    ∀ f ∈ functions, f.staleFilters.Sublist raised

section Recorded

variable {steps steps' : List CacheStep} {functions functions' : List (Block Node)}
  {ledger ledger' ledger'' : FilterLedger String} {warnings warnings' warnings'' : List Warning}

theorem Recorded.nil (ledger : FilterLedger String) (warnings : List Warning) :
    Recorded [] [] ledger warnings ledger warnings :=
  ⟨rfl, [], (List.append_nil _).symm, List.Sublist.refl _, fun _ member => by cases member⟩

theorem Recorded.append (first : Recorded steps functions ledger warnings ledger' warnings')
    (second : Recorded steps' functions' ledger' warnings' ledger'' warnings'') :
    Recorded (steps ++ steps') (functions ++ functions') ledger warnings ledger'' warnings'' := by
  obtain ⟨rfl, raised, rfl, own, inner⟩ := first
  obtain ⟨rfl, raised', rfl, own', inner'⟩ := second
  refine ⟨(FilterLedger.after_append _ _ _).symm, raised ++ raised', List.append_assoc _ _ _, ?_, ?_⟩
  · rw [FilterLedger.warnings_append]
    exact own.append own'
  · intro f member
    rcases List.mem_append.1 member with left | right
    · exact (inner f left).trans (List.sublist_append_left _ _)
    · exact (inner' f right).trans (List.sublist_append_right _ _)

/-- One step, with its warning if it gives one. -/
theorem Recorded.step (step : CacheStep) (ledger : FilterLedger String) (warnings : List Warning) :
    Recorded [step] [] ledger warnings (ledger.step step).1
      (warnings ++ (ledger.step step).2.toList) := by
  have own : ledger.warnings [step] = (ledger.step step).2.toList := List.append_nil _
  exact ⟨rfl, _, rfl, own ▸ List.Sublist.refl _, fun _ member => by cases member⟩

/-- The ledger of a function is its own. -/
theorem Recorded.function {f : Block Node} (outer : FilterLedger String)
    (h : Recorded f.cacheSteps functions ∅ warnings ledger' warnings') :
    Recorded [] (f :: functions) outer warnings outer warnings' := by
  obtain ⟨-, raised, rfl, own, inner⟩ := h
  refine ⟨rfl, raised, rfl, List.nil_sublist _, fun g member => ?_⟩
  rcases List.mem_cons.1 member with rfl | below
  · exact own
  · exact inner g below

end Recorded

section Expressions

variable {ctx : Context} {st next last : State} {es es' : List Node}

theorem aliasFor_unrecorded {c : Computation} {value : Node} {name : String}
    (made : st.aliasFor ctx c value = (name, next)) :
    next.ledger = st.ledger ∧ next.warnings = st.warnings := by
  rcases aliasFor_cases made with ⟨rfl, -⟩ | ⟨rfl, -⟩ <;> exact ⟨rfl, rfl⟩

theorem read_unrecorded {span : Span} {name : String} {resolution : Resolution}
    (read : st.read ctx span name = .ok (resolution, next)) :
    next.ledger = st.ledger ∧ next.warnings = st.warnings := by
  unfold State.read at read
  split at read
  · cases read
  · simp only [Except.ok.injEq, Prod.mk.injEq] at read
    obtain ⟨-, rfl⟩ := read
    unfold State.access
    split
    · exact ⟨rfl, rfl⟩
    · split
      · cases made : st.aliasFor ctx (.placeholder name) (State.lookupOf span name) with
        | mk alternative middle =>
          have kept := aliasFor_unrecorded made
          exact kept
      · exact ⟨rfl, rfl⟩

theorem cacheFilter_unrecorded {span : Span} {operand : Node} {filter cached : Option String}
    (cache : st.cacheFilter ctx span operand filter = (cached, next)) :
    next.ledger = st.ledger ∧ next.warnings = st.warnings := by
  rcases cacheFilter_cases cache with ⟨-, rfl⟩ | ⟨_, _, -, -, -, -, made⟩
  · exact ⟨rfl, rfl⟩
  · exact aliasFor_unrecorded made

theorem filteredVariable?_eq (ctx : Context) (operand : Node) :
    State.filteredVariable? ctx operand = operand.variableOf? ctx.assignedAnywhere := by
  cases operand <;> rfl

theorem checkFilter_recorded {span : Span} {operand : Node} (all : Reporting ctx.options)
    (check : st.checkFilter ctx span operand = .ok next) :
    Recorded (operand.filterStep ctx.assignedAnywhere span) [] st.ledger st.warnings next.ledger
      next.warnings := by
  unfold State.checkFilter at check
  rw [filteredVariable?_eq, all.caching] at check
  unfold Node.filterStep
  cases direct : operand.variableOf? ctx.assignedAnywhere with
  | none =>
    rw [direct] at check
    cases check
    exact .nil _ _
  | some name =>
    rw [direct] at check
    have recorded := Recorded.step (.filter name span) st.ledger st.warnings
    simp only [State.recordFilter] at check
    cases use : (st.ledger.filter name).2 with
    | stale previous epoch =>
      rw [use] at check
      simp only [State.warn, all.lenient, all.reporting, Bool.false_eq_true, if_false, if_true]
        at check
      cases check
      simpa [FilterLedger.step, use, FilterUse.warning?] using recorded
    | fresh | again =>
      rw [use] at check
      cases check
      simpa [FilterLedger.step, use, FilterUse.warning?] using recorded

/-- What is noted on an operand does not change the variable it stands for. -/
theorem Operands.variableOf?_eq {e e' : Node} (h : Operands ctx st [e] [e'] last)
    (assigned : List String) : e'.variableOf? assigned = e.variableOf? assigned := by
  cases h with
  | identifier | literal | placeholder | binary | filter | call | list => rfl

theorem Operands.recorded (h : Operands ctx st es es' last) (all : Reporting ctx.options) :
    Recorded (Node.cacheStepsOf ctx.assignedAnywhere es) [] st.ledger st.warnings last.ledger
      last.warnings := by
  induction h with
  | nil => exact .nil _ _
  | identifier _ _ _ ih | literal _ _ _ ih => exact ih
  | placeholder read _ ih =>
    obtain ⟨ledger, warnings⟩ := read_unrecorded read
    rw [ledger, warnings] at ih
    exact ih
  | binary _ _ _ _ _ first second later =>
    simp only [Node.cacheStepsOf, Node.cacheSteps, List.append_nil] at first second ⊢
    exact (first.append second).append later
  | @filter _ middle checked next _ operand operand' _ _ span _ _ innerWalk check cache _ inner
      later =>
    simp only [Node.cacheStepsOf, Node.cacheSteps, List.append_nil] at inner ⊢
    have here := checkFilter_recorded all check
    rw [Node.filterStep, innerWalk.variableOf?_eq] at here
    obtain ⟨ledger, warnings⟩ := cacheFilter_unrecorded cache
    rw [ledger, warnings] at later
    exact (inner.append here).append later
  | call _ _ _ _ first second later =>
    simp only [Node.cacheStepsOf, Node.cacheSteps, List.append_nil] at first ⊢
    exact (first.append second).append later
  | list _ _ _ inner later =>
    simp only [Node.cacheStepsOf, Node.cacheSteps]
    exact inner.append later

/-- One expression, as for several. It defines no function. -/
theorem Operands.recorded_one {e e' : Node} (h : Operands ctx st [e] [e'] last)
    (all : Reporting ctx.options) :
    Recorded (e.cacheSteps ctx.assignedAnywhere) e.functions st.ledger st.warnings last.ledger
      last.warnings := by
  have recorded := h.recorded all
  rw [h.flat.1.head.2]
  simpa [Node.cacheStepsOf] using recorded

end Expressions

/-- The walk of a block reports the warnings of its steps and of every function in it. -/
theorem Statements.recorded {ctx : Context} {st last : State} {source out : List Node}
    (h : Statements ctx st source out last) (all : Reporting ctx.options) :
    Recorded (Node.cacheStepsOf ctx.assignedAnywhere source) (Node.functionsOf source) st.ledger
      st.warnings last.ledger last.warnings := by
  induction h with
  | nil => exact .nil _ _
  | @function ctx st inner last body walked rest rest' scope span name inside later insideIH ih =>
    rw [Node.functionsOf_cons, Node.functions_function]
    exact (Recorded.function (f := ⟨body, scope⟩) st.ledger (insideIH all)).append (ih all)
  | branch span test thenWalk later thenIH ih =>
    rw [Node.functionsOf_cons, Node.functions_branch]
    exact ((test.recorded_one all).append (thenIH all)).append (ih all)
  | branches span test thenWalk elseWalk later thenIH elseIH ih =>
    rw [Node.functionsOf_cons, Node.functions_branches, List.append_assoc (Node.functions _)]
    exact ((test.recorded_one all).append ((thenIH all).append (elseIH all))).append (ih all)
  | @assign ctx st next last value value' rest rest' span target inner later ih =>
    have set : Recorded [.assign target] [] next.ledger next.warnings
        (next.assign ctx target).ledger next.warnings := by
      have step := Recorded.step (.assign target) next.ledger next.warnings
      simpa [State.assign, all.caching, FilterLedger.step] using step
    have here := (inner.recorded_one all).append set
    rw [List.append_nil] at here
    rw [Node.functionsOf_cons, Node.functions_assign]
    exact here.append (ih all)
  | write span inner later ih =>
    rw [Node.functionsOf_cons, Node.functions_write]
    exact (inner.recorded_one all).append (ih all)
  | expression plain inner later ih =>
    rw [Node.functionsOf_cons]
    exact (inner.recorded_one all).append (ih all)

/-- The warnings of every function of a tree are reported. -/
theorem analyze_staleFilters {options : Options} {root : Node} {analysis : Analysis}
    (source : root.isSource) (all : Reporting options) (h : root.analyze options = .ok analysis)
    {f : Block Node} (member : f ∈ root.functions) :
    f.staleFilters.Sublist analysis.warnings := by
  obtain ⟨first, out, last, statements, -, -, -, -, report⟩ := analyze_walked source h
  obtain ⟨-, raised, grown, -, functions⟩ := statements.recorded all
  rw [Node.functions_eq_top] at member
  rw [← report, grown]
  exact (functions f member).trans (List.sublist_append_right _ _)

end Analysis

/-- No stale filter goes unreported: if some control path through a function filters a variable,
assigns it and filters it again, then a warning is reported that names the variable. It is one of
those that the function gives, all of which are reported, and stands at one of its filters. -/
theorem analyze_reports_stale_filters (options : Options) (root : Node) (analysis : Analysis)
    (source : root.isSource) (caching : options.cachePlaceholders = true)
    (reporting : options.reportWarnings = true) (lenient : options.rejectWarnings = false)
    (h : root.analyze options = .ok analysis) (f : Block Node) (member : f ∈ root.functions)
    (path : List CacheStep) (along : path ∈ f.cachePaths) (name : String) (first second : Span)
    (few : f.assignments.count name < 2 ^ 32)
    (stale : [.filter name first, .assign name, .filter name second].Sublist path) :
    (∃ warning ∈ analysis.warnings, warning.name = name ∧ warning ∈ f.staleFilters ∧
      .filter name warning.span ∈ f.cacheSteps) ∧
    f.staleFilters.Sublist analysis.warnings := by
  have reported := Analysis.analyze_staleFilters source ⟨caching, reporting, lenient⟩ h member
  obtain ⟨warning, given, named, place⟩ := f.exists_staleFilter few along stale
  exact ⟨⟨warning, reported.subset given, named, given, place⟩, reported⟩

/-- The options that warn about stale filters. -/
def Options.warning : Options := { cachePlaceholders := true, reportWarnings := true }

/-- A function that filters a variable in front of a conditional, in its second branch and behind
it, and assigns the variable in the first branch. -/
def restless : Block Node :=
  let filtered (line : UInt32) := Node.write .generated
    (.filter ⟨0, 0, line, 1⟩ (.placeholder .generated "line" none) none none)
  .plain
    [filtered 1,
      .conditional .generated (.identifier .generated "hello")
        (.plain [.assign .generated "line" (.identifier .generated "hello")])
        (some (.plain [filtered 4])),
      filtered 5]

/-- Only the path through the first branch goes stale, and it does so at the last filter. The ledger
meets the new value at the filter of the second branch, and warns there. -/
theorem restless_reported :
    let page := Node.template .generated "page" ∅ [.function .generated "restless" restless]
    let path : List CacheStep :=
      [.filter "line" ⟨0, 0, 1, 1⟩, .assign "line", .filter "line" ⟨0, 0, 5, 1⟩]
    ∃ analysis, page.isSource = true ∧ page.analyze .warning = .ok analysis ∧
      restless ∈ page.functions ∧ path ∈ restless.cachePaths ∧
      restless.assignments.count "line" < 2 ^ 32 ∧
      restless.staleFilters = [⟨"line", ⟨0, 0, 4, 1⟩, 0, 1⟩] ∧
      (∃ warning ∈ analysis.warnings, warning.name = "line" ∧ warning ∈ restless.staleFilters ∧
        .filter "line" warning.span ∈ restless.cacheSteps) ∧
      restless.staleFilters.Sublist analysis.warnings := by
  intro page path
  have along : path ∈ restless.cachePaths := by decide
  have reported := analyze_reports_stale_filters .warning page _ (by decide) rfl rfl rfl rfl
    restless List.mem_cons_self path along "line" _ _ (by decide) (List.Sublist.refl _)
  exact ⟨_, by decide, rfl, List.mem_cons_self, along, by decide, by decide, reported⟩

end Stencil
