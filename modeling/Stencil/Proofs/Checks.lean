import Stencil.Proofs.Warnings

/-!
# The options that only check

Three options decide what the analysis says about a tree, and not what it makes of it: whether
warnings are reported, whether the first one ends the analysis, and whether assignments are checked.
The first two are compared with an analysis that reports every warning and goes on. That analysis
finds the same state at each node, since nothing but the list of warnings tells how a warning was
disposed of, and nothing reads this list.

* `Disposition.settle`: what another disposition makes of an outcome that was reached with every
  warning reported.
* `Analysis.walk_settled`: a walk of any tree under another disposition has this outcome.
* `Analysis.walk_unchecked`: a walk that passes the check of assignments goes the same way without
  it.
* `checks_only_check`: the options taken together, for an analysis.
-/

namespace Stencil

namespace Analysis

/-- What is done with a warning. -/
@[ext]
structure Disposition where
  /-- Whether it is reported. -/
  reports : Bool
  /-- Whether it ends the analysis. -/
  rejects : Bool
deriving DecidableEq, Repr

end Analysis

/-- The options with another disposition. -/
def Options.disposing (options : Options) (d : Analysis.Disposition) : Options :=
  { options with reportWarnings := d.reports, rejectWarnings := d.rejects }

namespace Analysis

/-- The context with another disposition. -/
def Context.disposing (ctx : Context) (d : Disposition) : Context :=
  { ctx with options := ctx.options.disposing d }

/-- The context without the check of assignments. -/
def Context.unchecked (ctx : Context) : Context :=
  { ctx with options := { ctx.options with checkAssignments := false } }

/-- The warnings that are on record at the end of a walk. -/
def raised {α : Type} : Except Failure (α × State) → List Warning
  | .ok (_, st) => st.warnings
  | .error failure => failure.warnings

namespace Disposition

variable (d : Disposition)

/-- The part of the warnings that is reported. -/
def shown (warnings : List Warning) : List Warning := if d.reports then warnings else []

/-- The warning that ends the analysis, if there is one. -/
def rejected? (warnings : List Warning) : Option Warning :=
  if d.rejects then warnings.head? else none

/-- The state in which the reported warnings alone are on record. -/
def view (st : State) : State := { st with warnings := d.shown st.warnings }

/-- What the disposition makes of an outcome that was reached with every warning reported. -/
def settle {α : Type} (outcome : Except Failure (α × State)) : Except Failure (α × State) :=
  match d.rejected? (raised outcome), outcome with
  | some warning, _ => .error ⟨.rejected warning, []⟩
  | none, .ok (a, st) => .ok (a, d.view st)
  | none, .error failure => .error ⟨failure.cause, d.shown failure.warnings⟩

variable {d}

@[simp]
theorem shown_nil : d.shown [] = [] := by
  unfold shown
  split <;> rfl

theorem rejected?_eq_none {warnings : List Warning} :
    d.rejected? warnings = none ↔ (d.rejects = true → warnings = []) := by
  unfold rejected?
  split
  case isTrue rejecting => simp [rejecting]
  case isFalse lenient => simp [lenient]

/-- A warning that was on record stays the first. -/
theorem rejected?_of_prefix {warnings later : List Warning} {warning : Warning}
    (found : d.rejected? warnings = some warning) (grows : warnings <+: later) :
    d.rejected? later = some warning := by
  unfold rejected? at found ⊢
  split at found
  case isFalse => cases found
  case isTrue rejecting =>
    rw [if_pos rejecting]
    obtain ⟨rest, rfl⟩ := grows
    rw [List.head?_append, found, Option.some_or]

variable {α : Type}

theorem settle_rejected {outcome : Except Failure (α × State)} {warning : Warning}
    (found : d.rejected? (raised outcome) = some warning) :
    d.settle outcome = .error ⟨.rejected warning, []⟩ := by
  unfold settle
  rw [found]

theorem settle_ok {a : α} {st : State} (clean : d.rejected? st.warnings = none) :
    d.settle (.ok (a, st)) = .ok (a, d.view st) := by
  unfold settle
  rw [raised, clean]

theorem settle_error {failure : Failure} (clean : d.rejected? failure.warnings = none) :
    d.settle (.error failure : Except Failure (α × State)) =
      .error ⟨failure.cause, d.shown failure.warnings⟩ := by
  unfold settle
  rw [raised, clean]

end Disposition

/-- A walk that reports every warning, from those on record, and a second walk with another
disposition, which has the outcome that this disposition makes of the first. -/
structure Settled (d : Disposition) (reported : List Warning) {α : Type}
    (outcome outcome' : Except Failure (α × State)) : Prop where
  /-- The first walk forgets no warning. -/
  grows : reported <+: raised outcome
  /-- Where warnings are rejected, the second walk goes on only as long as there is none. -/
  settles : d.rejected? reported = none → outcome' = d.settle outcome

section Settled

variable {d : Disposition} {reported : List Warning} {α β : Type}

theorem Settled.done (a : α) (st : State) :
    Settled d st.warnings (.ok (a, st)) (.ok (a, d.view st)) where
  grows := List.prefix_refl _
  settles clean := (Disposition.settle_ok clean).symm

theorem Settled.failed (failure : Failure) :
    Settled d failure.warnings (.error failure : Except Failure (α × State))
      (.error ⟨failure.cause, d.shown failure.warnings⟩) where
  grows := List.prefix_refl _
  settles clean := (Disposition.settle_error clean).symm

/-- One walk after another. -/
theorem Settled.bind {x x' : Except Failure (α × State)}
    {k k' : α × State → Except Failure (β × State)} (first : Settled d reported x x')
    (second : ∀ a st, Settled d st.warnings (k (a, st)) (k' (a, d.view st))) :
    Settled d reported (x >>= k) (x' >>= k') := by
  cases x with
  | error failure =>
    refine ⟨first.grows, fun clean => ?_⟩
    rw [first.settles clean]
    cases found : d.rejected? failure.warnings with
    | none =>
      rw [Disposition.settle_error found]
      exact (Disposition.settle_error found).symm
    | some warning =>
      rw [Disposition.settle_rejected found]
      exact (Disposition.settle_rejected found).symm
  | ok result =>
    obtain ⟨a, st⟩ := result
    have later := second a st
    refine ⟨first.grows.trans later.grows, fun clean => ?_⟩
    rw [first.settles clean]
    change _ = d.settle (k (a, st))
    cases found : d.rejected? st.warnings with
    | none =>
      rw [Disposition.settle_ok found]
      exact later.settles found
    | some warning =>
      -- The second walk has already ended, with what stays the first warning of the other.
      have still := Disposition.rejected?_of_prefix found later.grows
      rw [Disposition.settle_rejected still, Disposition.settle_rejected found]
      rfl

/-- A walk, and then something that reports nothing. -/
theorem Settled.andThen {x x' : Except Failure (α × State)}
    {k k' : α × State → Except Failure (β × State)} (first : Settled d reported x x')
    (second : ∀ a st, ∃ b last, k (a, st) = .ok (b, last) ∧
      k' (a, d.view st) = .ok (b, d.view last) ∧ last.warnings = st.warnings) :
    Settled d reported (x >>= k) (x' >>= k') := by
  refine first.bind fun a st => ?_
  obtain ⟨b, last, result, result', same⟩ := second a st
  rw [result, result', ← same]
  exact .done b last

/-- The same as `bind`, for a step that gives nothing but a state. -/
theorem Settled.bindState {x x' : Except Failure State} {k k' : State → Except Failure (β × State)}
    (first : Settled d reported (x.map fun st => ((), st)) (x'.map fun st => ((), st)))
    (second : ∀ st, Settled d st.warnings (k st) (k' (d.view st))) :
    Settled d reported (x >>= k) (x' >>= k') := by
  rw [bind_state, bind_state x']
  exact first.bind fun _ st => second st

end Settled

section Steps

variable {d : Disposition} {ctx : Context}

theorem aliasFor_view (st : State) (c : Computation) (value : Node) :
    (d.view st).aliasFor (ctx.disposing d) c value =
      ((st.aliasFor ctx c value).1, d.view (st.aliasFor ctx c value).2) := by
  have same : (d.view st).visibleAlias? (ctx.disposing d) c = st.visibleAlias? ctx c := rfl
  unfold State.aliasFor
  rw [same]
  cases st.visibleAlias? ctx c <;> rfl

theorem access_view (st : State) (span : Span) (name : String) :
    (d.view st).access (ctx.disposing d) span name =
      ((st.access ctx span name).1, d.view (st.access ctx span name).2) := by
  unfold State.access
  simp only [aliasFor_view]
  change (if name ∈ st.frame.assigned ∧ ctx.options.directAccess then _ else
    if st.evaluation.isUnconditional ∧ ctx.options.cachePlaceholders ∧ ctx.inFunction ∧
      name ∉ ctx.assignedAnywhere then _ else _) = _
  split
  · rfl
  · split <;> rfl

theorem cacheFilter_view (st : State) (span : Span) (operand : Node) (filter : Option String) :
    (d.view st).cacheFilter (ctx.disposing d) span operand filter =
      ((st.cacheFilter ctx span operand filter).1,
        d.view (st.cacheFilter ctx span operand filter).2) := by
  have same : (d.view st).aliasedOperand? (ctx.disposing d) operand =
      st.aliasedOperand? ctx operand := by
    cases operand <;> rfl
  unfold State.cacheFilter
  simp only [aliasFor_view, same]
  change (if ctx.options.keepsFilters ∧ st.evaluation.isUnconditional ∧ ctx.inFunction then _
    else _) = _
  split
  · cases st.aliasedOperand? ctx operand <;> rfl
  · rfl

theorem read_settled (st : State) (span : Span) (name : String) :
    Settled d st.warnings (st.read ctx span name)
      ((d.view st).read (ctx.disposing d) span name) := by
  by_cases unassigned : ctx.options.checkAssignments ∧ name ∉ st.frame.assigned ∧ name ∉ st.globals
  · have failed : st.read ctx span name = .error ⟨.unassigned name span, st.warnings⟩ :=
      if_pos unassigned
    have failed' : (d.view st).read (ctx.disposing d) span name =
        .error ⟨.unassigned name span, d.shown st.warnings⟩ := if_pos unassigned
    rw [failed, failed']
    exact .failed ⟨.unassigned name span, st.warnings⟩
  · cases made : st.access ctx span name with
    | mk access next =>
      let resolution : Resolution := ⟨st.evaluation.isUnconditional, access⟩
      let last : State := { next with reads := next.reads ++ [⟨name, span, resolution⟩] }
      have read : st.read ctx span name = .ok (resolution, last) := by
        unfold State.read
        rw [if_neg unassigned, made]
      have read' : (d.view st).read (ctx.disposing d) span name =
          .ok (resolution, d.view last) := by
        have unassigned' : ¬ ((ctx.disposing d).options.checkAssignments ∧
            name ∉ (d.view st).frame.assigned ∧ name ∉ (d.view st).globals) := unassigned
        unfold State.read
        rw [if_neg unassigned', access_view, made]
        rfl
      rw [read, read', ← (read_unrecorded read).2]
      exact .done resolution last

theorem warn_settled (heard : Heard ctx.options) (st : State) (warning : Warning) :
    Settled d st.warnings ((st.warn ctx warning).map fun next => ((), next))
      (((d.view st).warn (ctx.disposing d) warning).map fun next => ((), next)) := by
  have warned : st.warn ctx warning = .ok { st with warnings := st.warnings ++ [warning] } := by
    simp [State.warn, heard.lenient, heard.reporting]
  rw [warned]
  refine ⟨List.prefix_append _ _, fun clean => ?_⟩
  rcases d with ⟨reports, rejects⟩
  cases rejects with
  | true =>
    have none := Disposition.rejected?_eq_none.1 clean rfl
    simp [State.warn, Context.disposing, Options.disposing, Disposition.settle,
      Disposition.rejected?, Disposition.view, Except.map, raised, none]
  | false =>
    cases reports <;>
      simp [State.warn, Context.disposing, Options.disposing, Disposition.settle,
        Disposition.rejected?, Disposition.view, Disposition.shown, Except.map]

theorem recordFilter_settled (heard : Heard ctx.options) (st : State) (span : Span)
    (name : String) :
    Settled d st.warnings ((st.recordFilter ctx span name).map fun next => ((), next))
      (((d.view st).recordFilter (ctx.disposing d) span name).map fun next => ((), next)) := by
  cases recorded : st.ledger.filter name with
  | mk ledger use =>
    have recorded' : (d.view st).ledger.filter name = (ledger, use) := recorded
    unfold State.recordFilter
    rw [recorded, recorded']
    cases use with
    | stale previous epoch =>
      exact warn_settled heard { st with ledger } ⟨name, span, previous, epoch⟩
    | fresh | again => exact .done () { st with ledger }

theorem checkFilter_settled (heard : Heard ctx.options) (st : State) (span : Span)
    (operand : Node) :
    Settled d st.warnings ((st.checkFilter ctx span operand).map fun next => ((), next))
      (((d.view st).checkFilter (ctx.disposing d) span operand).map fun next => ((), next)) := by
  have same : State.filteredVariable? (ctx.disposing d) operand =
      State.filteredVariable? ctx operand := by
    cases operand <;> rfl
  have caching : (ctx.disposing d).options.cachePlaceholders = ctx.options.cachePlaceholders := rfl
  unfold State.checkFilter
  rw [same, caching]
  cases ctx.options.cachePlaceholders with
  | false => exact .done () st
  | true =>
    cases State.filteredVariable? ctx operand with
    | none => exact .done () st
    | some name => exact recordFilter_settled heard st span name

theorem read_unchecked {st : State} {span : Span} {name : String} {result : Resolution × State}
    (read : st.read ctx span name = .ok result) : st.read ctx.unchecked span name = .ok result := by
  unfold State.read at read ⊢
  split at read
  · cases read
  · exact read

end Steps

mutual

theorem walk_settled (d : Disposition) (ctx : Context) (heard : Heard ctx.options) (n : Node)
    (st : State) :
    Settled d st.warnings (walk ctx n st) (walk (ctx.disposing d) n (d.view st)) := by
  cases n with
  | template span name globals body =>
    rw [walk, walk]
    exact (walkTemplate_settled d ctx heard body { st with globals }).andThen
      fun _ _ => ⟨_, _, rfl, rfl, rfl⟩
  | function span name block =>
    obtain ⟨body, scope⟩ := block
    rw [walk, walk]
    exact (walkBlock_settled d (ctx.enterFunction ⟨body, scope⟩) heard body
      (st.enterFunction ⟨body, scope⟩)).andThen fun _ _ => ⟨_, _, rfl, rfl, rfl⟩
  | conditional span condition thenBranch elseBranch =>
    obtain ⟨thenBody, thenScope⟩ := thenBranch
    cases elseBranch with
    | none =>
      rw [walk, walk]
      refine (walk_settled d ctx heard condition st).bind fun condition' tested => ?_
      exact (walkBlock_settled d (ctx.enterBranch tested.frame.aliases) heard thenBody
        (tested.enterBranch thenScope)).andThen fun _ _ => ⟨_, _, rfl, rfl, rfl⟩
    | some block =>
      obtain ⟨elseBody, elseScope⟩ := block
      rw [walk, walk]
      refine (walk_settled d ctx heard condition st).bind fun condition' tested => ?_
      refine (walkBlock_settled d (ctx.enterBranch tested.frame.aliases) heard thenBody
        (tested.enterBranch thenScope)).bind fun thenBody' inThen => ?_
      exact (walkBlock_settled d (ctx.enterBranch tested.frame.aliases) heard elseBody
        ((tested.leaveBranch inThen).enterBranch elseScope)).andThen
          fun _ _ => ⟨_, _, rfl, rfl, rfl⟩
  | assign span target value =>
    rw [walk, walk]
    exact (walk_settled d ctx heard value st).andThen fun _ _ => ⟨_, _, rfl, rfl, rfl⟩
  | identifier span name => exact .done _ st
  | literal span value => exact .done _ st
  | placeholder span name resolution =>
    rw [walk, walk]
    exact (read_settled st span name).andThen fun _ _ => ⟨_, _, rfl, rfl, rfl⟩
  | binary span op left right =>
    rw [walk, walk]
    refine (walk_settled d ctx heard left st).bind fun left' middle => ?_
    exact (walk_settled d ctx heard right
      (middle.evaluating (st.evaluation.rightOperand op))).andThen fun _ _ => ⟨_, _, rfl, rfl, rfl⟩
  | filter span operand name cachedAs =>
    rw [walk, walk]
    refine (walk_settled d ctx heard operand st).bind fun operand' middle => ?_
    refine (checkFilter_settled heard middle span operand').bindState fun checked => ?_
    rw [cacheFilter_view]
    cases cache : checked.cacheFilter ctx span operand' name with
    | mk cached next =>
      rw [← (cacheFilter_unrecorded cache).2]
      exact .done _ next
  | call span callee arguments =>
    rw [walk, walk]
    refine (walk_settled d ctx heard callee st).bind fun callee' middle => ?_
    exact (walkEach_settled d ctx heard arguments middle).andThen fun _ _ => ⟨_, _, rfl, rfl, rfl⟩
  | list span items =>
    rw [walk, walk]
    exact (walkEach_settled d ctx heard items st).andThen fun _ _ => ⟨_, _, rfl, rfl, rfl⟩
  | write span operand =>
    rw [walk, walk]
    exact (walk_settled d ctx heard operand st).andThen fun _ _ => ⟨_, _, rfl, rfl, rfl⟩
termination_by structural n

theorem walkEach_settled (d : Disposition) (ctx : Context) (heard : Heard ctx.options)
    (es : List Node) (st : State) :
    Settled d st.warnings (walkEach ctx es st) (walkEach (ctx.disposing d) es (d.view st)) := by
  cases es with
  | nil => exact .done _ st
  | cons e rest =>
    rw [walkEach, walkEach]
    refine (walk_settled d ctx heard e st).bind fun e' middle => ?_
    exact (walkEach_settled d ctx heard rest middle).andThen fun _ _ => ⟨_, _, rfl, rfl, rfl⟩
termination_by structural es

theorem walkTemplate_settled (d : Disposition) (ctx : Context) (heard : Heard ctx.options)
    (body : List Node) (st : State) :
    Settled d st.warnings (walkTemplate ctx body st)
      (walkTemplate (ctx.disposing d) body (d.view st)) := by
  cases body with
  | nil => exact .done _ st
  | cons n rest =>
    rw [walkTemplate, walkTemplate]
    refine (walk_settled d ctx heard n st.beginStatement).bind fun n' middle => ?_
    exact (walkTemplate_settled d ctx heard rest middle).andThen fun _ _ => ⟨_, _, rfl, rfl, rfl⟩
termination_by structural body

/-- However its warnings are disposed of, a walk goes the way of one that reports them all. -/
theorem walkBlock_settled (d : Disposition) (ctx : Context) (heard : Heard ctx.options)
    (body : List Node) (st : State) :
    Settled d st.warnings (walkBlock ctx body st)
      (walkBlock (ctx.disposing d) body (d.view st)) := by
  cases body with
  | nil => exact .done _ st
  | cons n rest =>
    rw [walkBlock, walkBlock]
    refine (walk_settled d ctx heard n st.beginStatement).bind fun n' middle => ?_
    exact (walkBlock_settled d ctx heard rest middle.endStatement).andThen
      fun _ _ => ⟨_, _, rfl, rfl, rfl⟩
termination_by structural body

end

mutual

theorem walk_unchecked (ctx : Context) (n : Node) {st next : State} {n' : Node}
    (h : walk ctx n st = .ok (n', next)) : walk ctx.unchecked n st = .ok (n', next) := by
  cases n with
  | template span name globals body =>
    obtain ⟨body', inside, rfl⟩ := walk_template_iff.1 h
    exact walk_template_iff.2 ⟨_, walkTemplate_unchecked ctx body inside, rfl⟩
  | function span name block =>
    obtain ⟨body, scope⟩ := block
    obtain ⟨walked, inner, inside, rfl, rfl⟩ := walk_function_iff.1 h
    exact walk_function_iff.2
      ⟨_, _, walkBlock_unchecked (ctx.enterFunction ⟨body, scope⟩) body inside, rfl, rfl⟩
  | conditional span condition thenBranch elseBranch =>
    obtain ⟨thenBody, thenScope⟩ := thenBranch
    cases elseBranch with
    | none =>
      obtain ⟨condition', tested, thenBody', inThen, test, thenSide, rfl, rfl⟩ :=
        walk_branch_iff.1 h
      exact walk_branch_iff.2 ⟨_, _, _, _, walk_unchecked ctx condition test,
        walkBlock_unchecked (ctx.enterBranch tested.frame.aliases) thenBody thenSide, rfl, rfl⟩
    | some block =>
      obtain ⟨elseBody, elseScope⟩ := block
      obtain ⟨condition', tested, thenBody', inThen, elseBody', inElse, test, thenSide, elseSide,
        rfl, rfl⟩ := walk_branches_iff.1 h
      exact walk_branches_iff.2 ⟨_, _, _, _, _, _, walk_unchecked ctx condition test,
        walkBlock_unchecked (ctx.enterBranch tested.frame.aliases) thenBody thenSide,
        walkBlock_unchecked (ctx.enterBranch tested.frame.aliases) elseBody elseSide, rfl, rfl⟩
  | assign span target value =>
    obtain ⟨value', last, inner, rfl, rfl⟩ := walk_assign_iff.1 h
    exact walk_assign_iff.2 ⟨_, _, walk_unchecked ctx value inner, rfl, rfl⟩
  | identifier span name => exact h
  | literal span value => exact h
  | placeholder span name resolution =>
    obtain ⟨noted, read, rfl⟩ := walk_placeholder_iff.1 h
    exact walk_placeholder_iff.2 ⟨_, read_unchecked read, rfl⟩
  | binary span op left right =>
    obtain ⟨left', middle, right', last, first, second, rfl, rfl⟩ := walk_binary_iff.1 h
    exact walk_binary_iff.2 ⟨_, _, _, _, walk_unchecked ctx left first,
      walk_unchecked ctx right second, rfl, rfl⟩
  | filter span operand name cachedAs =>
    obtain ⟨operand', middle, checked, cached, inner, check, cache, rfl⟩ := walk_filter_iff.1 h
    exact walk_filter_iff.2
      ⟨_, _, checked, cached, walk_unchecked ctx operand inner, check, cache, rfl⟩
  | call span callee arguments =>
    obtain ⟨callee', middle, arguments', first, second, rfl⟩ := walk_call_iff.1 h
    exact walk_call_iff.2 ⟨_, _, _, walk_unchecked ctx callee first,
      walkEach_unchecked ctx arguments second, rfl⟩
  | list span items =>
    obtain ⟨items', inner, rfl⟩ := walk_list_iff.1 h
    exact walk_list_iff.2 ⟨_, walkEach_unchecked ctx items inner, rfl⟩
  | write span operand =>
    obtain ⟨operand', inner, rfl⟩ := walk_write_iff.1 h
    exact walk_write_iff.2 ⟨_, walk_unchecked ctx operand inner, rfl⟩
termination_by structural n

theorem walkEach_unchecked (ctx : Context) (es : List Node) {st last : State} {es' : List Node}
    (h : walkEach ctx es st = .ok (es', last)) :
    walkEach ctx.unchecked es st = .ok (es', last) := by
  cases es with
  | nil => exact h
  | cons e rest =>
    obtain ⟨e', middle, rest', first, later, rfl⟩ := walkEach_cons_iff.1 h
    exact walkEach_cons_iff.2 ⟨_, _, _, walk_unchecked ctx e first,
      walkEach_unchecked ctx rest later, rfl⟩
termination_by structural es

theorem walkTemplate_unchecked (ctx : Context) (body : List Node) {st last : State}
    {out : List Node} (h : walkTemplate ctx body st = .ok (out, last)) :
    walkTemplate ctx.unchecked body st = .ok (out, last) := by
  cases body with
  | nil => exact h
  | cons n rest =>
    obtain ⟨n', middle, rest', first, later, rfl⟩ := walkTemplate_cons_iff.1 h
    exact walkTemplate_cons_iff.2 ⟨_, _, _, walk_unchecked ctx n first,
      walkTemplate_unchecked ctx rest later, rfl⟩
termination_by structural body

/-- A walk that passes the check of assignments goes the same way without it. -/
theorem walkBlock_unchecked (ctx : Context) (body : List Node) {st last : State} {out : List Node}
    (h : walkBlock ctx body st = .ok (out, last)) :
    walkBlock ctx.unchecked body st = .ok (out, last) := by
  cases body with
  | nil => exact h
  | cons n rest =>
    obtain ⟨n', middle, rest', first, later, rfl⟩ := walkBlock_cons_iff.1 h
    exact walkBlock_cons_iff.2 ⟨_, _, _, walk_unchecked ctx n first,
      walkBlock_unchecked ctx rest later, rfl⟩
termination_by structural body

end

end Analysis

open Analysis

/-- What an analysis comes to for its caller: the tree with its report, or the cause of the failure.
-/
def Node.verdict (options : Options) (root : Node) : Except AnalysisError Analysis :=
  (root.analyze options).mapError Failure.cause

/-- The verdict of an analysis with another disposition, from one that reports every warning. -/
theorem verdict_disposing (options : Options) (root : Node) (d : Disposition) :
    root.verdict (options.disposing d) =
      match root.analyze (options.disposing ⟨true, false⟩) with
      | .ok a =>
        match d.rejected? a.warnings with
        | some warning => .error (.rejected warning)
        | none => .ok { a with warnings := d.shown a.warnings }
      | .error failure =>
        .error (((d.rejected? failure.warnings).map .rejected).getD failure.cause) := by
  have settled := walk_settled d (.top (options.disposing ⟨true, false⟩)) ⟨rfl, rfl⟩ root .start
  have started : d.view .start = .start := by
    rw [Disposition.view, State.start, Disposition.shown_nil]
  rw [started] at settled
  have settles : walk (.top (options.disposing d)) root .start = d.settle _ :=
    settled.settles (Disposition.rejected?_eq_none.2 fun _ => rfl)
  unfold Node.verdict Node.analyze
  rw [settles]
  generalize walk (.top (options.disposing ⟨true, false⟩)) root .start = outcome
  match outcome with
  | .ok (tree, st) =>
    change _ = match d.rejected? st.warnings with | some warning => _ | none => _
    cases found : d.rejected? st.warnings with
    | none => rw [Disposition.settle_ok found]; rfl
    | some warning => rw [Disposition.settle_rejected found]; rfl
  | .error failure =>
    change _ = Except.error
      (((d.rejected? failure.warnings).map AnalysisError.rejected).getD failure.cause)
    cases found : d.rejected? failure.warnings with
    | none => rw [Disposition.settle_error found]; rfl
    | some warning => rw [Disposition.settle_rejected found]; rfl

theorem analyze_unchecked {options : Options} {root : Node} {a : Analysis}
    (analyzed : root.analyze { options with checkAssignments := true } = .ok a) :
    root.analyze { options with checkAssignments := false } = .ok a := by
  unfold Node.analyze at analyzed ⊢
  obtain ⟨⟨tree, last⟩, walked, found⟩ := bind_eq_ok.1 analyzed
  exact bind_eq_ok.2
    ⟨_, walk_unchecked (.top { options with checkAssignments := true }) root walked, found⟩

/-- Whatever the options, and however the analysis ends, the checking options only check. Let the
warnings be reported and not end the analysis. If they are not reported, the outcome is the same but
for them. If they end the analysis, it fails with the first that there is, and else has the same
outcome. And a tree that passes the check of assignments is analysed the same without it. -/
theorem checks_only_check (options : Options) (root : Node) :
    (match root.analyze { options with reportWarnings := true, rejectWarnings := false } with
      | .ok a =>
        root.verdict { options with reportWarnings := false, rejectWarnings := false } =
          .ok { a with warnings := [] } ∧
        ∀ reports, root.verdict { options with reportWarnings := reports, rejectWarnings := true } =
          match a.warnings with
          | [] => .ok a
          | warning :: _ => .error (.rejected warning)
      | .error failure =>
        (∃ name span, failure.cause = .unassigned name span) ∧
        root.verdict { options with reportWarnings := false, rejectWarnings := false } =
          .error failure.cause ∧
        ∀ reports, root.verdict { options with reportWarnings := reports, rejectWarnings := true } =
          match failure.warnings with
          | [] => .error failure.cause
          | warning :: _ => .error (.rejected warning)) ∧
    ∀ a, root.analyze { options with checkAssignments := true } = .ok a →
      root.analyze { options with checkAssignments := false } = .ok a := by
  refine ⟨?_, fun a analyzed => analyze_unchecked analyzed⟩
  have verdict (reports rejects : Bool) := verdict_disposing options root ⟨reports, rejects⟩
  unfold Options.disposing at verdict
  simp only at verdict
  have heard : Heard { options with reportWarnings := true, rejectWarnings := false } := ⟨rfl, rfl⟩
  cases analyzed :
    root.analyze { options with reportWarnings := true, rejectWarnings := false } with
  | ok a =>
    simp only [analyzed] at verdict
    refine ⟨verdict false false, fun reports => ?_⟩
    rw [verdict reports true]
    rcases a with ⟨tree, warnings, reads⟩
    cases warnings with
    | nil => simp [Disposition.rejected?]
    | cons warning rest => rfl
  | error failure =>
    simp only [analyzed] at verdict
    refine ⟨?_, verdict false false, fun reports => ?_⟩
    · rcases analyze_passes heard root with ⟨a, succeeded, -⟩ | ⟨passed, name, span, -, failed⟩
      · rw [analyzed] at succeeded
        cases succeeded
      · rw [analyzed] at failed
        cases failed
        exact ⟨name, span, rfl⟩
    · rw [verdict reports true]
      cases failure.warnings <;> rfl

/-- A page that is given the variable that its function filters and assigns. -/
def restlessPage : Node :=
  .template .generated "page" (.ofList ["line"]) [.function .generated "restless" restless]

/-- The page passes the check of assignments, with a warning. -/
theorem restlessPage_checked :
    ∃ a, restlessPage.analyze { Options.warning with checkAssignments := true } = .ok a ∧
      a.warnings = [⟨"line", ⟨0, 0, 4, 1⟩, 0, 1⟩] ∧
      restlessPage.analyze { Options.warning with checkAssignments := false } = .ok a ∧
      restlessPage.verdict { Options.warning with reportWarnings := false } =
        .ok { a with warnings := [] } ∧
      restlessPage.verdict { Options.warning with rejectWarnings := true } =
        .error (.rejected ⟨"line", ⟨0, 0, 4, 1⟩, 0, 1⟩) := by
  obtain ⟨disposed, unchecked⟩ := checks_only_check .warning restlessPage
  exact ⟨_, rfl, rfl, unchecked _ rfl, disposed.1, disposed.2 true⟩

end Stencil
