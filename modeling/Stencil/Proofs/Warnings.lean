import Stencil.Proofs.StaleFilters

/-!
# The warnings of an analysis, and who hears of them

An analysis passes over the assignments, the filters and the placeholders of a tree in document
order, with a ledger for each function. It raises a warning at every filter at which the ledger of
the function finds a stale value, and it stops at the first placeholder that fails the check of
assignments. So what it has raised, when it ends and when it fails, is what a ledger gives for the
events that it has met.

* `Analysis.walk_passes`: a walk of any tree has met all its events, or those in front of the
  placeholder at which it fails, and has raised their warnings.
* `optimize_hands_over`: the warnings are handed over when the analysis succeeds. When it fails, the
  error is handed over alone.
-/

namespace Stencil

namespace Analysis

/-- What an analysis meets on its way. -/
inductive Event where
  /-- A variable is assigned or filtered. -/
  | step (step : CacheStep)
  /-- A placeholder is read. -/
  | read (name : String) (span : Span)
  /-- A function begins. -/
  | enter
  /-- A function ends. -/
  | leave
deriving DecidableEq, Repr

/-- The steps of a tree, where they are watched at all. -/
def Event.watched (caching : Bool) (steps : List CacheStep) : List Event :=
  if caching then steps.map .step else []

/-- The ledger of the function that is being walked, and those of the code around it, the nearest
first. -/
@[ext]
structure Watch where
  ledger : FilterLedger String
  outer : List (FilterLedger String)

namespace Watch

/-- Where nothing has been met. -/
def start : Watch := ⟨∅, []⟩

/-- Meets an event, which can raise a warning. A function has a ledger of its own. -/
def meet (watch : Watch) : Event → Watch × Option Warning
  | .step step => (⟨(watch.ledger.step step).1, watch.outer⟩, (watch.ledger.step step).2)
  | .read .. => (watch, none)
  | .enter => (⟨∅, watch.ledger :: watch.outer⟩, none)
  | .leave => (⟨watch.outer.headD watch.ledger, watch.outer.tail⟩, none)

/-- The ledgers behind some events. -/
def after (watch : Watch) (events : List Event) : Watch :=
  events.foldl (fun watch event => (watch.meet event).1) watch

/-- The warnings that some events raise, in order. -/
def raised (watch : Watch) : List Event → List Warning
  | [] => []
  | event :: rest => (watch.meet event).2.toList ++ (watch.meet event).1.raised rest

theorem after_append (watch : Watch) (first second : List Event) :
    watch.after (first ++ second) = (watch.after first).after second :=
  List.foldl_append

theorem raised_append (watch : Watch) (first second : List Event) :
    watch.raised (first ++ second) = watch.raised first ++ (watch.after first).raised second := by
  induction first generalizing watch with
  | nil => rfl
  | cons event rest ih =>
    rw [List.cons_append, raised, raised, ih, List.append_assoc]
    rfl

end Watch

end Analysis

namespace Node

open Analysis

mutual

/-- The events of a node in document order. The given variables are those that the function around
it assigns anywhere. -/
def events (caching : Bool) (assigned : List String) : Node → List Event
  | .template _ _ _ body => eventsOf caching assigned body
  | .function _ _ ⟨body, _⟩ => .enter :: (eventsOf caching (assignmentsOf body) body ++ [.leave])
  | .conditional _ condition ⟨thenBody, _⟩ none =>
    condition.events caching assigned ++ eventsOf caching assigned thenBody
  | .conditional _ condition ⟨thenBody, _⟩ (some ⟨elseBody, _⟩) =>
    condition.events caching assigned ++
      (eventsOf caching assigned thenBody ++ eventsOf caching assigned elseBody)
  | .assign _ target value =>
    value.events caching assigned ++ Event.watched caching [.assign target]
  | .identifier .. | .literal .. => []
  | .placeholder span name _ => [.read name span]
  | .binary _ _ left right => left.events caching assigned ++ right.events caching assigned
  | .filter span operand _ _ =>
    operand.events caching assigned ++ Event.watched caching (operand.filterStep assigned span)
  | .call _ callee arguments =>
    callee.events caching assigned ++ eventsOf caching assigned arguments
  | .list _ items => eventsOf caching assigned items
  | .write _ operand => operand.events caching assigned
termination_by structural n => n

/-- The events of a list of nodes in document order. -/
def eventsOf (caching : Bool) (assigned : List String) : List Node → List Event
  | [] => []
  | n :: rest => n.events caching assigned ++ eventsOf caching assigned rest
termination_by structural ns => ns

end

end Node

namespace Analysis

/-- The options under which every warning is reported, and none ends the analysis. -/
structure Heard (options : Options) : Prop where
  reporting : options.reportWarnings = true
  lenient : options.rejectWarnings = false

/-- A walk over some events, from a ledger and the warnings reported so far: it has met all of them,
or has failed at a placeholder among them and met those in front of it. What they raise is reported.
-/
inductive Passes (outer : List (FilterLedger String)) (events : List Event)
    (ledger : FilterLedger String) (reported : List Warning) {α : Type} :
    Except Failure (α × State) → Prop
  | whole {a : α} {next : State}
      (behind : (Watch.mk ledger outer).after events = ⟨next.ledger, outer⟩)
      (warnings : next.warnings = reported ++ (Watch.mk ledger outer).raised events) :
      Passes outer events ledger reported (.ok (a, next))
  | cut {name : String} {span : Span} {warnings : List Warning} (passed : List Event)
      (stops : passed ++ [.read name span] <+: events)
      (before : warnings = reported ++ (Watch.mk ledger outer).raised passed) :
      Passes outer events ledger reported (.error ⟨.unassigned name span, warnings⟩)

/-- A step that gives nothing but a state, as one that also gives a value. -/
theorem bind_state {β : Type} (x : Except Failure State) (k : State → Except Failure (β × State)) :
    x >>= k = (x.map fun next => ((), next)) >>= fun p => k p.2 := by
  cases x <;> rfl

section Passes

variable {outer : List (FilterLedger String)} {events events' : List Event}
  {ledger : FilterLedger String} {reported : List Warning} {α β : Type}

theorem Passes.nil (a : α) (next : State) :
    Passes outer [] next.ledger next.warnings (.ok (a, next)) :=
  .whole rfl (List.append_nil _).symm

/-- One walk after another. -/
theorem Passes.bind {x : Except Failure (α × State)}
    {k : α × State → Except Failure (β × State)} (first : Passes outer events ledger reported x)
    (second : ∀ a next, x = .ok (a, next) →
      Passes outer events' next.ledger next.warnings (k (a, next))) :
    Passes outer (events ++ events') ledger reported (x >>= k) := by
  cases first with
  | @whole a next behind warnings =>
    have later := second a next rfl
    change Passes outer _ ledger reported (k (a, next))
    generalize k (a, next) = result at later
    cases later with
    | whole behind' warnings' =>
      refine .whole ?_ ?_
      · rw [Watch.after_append, behind, behind']
      · rw [Watch.raised_append, behind, warnings', warnings, List.append_assoc]
    | cut passed stops before =>
      refine .cut (events ++ passed) ?_ ?_
      · rw [List.append_assoc]
        exact (List.prefix_append_right_inj events).2 stops
      · rw [Watch.raised_append, behind, before, warnings, List.append_assoc]
  | cut passed stops before => exact .cut passed (stops.trans (List.prefix_append _ _)) before

/-- A walk, and then something that meets nothing. -/
theorem Passes.andThen {x : Except Failure (α × State)}
    {k : α × State → Except Failure (β × State)} (first : Passes outer events ledger reported x)
    (second : ∀ a next, ∃ b last, k (a, next) = .ok (b, last) ∧ last.ledger = next.ledger ∧
      last.warnings = next.warnings) :
    Passes outer events ledger reported (x >>= k) := by
  rw [← List.append_nil events]
  refine first.bind fun a next _ => ?_
  obtain ⟨b, last, result, ledger, warnings⟩ := second a next
  rw [result, ← ledger, ← warnings]
  exact .nil b last

/-- The same as `bind`, for a step that gives nothing but a state. -/
theorem Passes.bindState {x : Except Failure State} {k : State → Except Failure (β × State)}
    (first : Passes outer events ledger reported (x.map fun next => ((), next)))
    (second : ∀ next, x = .ok next → Passes outer events' next.ledger next.warnings (k next)) :
    Passes outer (events ++ events') ledger reported (x >>= k) := by
  rw [bind_state]
  refine first.bind fun _ next found => second next ?_
  cases x with
  | error => cases found
  | ok => cases found; rfl

/-- A function is walked with a ledger of its own, and leaves that of the code around it as it was.
-/
theorem Passes.function {x : Except Failure (α × State)}
    {k : α × State → Except Failure (β × State)}
    (inside : Passes (ledger :: outer) events ∅ reported x)
    (left : ∀ a inner, ∃ b next, k (a, inner) = .ok (b, next) ∧ next.ledger = ledger ∧
      next.warnings = inner.warnings) :
    Passes outer (.enter :: (events ++ [.leave])) ledger reported (x >>= k) := by
  cases inside with
  | @whole a inner behind warnings =>
    obtain ⟨b, next, result, same, same'⟩ := left a inner
    change Passes outer _ ledger reported (k (a, inner))
    rw [result]
    refine .whole ?_ ?_
    · change (Watch.mk ∅ (ledger :: outer)).after (events ++ [.leave]) = _
      rw [Watch.after_append, behind, same]
      rfl
    · change _ = reported ++ (Watch.mk ∅ (ledger :: outer)).raised (events ++ [.leave])
      rw [Watch.raised_append, same', warnings]
      exact (congrArg _ (List.append_nil _)).symm
  | cut passed stops before =>
    refine .cut (.enter :: passed) ?_ before
    exact List.cons_prefix_cons.2 ⟨rfl, stops.trans (List.prefix_append _ _)⟩

end Passes

section Steps

variable {ctx : Context} {outer : List (FilterLedger String)}

theorem read_passes (st : State) (span : Span) (name : String) :
    Passes outer [.read name span] st.ledger st.warnings (st.read ctx span name) := by
  cases read : st.read ctx span name with
  | ok result =>
    obtain ⟨resolution, next⟩ := result
    obtain ⟨ledger, warnings⟩ := read_unrecorded read
    exact .whole (by rw [ledger]; rfl) (warnings.trans (List.append_nil _).symm)
  | error failure =>
    unfold State.read at read
    split at read
    · cases read
      exact .cut [] (List.prefix_refl _) (List.append_nil _).symm
    · cases read

theorem assign_passes {α : Type} (st : State) (a : α) (target : String) :
    Passes outer (Event.watched ctx.options.cachePlaceholders [.assign target]) st.ledger
      st.warnings (.ok (a, st.assign ctx target)) := by
  unfold Event.watched
  cases caching : ctx.options.cachePlaceholders with
  | false =>
    refine .whole ?_ (List.append_nil _).symm
    simp [State.assign, caching, Watch.after]
  | true =>
    refine .whole ?_ (List.append_nil _).symm
    simp [State.assign, caching, Watch.after, Watch.meet, FilterLedger.step]

theorem recordFilter_passes (heard : Heard ctx.options) (st : State) (span : Span) (name : String) :
    Passes outer [.step (.filter name span)] st.ledger st.warnings
      ((st.recordFilter ctx span name).map fun next => ((), next)) := by
  unfold State.recordFilter
  simp only
  cases use : (st.ledger.filter name).2 with
  | stale previous epoch =>
    simp only [State.warn, heard.lenient, heard.reporting, Bool.false_eq_true, if_false, if_true]
    refine .whole rfl ?_
    simp [Watch.raised, Watch.meet, FilterLedger.step, use, FilterUse.warning?]
  | fresh | again =>
    refine .whole rfl ?_
    simp [Watch.raised, Watch.meet, FilterLedger.step, use, FilterUse.warning?]

theorem checkFilter_passes (heard : Heard ctx.options) (st : State) (span : Span) (operand : Node) :
    Passes outer
      (Event.watched ctx.options.cachePlaceholders (operand.filterStep ctx.assignedAnywhere span))
      st.ledger st.warnings ((st.checkFilter ctx span operand).map fun next => ((), next)) := by
  unfold State.checkFilter Event.watched Node.filterStep
  rw [filteredVariable?_eq]
  cases ctx.options.cachePlaceholders with
  | false => exact .nil () st
  | true =>
    cases operand.variableOf? ctx.assignedAnywhere with
    | none => exact .nil () st
    | some name => exact recordFilter_passes heard st span name

theorem cacheFilter_passes {α : Type} (st : State) (span : Span) (operand : Node)
    (filter : Option String) (result : Option String → α) :
    Passes outer [] st.ledger st.warnings
      (.ok (result (st.cacheFilter ctx span operand filter).1,
        (st.cacheFilter ctx span operand filter).2)) := by
  cases cache : st.cacheFilter ctx span operand filter with
  | mk cached next =>
    obtain ⟨ledger, warnings⟩ := cacheFilter_unrecorded cache
    rw [← ledger, ← warnings]
    exact .nil _ next

/-- What is noted on an operand does not change the variable it stands for, whatever the operand. -/
theorem walk_variableOf? {e e' : Node} {st next : State} (h : walk ctx e st = .ok (e', next))
    (assigned : List String) : e'.variableOf? assigned = e.variableOf? assigned := by
  cases e with
  | template span name globals body =>
    obtain ⟨_, -, rfl⟩ := walk_template_iff.1 h
    rfl
  | function span name block =>
    obtain ⟨body, scope⟩ := block
    obtain ⟨_, _, -, rfl, -⟩ := walk_function_iff.1 h
    rfl
  | conditional span condition thenBranch elseBranch =>
    obtain ⟨thenBody, thenScope⟩ := thenBranch
    cases elseBranch with
    | none =>
      obtain ⟨_, _, _, _, -, -, rfl, -⟩ := walk_branch_iff.1 h
      rfl
    | some block =>
      obtain ⟨elseBody, elseScope⟩ := block
      obtain ⟨_, _, _, _, _, _, -, -, -, rfl, -⟩ := walk_branches_iff.1 h
      rfl
  | assign span target value =>
    obtain ⟨_, _, -, rfl, -⟩ := walk_assign_iff.1 h
    rfl
  | identifier | literal => cases h; rfl
  | placeholder span name resolution =>
    obtain ⟨_, -, rfl⟩ := walk_placeholder_iff.1 h
    rfl
  | binary span op left right =>
    obtain ⟨_, _, _, _, -, -, rfl, -⟩ := walk_binary_iff.1 h
    rfl
  | filter span operand name cachedAs =>
    obtain ⟨_, _, _, _, -, -, -, rfl⟩ := walk_filter_iff.1 h
    rfl
  | call span callee arguments =>
    obtain ⟨_, _, _, -, -, rfl⟩ := walk_call_iff.1 h
    rfl
  | list span items =>
    obtain ⟨_, -, rfl⟩ := walk_list_iff.1 h
    rfl
  | write span operand =>
    obtain ⟨_, -, rfl⟩ := walk_write_iff.1 h
    rfl

end Steps

mutual

theorem walk_passes (ctx : Context) (heard : Heard ctx.options)
    (outer : List (FilterLedger String)) (n : Node) (st : State) :
    Passes outer (n.events ctx.options.cachePlaceholders ctx.assignedAnywhere) st.ledger st.warnings
      (walk ctx n st) := by
  cases n with
  | template span name globals body =>
    rw [walk, Node.events]
    exact (walkTemplate_passes ctx heard outer body { st with globals }).andThen
      fun _ _ => ⟨_, _, rfl, rfl, rfl⟩
  | function span name block =>
    obtain ⟨body, scope⟩ := block
    rw [walk, Node.events]
    exact Passes.function (walkBlock_passes (ctx.enterFunction ⟨body, scope⟩) heard _ body
      (st.enterFunction ⟨body, scope⟩)) fun _ _ => ⟨_, _, rfl, rfl, rfl⟩
  | conditional span condition thenBranch elseBranch =>
    obtain ⟨thenBody, thenScope⟩ := thenBranch
    cases elseBranch with
    | none =>
      rw [walk, Node.events]
      refine (walk_passes ctx heard outer condition st).bind fun condition' tested _ => ?_
      exact (walkBlock_passes (ctx.enterBranch tested.frame.aliases) heard outer thenBody
        (tested.enterBranch thenScope)).andThen fun _ _ => ⟨_, _, rfl, rfl, rfl⟩
    | some block =>
      obtain ⟨elseBody, elseScope⟩ := block
      rw [walk, Node.events]
      refine (walk_passes ctx heard outer condition st).bind fun condition' tested _ => ?_
      refine (walkBlock_passes (ctx.enterBranch tested.frame.aliases) heard outer thenBody
        (tested.enterBranch thenScope)).bind fun thenBody' inThen _ => ?_
      exact (walkBlock_passes (ctx.enterBranch tested.frame.aliases) heard outer elseBody
        ((tested.leaveBranch inThen).enterBranch elseScope)).andThen
          fun _ _ => ⟨_, _, rfl, rfl, rfl⟩
  | assign span target value =>
    rw [walk, Node.events]
    exact (walk_passes ctx heard outer value st).bind fun value' next _ =>
      assign_passes next (Node.assign span target value') target
  | identifier span name => exact .nil _ st
  | literal span value => exact .nil _ st
  | placeholder span name resolution =>
    rw [walk, Node.events]
    exact (read_passes st span name).andThen fun _ _ => ⟨_, _, rfl, rfl, rfl⟩
  | binary span op left right =>
    rw [walk, Node.events]
    refine (walk_passes ctx heard outer left st).bind fun left' middle _ => ?_
    exact (walk_passes ctx heard outer right
      (middle.evaluating (st.evaluation.rightOperand op))).andThen fun _ _ => ⟨_, _, rfl, rfl, rfl⟩
  | filter span operand name cachedAs =>
    rw [walk, Node.events]
    refine (walk_passes ctx heard outer operand st).bind fun operand' middle found => ?_
    rw [← List.append_nil (Event.watched _ _), Node.filterStep, ← walk_variableOf? found]
    refine (checkFilter_passes heard middle span operand').bindState fun checked _ => ?_
    exact cacheFilter_passes checked span operand' name
      fun cached => Node.filter span operand' name (cached.or cachedAs)
  | call span callee arguments =>
    rw [walk, Node.events]
    refine (walk_passes ctx heard outer callee st).bind fun callee' middle _ => ?_
    exact (walkEach_passes ctx heard outer arguments middle).andThen
      fun _ _ => ⟨_, _, rfl, rfl, rfl⟩
  | list span items =>
    rw [walk, Node.events]
    exact (walkEach_passes ctx heard outer items st).andThen fun _ _ => ⟨_, _, rfl, rfl, rfl⟩
  | write span operand =>
    rw [walk, Node.events]
    exact (walk_passes ctx heard outer operand st).andThen fun _ _ => ⟨_, _, rfl, rfl, rfl⟩
termination_by structural n

theorem walkEach_passes (ctx : Context) (heard : Heard ctx.options)
    (outer : List (FilterLedger String)) (es : List Node) (st : State) :
    Passes outer (Node.eventsOf ctx.options.cachePlaceholders ctx.assignedAnywhere es) st.ledger
      st.warnings (walkEach ctx es st) := by
  cases es with
  | nil => exact .nil _ st
  | cons e rest =>
    rw [walkEach, Node.eventsOf]
    refine (walk_passes ctx heard outer e st).bind fun e' middle _ => ?_
    exact (walkEach_passes ctx heard outer rest middle).andThen fun _ _ => ⟨_, _, rfl, rfl, rfl⟩
termination_by structural es

theorem walkTemplate_passes (ctx : Context) (heard : Heard ctx.options)
    (outer : List (FilterLedger String)) (body : List Node) (st : State) :
    Passes outer (Node.eventsOf ctx.options.cachePlaceholders ctx.assignedAnywhere body) st.ledger
      st.warnings (walkTemplate ctx body st) := by
  cases body with
  | nil => exact .nil _ st
  | cons n rest =>
    rw [walkTemplate, Node.eventsOf]
    refine (walk_passes ctx heard outer n st.beginStatement).bind fun n' middle _ => ?_
    exact (walkTemplate_passes ctx heard outer rest middle).andThen fun _ _ => ⟨_, _, rfl, rfl, rfl⟩
termination_by structural body

/-- A walk has met the events of the tree, or those in front of the placeholder at which it fails.
-/
theorem walkBlock_passes (ctx : Context) (heard : Heard ctx.options)
    (outer : List (FilterLedger String)) (body : List Node) (st : State) :
    Passes outer (Node.eventsOf ctx.options.cachePlaceholders ctx.assignedAnywhere body) st.ledger
      st.warnings (walkBlock ctx body st) := by
  cases body with
  | nil => exact .nil _ st
  | cons n rest =>
    rw [walkBlock, Node.eventsOf]
    refine (walk_passes ctx heard outer n st.beginStatement).bind fun n' middle _ => ?_
    exact (walkBlock_passes ctx heard outer rest middle.endStatement).andThen
      fun _ _ => ⟨_, _, rfl, rfl, rfl⟩
termination_by structural body

end

/-- A whole analysis. Outside functions, too, it has a ledger. -/
theorem analyze_passes {options : Options} (heard : Heard options) (root : Node) :
    (∃ analysis, root.analyze options = .ok analysis ∧
      analysis.warnings = Watch.start.raised (root.events options.cachePlaceholders [])) ∨
    ∃ passed name span, passed ++ [.read name span] <+: root.events options.cachePlaceholders [] ∧
      root.analyze options = .error ⟨.unassigned name span, Watch.start.raised passed⟩ := by
  have passes := walk_passes (.top options) heard [] root .start
  unfold Node.analyze
  generalize walk (.top options) root .start = result at passes
  cases passes with
  | whole behind warnings => exact .inl ⟨_, rfl, warnings⟩
  | cut passed stops before => exact .inr ⟨passed, _, _, stops, by rw [before]; rfl⟩

end Analysis

open Analysis

/-- Where warnings are reported and accepted, an analysis raises those of the events that it meets:
all events of the tree if it succeeds, and else those in front of a placeholder that fails the check
of assignments. If it succeeds, a diagnostic is handed over for each warning, in order. If it fails,
only that of the failure is handed over, so nothing is missed if and only if nothing was raised
before. -/
theorem optimize_hands_over (options : Options) (root : Node)
    (reporting : options.reportWarnings = true) (lenient : options.rejectWarnings = false) :
    ∃ passed, match root.optimize options with
      | .ok o =>
        passed = root.events options.cachePlaceholders [] ∧
        o.diagnostics = (Watch.start.raised passed).map Warning.diagnostic
      | .error failure =>
        (∃ name span, failure.cause = .unassigned name span ∧
          passed ++ [.read name span] <+: root.events options.cachePlaceholders []) ∧
        failure.warnings = Watch.start.raised passed ∧
        failure.diagnostics = [failure.cause.diagnostic] ∧
        (failure.diagnostics =
            (Watch.start.raised passed).map Warning.diagnostic ++ [failure.cause.diagnostic] ↔
          Watch.start.raised passed = []) := by
  unfold Node.optimize
  rcases analyze_passes ⟨reporting, lenient⟩ root with
    ⟨analysis, analyzed, warnings⟩ | ⟨passed, name, span, stops, failed⟩
  · rw [analyzed]
    exact ⟨root.events options.cachePlaceholders [], rfl, congrArg _ warnings⟩
  · rw [failed]
    refine ⟨passed, ⟨name, span, rfl, stops⟩, rfl, rfl, ?_⟩
    rw [Failure.diagnostics, List.self_eq_append_left, List.map_eq_nil_iff]

/-- The options that warn about stale filters and check assignments. -/
def Options.watchful : Options :=
  { cachePlaceholders := true, reportWarnings := true, checkAssignments := true }

/-- A function that filters a variable, sets it and filters it again, and then reads a placeholder
that is not given. -/
def interrupted : Node :=
  let filtered (line : UInt32) := Node.write .generated
    (.filter ⟨0, 0, line, 1⟩ (.identifier .generated "line") none none)
  .template .generated "page" ∅
    [.function .generated "interrupted" (.plain
      [filtered 1, .assign .generated "line" (.identifier .generated "hello"), filtered 3,
        .write .generated (.placeholder ⟨0, 0, 4, 1⟩ "missing" none)])]

/-- The second filter raises a warning. It is not handed over, since the analysis fails behind it.
-/
theorem interrupted_not_handed_over :
    ∃ failure, interrupted.optimize .watchful = .error failure ∧
      Watch.start.raised ((interrupted.events true []).take 4) = [⟨"line", ⟨0, 0, 3, 1⟩, 0, 1⟩] ∧
      (interrupted.events true [])[4]? = some (.read "missing" ⟨0, 0, 4, 1⟩) ∧
      failure.cause = .unassigned "missing" ⟨0, 0, 4, 1⟩ ∧
      failure.diagnostics ≠
        [Warning.diagnostic ⟨"line", ⟨0, 0, 3, 1⟩, 0, 1⟩, failure.cause.diagnostic] :=
  ⟨_, rfl, by decide, by decide, by decide, by decide⟩

theorem interrupted_hands_over :
    ∃ failure passed, interrupted.optimize .watchful = .error failure ∧
      failure.warnings = Watch.start.raised passed ∧
      failure.warnings = [⟨"line", ⟨0, 0, 3, 1⟩, 0, 1⟩] ∧
      failure.diagnostics = [failure.cause.diagnostic] := by
  obtain ⟨passed, met⟩ := optimize_hands_over .watchful interrupted rfl rfl
  obtain ⟨-, raised, alone, -⟩ := met
  exact ⟨_, passed, rfl, raised, rfl, alone⟩

end Stencil
