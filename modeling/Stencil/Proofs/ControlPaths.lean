import Stencil.Proofs.Walk

/-!
# Definite assignment over control paths

A control path is given by the variables whose assignments it completes. At a conditional the
branch is chosen freely, and a missing branch is an empty one. A read is exposed when the variable
is neither given from outside nor a parameter, and some path to the read does not assign it.

The analysis keeps one set of names instead of paths. `Knows` says what the set stands for, and
`walkBlock_verdict` that the walk fails exactly at the first exposed read.

Main statement: `analyze_unassigned_iff_exposed`.
-/

namespace Stencil

/-- Every path of one list followed by every path of another. -/
def extendPaths (paths next : List (List String)) : List (List String) :=
  paths.flatMap fun path => next.map (path ++ ·)

theorem mem_extendPaths {paths next : List (List String)} {path : List String} :
    path ∈ extendPaths paths next ↔ ∃ p ∈ paths, ∃ q ∈ next, p ++ q = path := by
  simp [extendPaths]

@[simp]
theorem extendPaths_nil (paths : List (List String)) : extendPaths paths [[]] = paths := by
  simp [extendPaths]

theorem extendPaths_assoc (a b c : List (List String)) :
    extendPaths (extendPaths a b) c = extendPaths a (extendPaths b c) := by
  simp only [extendPaths, List.flatMap_assoc, List.flatMap_map, List.map_flatMap, List.map_map]
  congr
  funext p
  congr
  funext q
  simp [Function.comp_def]

/-- A read of a placeholder, with the paths that lead to it. -/
structure ReadSite where
  name : String
  span : Span
  /-- The names that the scope of the innermost function declares. -/
  parameters : List String
  /-- The paths from the start of that function, or of the template, to the read. -/
  paths : List (List String)

/-- Whether the variable can be unassigned at the read. -/
def ReadSite.exposed (globals : OrderedSet String) (site : ReadSite) : Bool :=
  site.name ∉ globals ∧ site.name ∉ site.parameters ∧ ∃ path ∈ site.paths, site.name ∉ path

namespace Node

mutual

/-- The control paths through a node. -/
def routes : Node → List (List String)
  | .conditional _ _ ⟨thenBody, _⟩ none => routesOf thenBody ++ [[]]
  | .conditional _ _ ⟨thenBody, _⟩ (some ⟨elseBody, _⟩) => routesOf thenBody ++ routesOf elseBody
  | .assign _ target _ => [[target]]
  | .template .. | .function .. | .identifier .. | .placeholder .. | .literal .. | .binary ..
  | .filter .. | .call .. | .list .. | .write .. => [[]]
termination_by structural n => n

/-- The control paths through a list of statements. -/
def routesOf : List Node → List (List String)
  | [] => [[]]
  | n :: rest => extendPaths n.routes (routesOf rest)
termination_by structural ns => ns

end

mutual

/-- The reads at or below a node that the given paths lead to. A function starts anew with its own
parameters. -/
def readSites (parameters : List String) (paths : List (List String)) : Node → List ReadSite
  | .template _ _ _ body => readSitesOf [] [[]] body
  | .function _ _ ⟨body, scope⟩ => readSitesOf scope.locals.toList [[]] body
  | .conditional _ condition ⟨thenBody, _⟩ none =>
    condition.readSites parameters paths ++ readSitesOf parameters paths thenBody
  | .conditional _ condition ⟨thenBody, _⟩ (some ⟨elseBody, _⟩) =>
    condition.readSites parameters paths ++
      (readSitesOf parameters paths thenBody ++ readSitesOf parameters paths elseBody)
  | .assign _ _ value => value.readSites parameters paths
  | .placeholder span name _ => [⟨name, span, parameters, paths⟩]
  | .identifier .. | .literal .. => []
  | .binary _ _ left right => left.readSites parameters paths ++ right.readSites parameters paths
  | .filter _ operand _ _ => operand.readSites parameters paths
  | .call _ callee arguments =>
    callee.readSites parameters paths ++ readSitesEach parameters paths arguments
  | .list _ items => readSitesEach parameters paths items
  | .write _ operand => operand.readSites parameters paths
termination_by structural n => n

/-- The reads of operands, to which the same paths lead. -/
def readSitesEach (parameters : List String) (paths : List (List String)) :
    List Node → List ReadSite
  | [] => []
  | n :: rest => n.readSites parameters paths ++ readSitesEach parameters paths rest
termination_by structural ns => ns

/-- The reads of statements, where each one is reached through those in front of it. -/
def readSitesOf (parameters : List String) (paths : List (List String)) :
    List Node → List ReadSite
  | [] => []
  | n :: rest =>
    n.readSites parameters paths ++ readSitesOf parameters (extendPaths paths n.routes) rest
termination_by structural ns => ns

end

end Node

namespace Analysis

/-- The assigned names of a state are those that are parameters or assigned on every path. -/
structure Knows (globals : OrderedSet String) (parameters : List String)
    (paths : List (List String)) (st : State) : Prop where
  globals : st.globals = globals
  assigned : ∀ name, name ∈ st.frame.assigned ↔
    name ∈ parameters ∨ ∀ path ∈ paths, name ∈ path

/-- The first exposed read of a list is the cause of a failure. -/
def FirstExposed (globals : OrderedSet String) (sites : List ReadSite) (cause : AnalysisError) :
    Prop :=
  ∃ before site after, sites = before ++ site :: after ∧
    (∀ earlier ∈ before, earlier.exposed globals = false) ∧ site.exposed globals = true ∧
    cause = .unassigned site.name site.span

/-- A walk over the given reads either succeeds, with none of them exposed and a state of the given
kind, or fails at the first one that is exposed. -/
def Verdict {α : Type} (globals : OrderedSet String) (sites : List ReadSite)
    (after : State → Prop) :
    Except Failure (α × State) → Prop
  | .ok (_, st) => (∀ site ∈ sites, site.exposed globals = false) ∧ after st
  | .error failure => FirstExposed globals sites failure.cause

theorem FirstExposed.append_right {globals : OrderedSet String} {sites : List ReadSite}
    {cause : AnalysisError} (h : FirstExposed globals sites cause) (more : List ReadSite) :
    FirstExposed globals (sites ++ more) cause := by
  obtain ⟨before, site, after, rfl, none, exposed, same⟩ := h
  exact ⟨before, site, after ++ more, by simp, none, exposed, same⟩

theorem FirstExposed.append_left {globals : OrderedSet String} {sites : List ReadSite}
    {cause : AnalysisError} (h : FirstExposed globals sites cause) {fine : List ReadSite}
    (ok : ∀ site ∈ fine, site.exposed globals = false) :
    FirstExposed globals (fine ++ sites) cause := by
  obtain ⟨before, site, after, rfl, none, exposed, same⟩ := h
  refine ⟨fine ++ before, site, after, by simp, ?_, exposed, same⟩
  intro earlier member
  rcases List.mem_append.1 member with member | member
  · exact ok earlier member
  · exact none earlier member

/-- Two walks one after the other. -/
theorem Verdict.bind {α β : Type} {globals : OrderedSet String} {sites more : List ReadSite}
    {middle after : State → Prop} {x : Except Failure (α × State)}
    {f : α × State → Except Failure (β × State)} (first : Verdict globals sites middle x)
    (second : ∀ a st, middle st → Verdict globals more after (f (a, st))) :
    Verdict globals (sites ++ more) after (x >>= f) := by
  cases x with
  | error failure => exact first.append_right more
  | ok result =>
    obtain ⟨a, st⟩ := result
    obtain ⟨fine, here⟩ := first
    have next := second a st here
    change Verdict globals (sites ++ more) after (f (a, st))
    generalize f (a, st) = y at next
    cases y with
    | error failure => exact next.append_left fine
    | ok result =>
      obtain ⟨b, last⟩ := result
      refine ⟨?_, next.2⟩
      intro site member
      rcases List.mem_append.1 member with member | member
      · exact fine site member
      · exact next.1 site member

/-- A walk after which the rest is immediate. -/
theorem Verdict.map {α β : Type} {globals : OrderedSet String} {sites : List ReadSite}
    {middle after : State → Prop} {x : Except Failure (α × State)}
    {f : α × State → Except Failure (β × State)} (first : Verdict globals sites middle x)
    (second : ∀ a st, middle st → Verdict globals [] after (f (a, st))) :
    Verdict globals sites after (x >>= f) := by
  have both := first.bind second
  rwa [List.append_nil] at both

/-- The options under which an unassigned variable is the only reason to fail. -/
structure OnlyUnassigned (options : Options) : Prop where
  check : options.checkAssignments = true
  quiet : options.cachePlaceholders = false ∨ options.rejectWarnings = false

section Verdicts

variable {ctx : Context} {globals : OrderedSet String} {parameters : List String}
  {paths : List (List String)}

theorem Knows.of_alike {st next : State} (known : Knows globals parameters paths st)
    (same : next.Alike st) : Knows globals parameters paths next :=
  ⟨same.globals.trans known.globals, same.frame ▸ known.assigned⟩

theorem aliasFor_knows {st next : State} {c : Computation} {value : Node} {alternative : String}
    (known : Knows globals parameters paths st)
    (made : st.aliasFor ctx c value = (alternative, next)) :
    Knows globals parameters paths next := by
  rcases aliasFor_cases made with ⟨rfl, -⟩ | ⟨rfl, -⟩
  · exact known
  · exact ⟨known.globals, known.assigned⟩

theorem cacheFilter_knows {st next : State} {span : Span} {operand : Node}
    {name cached : Option String} (known : Knows globals parameters paths st)
    (cache : st.cacheFilter ctx span operand name = (cached, next)) :
    Knows globals parameters paths next := by
  rcases cacheFilter_cases cache with ⟨-, rfl⟩ | ⟨_, _, -, -, -, -, made⟩
  · exact known
  · exact aliasFor_knows known made

theorem Knows.exposed_iff {st : State} (known : Knows globals parameters paths st) (name : String)
    (span : Span) :
    (ReadSite.mk name span parameters paths).exposed globals = true ↔
      name ∉ st.frame.assigned ∧ name ∉ st.globals := by
  simp only [ReadSite.exposed, decide_eq_true_eq, known.assigned, known.globals, not_or,
    Classical.not_forall]
  constructor
  · rintro ⟨outside, free, path, member, missing⟩
    exact ⟨⟨free, path, member, missing⟩, outside⟩
  · rintro ⟨⟨free, path, member, missing⟩, outside⟩
    exact ⟨outside, free, path, member, missing⟩

theorem read_verdict {st : State} (only : OnlyUnassigned ctx.options)
    (known : Knows globals parameters paths st) (span : Span) (name : String) :
    Verdict globals [⟨name, span, parameters, paths⟩] (Knows globals parameters paths)
      (st.read ctx span name) := by
  cases result : st.read ctx span name with
  | error failure =>
    unfold State.read at result
    split at result
    · rename_i bad
      cases result
      exact ⟨[], _, [], rfl, by simp, (known.exposed_iff name span).2 bad.2, rfl⟩
    · cases result
  | ok pair =>
    obtain ⟨resolution, next⟩ := pair
    refine ⟨?_, ?_⟩
    · intro site member
      rw [List.mem_singleton.1 member, Bool.eq_false_iff, ne_eq, known.exposed_iff]
      intro bad
      rw [State.read, if_pos ⟨only.check, bad⟩] at result
      cases result
    · rcases read_cases result with ⟨-, -, same⟩ | ⟨-, same⟩ | ⟨_, middle, -, -, -, -, made, same⟩
      · exact known.of_alike same
      · exact known.of_alike same
      · exact (aliasFor_knows known made).of_alike same

theorem checkFilter_ok (only : OnlyUnassigned ctx.options) (st : State) (span : Span)
    (operand : Node) :
    ∃ next, st.checkFilter ctx span operand = .ok next ∧ next.Alike st := by
  cases result : st.checkFilter ctx span operand with
  | ok next => exact ⟨next, rfl, checkFilter_alike result⟩
  | error failure =>
    exfalso
    unfold State.checkFilter at result
    split at result
    · rename_i caching _
      unfold State.recordFilter at result
      simp only at result
      split at result
      · unfold State.warn at result
        have keep : ctx.options.rejectWarnings = false := by
          rcases only.quiet with off | off
          · rw [off] at caching; cases caching
          · exact off
        rw [keep] at result
        simp only [Bool.false_eq_true, if_false] at result
        split at result <;> cases result
      · cases result
      · cases result
    · cases result

/-- After a conditional a name is assigned on every path when it is on every path through each
branch. -/
theorem Knows.join {a b : List (List String)} {st before inThen inElse : State}
    (known : Knows globals parameters paths before)
    (thenKnown : Knows globals parameters (extendPaths paths a) inThen)
    (elseKnown : Knows globals parameters (extendPaths paths b) inElse)
    (global : st.globals = globals) (frame : st.frame = before.frame) :
    Knows globals parameters (extendPaths paths (a ++ b))
      (st.join [inThen.frame.assigned, inElse.frame.assigned]) := by
  refine ⟨global, fun name => ?_⟩
  change name ∈ st.frame.assigned.join [inThen.frame.assigned, inElse.frame.assigned] ↔ _
  rw [Assigned.mem_join, frame, known.assigned]
  simp only [ne_eq, reduceCtorEq, not_false_eq_true, List.mem_cons, List.not_mem_nil, or_false,
    forall_eq_or_imp, forall_eq, true_and, thenKnown.assigned, elseKnown.assigned, mem_extendPaths,
    List.mem_append]
  constructor
  · rintro ((parameter | always) | ⟨parameter | inThen, parameter | inElse⟩)
    · exact .inl parameter
    · refine .inr ?_
      rintro _ ⟨p, hp, q, -, rfl⟩
      exact List.mem_append_left q (always p hp)
    · exact .inl parameter
    · exact .inl parameter
    · exact .inl parameter
    · refine .inr ?_
      rintro path ⟨p, hp, q, hq | hq, same⟩
      · exact inThen path ⟨p, hp, q, hq, same⟩
      · exact inElse path ⟨p, hp, q, hq, same⟩
  · rintro (parameter | always)
    · exact .inl (.inl parameter)
    · refine .inr ⟨.inr ?_, .inr ?_⟩
      · rintro path ⟨p, hp, q, hq, same⟩
        exact always path ⟨p, hp, q, .inl hq, same⟩
      · rintro path ⟨p, hp, q, hq, same⟩
        exact always path ⟨p, hp, q, .inr hq, same⟩

theorem Knows.assign {st : State} (known : Knows globals parameters paths st) (ctx : Context)
    (target : String) :
    Knows globals parameters (extendPaths paths [[target]]) (st.assign ctx target) := by
  refine ⟨known.globals, fun name => ?_⟩
  change name ∈ st.frame.assigned.insert target ↔ _
  rw [Assigned.mem_insert, known.assigned]
  simp only [mem_extendPaths, List.mem_singleton]
  constructor
  · rintro ((parameter | always) | rfl)
    · exact .inl parameter
    · refine .inr ?_
      rintro _ ⟨p, hp, q, -, rfl⟩
      exact List.mem_append_left q (always p hp)
    · refine .inr ?_
      rintro _ ⟨p, -, q, rfl, rfl⟩
      exact List.mem_append_right p List.mem_cons_self
  · rintro (parameter | always)
    · exact .inl (.inl parameter)
    · by_cases same : name = target
      · exact .inr same
      · refine .inl (.inr fun p hp => ?_)
        have last := always (p ++ [target]) ⟨p, hp, [target], rfl, rfl⟩
        simpa [same] using last

theorem Knows.enterFunction {st : State} (known : Knows globals parameters paths st)
    (body : List Node) (scope : Scope) :
    Knows globals scope.locals.toList [[]] (st.enterFunction ⟨body, scope⟩) := by
  refine ⟨known.globals, fun name => ?_⟩
  change name ∈ Assigned.ofList scope.locals.toList ↔ _
  simp

mutual

theorem walk_expression_verdict (only : OnlyUnassigned ctx.options) (e : Node) {st : State}
    (placed : e.isOperand) (known : Knows globals parameters paths st) :
    Verdict globals (e.readSites parameters paths) (Knows globals parameters paths)
      (walk ctx e st) := by
  have done (x : Node) (next : State) (after : Knows globals parameters paths next) :
      Verdict globals [] (Knows globals parameters paths) (.ok (x, next)) := ⟨by simp, after⟩
  cases e with
  | identifier span name => exact done _ _ known
  | literal span value => exact done _ _ known
  | placeholder span name resolution =>
    rw [walk]
    exact (read_verdict only known span name).map fun _ _ after => done _ _ after
  | binary span op left right =>
    rw [Node.isOperand, Bool.and_eq_true] at placed
    rw [walk, Node.readSites]
    refine (walk_expression_verdict only left placed.1 known).bind fun _ middle first => ?_
    have turned : Knows globals parameters paths
        (middle.evaluating (st.evaluation.rightOperand op)) := ⟨first.globals, first.assigned⟩
    exact (walk_expression_verdict only right placed.2 turned).map fun _ next second =>
      done _ (next.evaluating st.evaluation) ⟨second.globals, second.assigned⟩
  | filter span operand name cachedAs =>
    rw [walk, Node.readSites]
    refine (walk_expression_verdict only operand placed known).map fun operand' middle inner => ?_
    obtain ⟨checked, check, same⟩ := checkFilter_ok only middle span operand'
    simp only [check]
    exact done _ _ (cacheFilter_knows (inner.of_alike same) rfl)
  | call span callee arguments =>
    rw [Node.isOperand, Bool.and_eq_true] at placed
    rw [walk, Node.readSites]
    refine (walk_expression_verdict only callee placed.1 known).bind fun _ middle first => ?_
    exact (walkEach_verdict only arguments placed.2 first).map fun _ _ second => done _ _ second
  | list span items =>
    rw [walk, Node.readSites]
    exact (walkEach_verdict only items placed known).map fun _ _ inner => done _ _ inner
  | template | function | conditional | assign | write => simp [Node.isOperand] at placed
termination_by structural e

theorem walkEach_verdict (only : OnlyUnassigned ctx.options) (es : List Node) {st : State}
    (placed : Node.areOperands es) (known : Knows globals parameters paths st) :
    Verdict globals (Node.readSitesEach parameters paths es) (Knows globals parameters paths)
      (walkEach ctx es st) := by
  cases es with
  | nil => exact ⟨by simp [Node.readSitesEach], known⟩
  | cons e rest =>
    rw [Node.areOperands, Bool.and_eq_true] at placed
    rw [walkEach, Node.readSitesEach]
    refine (walk_expression_verdict only e placed.1 known).bind fun _ next first => ?_
    exact (walkEach_verdict only rest placed.2 first).map fun _ _ later => ⟨by simp, later⟩
termination_by structural es

end

mutual

theorem walk_statement_verdict {ctx : Context} {parameters : List String}
    {paths : List (List String)} (only : OnlyUnassigned ctx.options) (n : Node) {st : State}
    (placed : n.isPlaced) (known : Knows globals parameters paths st) :
    Verdict globals (n.readSites parameters paths)
      (Knows globals parameters (extendPaths paths n.routes)) (walk ctx n st) := by
  cases n with
  | function span name block =>
    obtain ⟨body, scope⟩ := block
    rw [walk, Node.readSites, Node.routes, extendPaths_nil]
    have within : OnlyUnassigned (ctx.enterFunction ⟨body, scope⟩).options := only
    refine (walkBlock_verdict within body placed (known.enterFunction body scope)).map
      fun walked inner inside => ?_
    exact ⟨by simp, inside.globals, known.assigned⟩
  | conditional span condition thenBranch elseBranch =>
    obtain ⟨thenBody, thenScope⟩ := thenBranch
    cases elseBranch with
    | none =>
      simp only [Node.isPlaced, Bool.and_eq_true] at placed
      rw [walk, Node.readSites, Node.routes]
      refine (walk_expression_verdict only condition placed.1 known).bind fun _ tested test => ?_
      have entered : Knows globals parameters paths (tested.enterBranch thenScope) :=
        ⟨test.globals, test.assigned⟩
      have within : OnlyUnassigned (ctx.enterBranch tested.frame.aliases).options := only
      refine (walkBlock_verdict within thenBody placed.2 entered).map fun _ inThen thenSide => ?_
      have skipped : Knows globals parameters (extendPaths paths [[]]) tested := by
        rwa [extendPaths_nil]
      exact ⟨by simp, test.join thenSide skipped thenSide.globals rfl⟩
    | some block =>
      obtain ⟨elseBody, elseScope⟩ := block
      simp only [Node.isPlaced, Bool.and_eq_true] at placed
      rw [walk, Node.readSites, Node.routes]
      refine (walk_expression_verdict only condition placed.1.1 known).bind
        fun _ tested test => ?_
      have entered : Knows globals parameters paths (tested.enterBranch thenScope) :=
        ⟨test.globals, test.assigned⟩
      have within : OnlyUnassigned (ctx.enterBranch tested.frame.aliases).options := only
      refine (walkBlock_verdict within thenBody placed.1.2 entered).bind
        fun _ inThen thenSide => ?_
      have again : Knows globals parameters paths
          ((tested.leaveBranch inThen).enterBranch elseScope) := ⟨thenSide.globals, test.assigned⟩
      refine (walkBlock_verdict within elseBody placed.2 again).map fun _ inElse elseSide => ?_
      exact ⟨by simp, test.join thenSide elseSide elseSide.globals rfl⟩
  | assign span target value =>
    rw [walk, Node.readSites, Node.routes]
    refine (walk_expression_verdict only value placed known).map fun _ next inner => ?_
    exact ⟨by simp, inner.assign ctx target⟩
  | write span operand =>
    rw [walk, Node.readSites, Node.routes, extendPaths_nil]
    exact (walk_expression_verdict only operand placed known).map fun _ _ inner => ⟨by simp, inner⟩
  | template => simp [Node.isPlaced] at placed
  | identifier | placeholder | literal | binary | filter | call | list =>
    rw [Node.routes, extendPaths_nil]
    exact walk_expression_verdict only _ placed known
termination_by structural n

/-- The walk of a block fails at its first exposed read, and succeeds when there is none. -/
theorem walkBlock_verdict {ctx : Context} {parameters : List String} {paths : List (List String)}
    (only : OnlyUnassigned ctx.options) (body : List Node) {st : State}
    (placed : Node.arePlaced body) (known : Knows globals parameters paths st) :
    Verdict globals (Node.readSitesOf parameters paths body)
      (Knows globals parameters (extendPaths paths (Node.routesOf body)))
      (walkBlock ctx body st) := by
  cases body with
  | nil =>
    rw [Node.routesOf, extendPaths_nil]
    exact ⟨by simp [Node.readSitesOf], known⟩
  | cons n rest =>
    rw [Node.arePlaced, Bool.and_eq_true] at placed
    rw [walkBlock, Node.readSitesOf, Node.routesOf, ← extendPaths_assoc]
    have begun : Knows globals parameters paths st.beginStatement := ⟨known.globals, known.assigned⟩
    refine (walk_statement_verdict only n placed.1 begun).bind fun _ next first => ?_
    have ended : Knows globals parameters (extendPaths paths n.routes) next.endStatement :=
      ⟨first.globals, first.assigned⟩
    exact (walkBlock_verdict only rest placed.2 ended).map fun _ _ later => ⟨by simp, later⟩
termination_by structural body

end

/-- The body of a template, as for blocks. -/
theorem walkTemplate_verdict (only : OnlyUnassigned ctx.options) (body : List Node) {st : State}
    (placed : Node.arePlaced body) (known : Knows globals parameters paths st) :
    Verdict globals (Node.readSitesOf parameters paths body)
      (Knows globals parameters (extendPaths paths (Node.routesOf body)))
      (walkTemplate ctx body st) := by
  induction body generalizing st paths with
  | nil =>
    rw [Node.routesOf, extendPaths_nil]
    exact ⟨by simp [Node.readSitesOf], known⟩
  | cons n rest ih =>
    rw [Node.arePlaced, Bool.and_eq_true] at placed
    rw [walkTemplate, Node.readSitesOf, Node.routesOf, ← extendPaths_assoc]
    have begun : Knows globals parameters paths st.beginStatement := ⟨known.globals, known.assigned⟩
    refine (walk_statement_verdict only n placed.1 begun).bind fun _ next first => ?_
    exact (ih placed.2 first).map fun _ _ later => ⟨by simp, later⟩

end Verdicts

theorem FirstExposed.exists_exposed {globals : OrderedSet String} {sites : List ReadSite}
    {cause : AnalysisError} (h : FirstExposed globals sites cause) :
    ∃ site ∈ sites, site.exposed globals = true := by
  obtain ⟨before, site, after, rfl, -, exposed, -⟩ := h
  exact ⟨site, by simp, exposed⟩

/-- The walk of a whole tree, as for the statements at its top. -/
theorem walk_root_verdict {options : Options} (only : OnlyUnassigned options) (root : Node)
    (placed : Node.arePlaced root.top) :
    ∃ after, Verdict root.globals (Node.readSitesOf [] [[]] root.top) after
      (walk (.top options) root .start) := by
  have within : OnlyUnassigned (Context.top options).options := only
  have start (globals : OrderedSet String) :
      Knows globals [] [[]] { State.start with globals } := by
    refine ⟨rfl, fun name => ?_⟩
    change name ∈ (∅ : Assigned String) ↔ _
    simp
  have alone (n : Node) (placed : n.isPlaced) :
      ∃ after, Verdict ∅ (Node.readSitesOf [] [[]] [n]) after (walk (.top options) n .start) := by
    rw [Node.readSitesOf, Node.readSitesOf, List.append_nil]
    exact ⟨_, walk_statement_verdict within n placed (start ∅)⟩
  cases root with
  | template span name globals body =>
    rw [walk]
    refine ⟨Knows globals [] (extendPaths [[]] (Node.routesOf body)), ?_⟩
    exact (walkTemplate_verdict within body placed (start globals)).map
      fun _ _ later => ⟨by simp, later⟩
  | function | conditional | assign | identifier | placeholder | literal | binary | filter | call
  | list | write =>
    simp only [Node.top, Node.arePlaced, Bool.and_true] at placed
    exact alone _ placed

/-- The analysis of a tree fails at its first exposed read, and succeeds when there is none. -/
theorem analyze_root_verdict {options : Options} (only : OnlyUnassigned options) (root : Node)
    (placed : Node.arePlaced root.top) :
    (∀ failure, root.analyze options = .error failure →
      FirstExposed root.globals (Node.readSitesOf [] [[]] root.top) failure.cause) ∧
    ∀ analysis, root.analyze options = .ok analysis →
      ∀ site ∈ Node.readSitesOf [] [[]] root.top, site.exposed root.globals = false := by
  obtain ⟨after, verdict⟩ := walk_root_verdict only root placed
  unfold Node.analyze
  cases result : walk (.top options) root .start with
  | error failure =>
    rw [result] at verdict
    constructor
    · intro other same
      cases same
      exact verdict
    · intro _ same
      cases same
  | ok pair =>
    obtain ⟨walked, last⟩ := pair
    rw [result] at verdict
    constructor
    · intro _ same
      cases same
    · intro _ _
      exact verdict.1

/-- The analysis of a template, as for its body. -/
theorem analyze_verdict {options : Options} (only : OnlyUnassigned options) (span : Span)
    (name : String) (globals : OrderedSet String) (body : List Node)
    (source : (Node.template span name globals body).isSource) :
    (∀ failure, (Node.template span name globals body).analyze options = .error failure →
      FirstExposed globals (Node.readSitesOf [] [[]] body) failure.cause) ∧
    ∀ analysis, (Node.template span name globals body).analyze options = .ok analysis →
      ∀ site ∈ Node.readSitesOf [] [[]] body, site.exposed globals = false :=
  analyze_root_verdict only _ (Node.arePlaced_of_areStatements body source)

end Analysis

/-- Definite assignment is exact: with nothing else to fail for, the analysis of a template fails
for an unassigned variable exactly when some read is exposed, and it then names the first one. -/
theorem analyze_unassigned_iff_exposed (options : Options) (check : options.checkAssignments = true)
    (quiet : options.cachePlaceholders = false ∨ options.rejectWarnings = false) (span : Span)
    (name : String) (globals : OrderedSet String) (body : List Node)
    (source : (Node.template span name globals body).isSource) :
    ((∃ failure missing place, (Node.template span name globals body).analyze options =
          .error failure ∧ failure.cause = .unassigned missing place) ↔
      ∃ site ∈ (Node.template span name globals body).readSites [] [[]],
        site.exposed globals = true) ∧
    ∀ failure missing place, (Node.template span name globals body).analyze options =
        .error failure → failure.cause = .unassigned missing place →
      ∃ before site after,
        (Node.template span name globals body).readSites [] [[]] = before ++ site :: after ∧
        (∀ earlier ∈ before, earlier.exposed globals = false) ∧
        site.exposed globals = true ∧ site.name = missing ∧ site.span = place := by
  obtain ⟨fails, succeeds⟩ := Analysis.analyze_verdict ⟨check, quiet⟩ span name globals body source
  rw [Node.readSites]
  refine ⟨⟨?_, ?_⟩, ?_⟩
  · rintro ⟨failure, missing, place, failed, -⟩
    exact (fails failure failed).exists_exposed
  · rintro ⟨site, member, exposed⟩
    cases result : (Node.template span name globals body).analyze options with
    | ok analysis => rw [succeeds analysis result site member] at exposed; cases exposed
    | error failure =>
      obtain ⟨_, first, _, -, -, -, cause⟩ := fails failure result
      exact ⟨failure, first.name, first.span, rfl, cause⟩
  · intro failure missing place failed cause
    obtain ⟨before, site, after, sites, none, exposed, same⟩ := fails failure failed
    rw [cause] at same
    cases same
    exact ⟨before, site, after, sites, none, exposed, rfl, rfl⟩

/-- The options that check assignments and nothing else. -/
def Options.checking : Options := { checkAssignments := true }

/-- A function that assigns a variable in one of two nested branches only, and reads it
afterwards. -/
def forgetful : List Node :=
  let user := Node.placeholder .generated "user" none
  let assign := Node.assign .generated "line" (.identifier .generated "hello")
  let inner := Node.conditional .generated user (.plain [assign]) none
  [.function .generated "forgetful"
    { body :=
        [.conditional .generated user (.plain [inner]) (some (.plain [assign])),
          .write .generated (.placeholder .generated "line" none)]
      scope := { (∅ : Scope) with locals := .ofList ["user"] } }]

theorem forgetful_unassigned :
    Options.checking.checkAssignments = true ∧ Options.checking.cachePlaceholders = false ∧
    (Node.template .generated "page" ∅ forgetful).isSource = true ∧
    ∃ failure missing place, (Node.template .generated "page" ∅ forgetful).analyze .checking =
        .error failure ∧ failure.cause = .unassigned missing place ∧
      ∃ before site after,
        (Node.template .generated "page" ∅ forgetful).readSites [] [[]] = before ++ site :: after ∧
        (∀ earlier ∈ before, earlier.exposed ∅ = false) ∧
        site.exposed ∅ = true ∧ site.name = missing ∧ site.span = place := by
  have both := analyze_unassigned_iff_exposed .checking rfl (.inl rfl) .generated "page" ∅ forgetful
    (by decide)
  obtain ⟨failure, missing, place, failed, cause⟩ := both.1.2 (by decide)
  exact ⟨rfl, rfl, by decide, failure, missing, place, failed, cause,
    both.2 failure missing place failed cause⟩

end Stencil
