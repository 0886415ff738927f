import Stencil.Proofs.Sites

/-!
# What the analysis notes and reports

The note on a placeholder is a function of where the placeholder stands. It is read directly where
that is allowed and the variable is assigned on every path; else from an alias where placeholders are
kept, the statement always reads it, and the function never assigns the variable; else by its name.
An operand that may be left out is never read from an alias, and a filter there is not kept.

The walk of an expression notes this at every place of it (`Operands.notes`) and reports the
placeholders on the way (`Operands.reported`). `Statements.surveyed` has both for a body, whose sites
correspond to those of the walked body without its definitions, and `analyze_surveyed` for a tree.
-/

namespace Stencil

/-- How a placeholder is read at a place of a source tree, with the aliases of the place that
corresponds to it in the analysed tree. -/
def Place.access? (options : Options) (p q : Place) (eligible : Bool) (name : String) :
    Option Access :=
  if options.directAccess && p.isAssigned name then some (.direct name)
  else if options.cachePlaceholders && eligible && p.isConstant name then
    (q.alias? (.placeholder name)).map .cached
  else some .dynamic

/-- What the analysis notes on an expression, by whether the expression may be left out. -/
def Notes (options : Options) (p q : Place) (skipped : Bool) : Node → Prop
  | .placeholder _ name resolution => ∃ note, resolution = some note ∧
      note.cacheEligible = !skipped ∧
      p.access? options q note.cacheEligible name = some note.access
  | .filter _ _ _ cachedAs => skipped = true → cachedAs = none
  | .template .. | .function .. | .conditional .. | .assign .. | .identifier .. | .literal ..
  | .binary .. | .call .. | .list .. | .write .. => True

/-- An expression of a source tree and the analysed expression at its place. -/
structure Site.Noted (options : Options) (s t : Site) : Prop where
  bare : t.expression.bare = s.expression
  notes : t.expression.Each (Notes options s.toPlace t.toPlace) false

/-- Sites and their analysed forms have the same placeholders. -/
theorem Site.occurrences_of_noted {options : Options} {ss ts : List Site}
    (h : List.Forall₂ (Site.Noted options) ss ts) :
    (ts.flatMap fun t => t.expression.occurrences).map Occurrence.bare =
      (ss.flatMap fun s => s.expression.occurrences).map Occurrence.bare := by
  induction h with
  | nil => rfl
  | cons noted _ ih =>
    rw [List.flatMap_cons, List.flatMap_cons, List.map_append, List.map_append, ih, ← noted.bare,
      Node.map_bare_occurrences_bare]

namespace Analysis

/-- The read as it is noted in the tree. -/
def Read.occurrence (read : Read) : Occurrence := ⟨read.name, read.span, some read.resolution⟩

section Expressions

variable {ctx : Context} {st next last : State}

theorem aliasFor_reads {c : Computation} {value : Node} {name : String}
    (made : st.aliasFor ctx c value = (name, next)) : next.reads = st.reads := by
  rcases aliasFor_cases made with ⟨rfl, -⟩ | ⟨rfl, -, -⟩
  · rfl
  · rfl

theorem checkFilter_reads {span : Span} {operand : Node}
    (h : st.checkFilter ctx span operand = .ok next) : next.reads = st.reads := by
  unfold State.checkFilter State.recordFilter State.warn at h
  split at h
  · simp only at h
    split at h
    · split at h
      · cases h
      · split at h <;> cases h <;> rfl
    · cases h
      rfl
    · cases h
      rfl
  · cases h
    rfl

theorem cacheFilter_reads {span : Span} {operand : Node} {name cached : Option String}
    (cache : st.cacheFilter ctx span operand name = (cached, next)) : next.reads = st.reads := by
  rcases cacheFilter_cases cache with ⟨-, rfl⟩ | ⟨_, _, -, -, -, -, made⟩
  · rfl
  · exact aliasFor_reads made

/-- What a read is noted and reported as. -/
theorem read_reported {span : Span} {name : String} {note : Resolution}
    (h : st.read ctx span name = .ok (note, next)) :
    next.reads = st.reads ++ [⟨name, span, note⟩] ∧
      note.cacheEligible = st.evaluation.isUnconditional ∧
      if name ∈ st.frame.assigned ∧ ctx.options.directAccess then note.access = .direct name
      else if st.evaluation.isUnconditional ∧ ctx.options.cachePlaceholders ∧ ctx.inFunction ∧
          name ∉ ctx.assignedAnywhere then
        ∃ alternative, next.visibleAlias? ctx (.placeholder name) = some alternative ∧
          note.access = .cached alternative
      else note.access = .dynamic := by
  unfold State.read at h
  split at h
  · cases h
  · simp only [Except.ok.injEq, Prod.mk.injEq] at h
    obtain ⟨rfl, rfl⟩ := h
    unfold State.access
    split
    · exact ⟨rfl, rfl, rfl⟩
    · split
      · cases made : st.aliasFor ctx (.placeholder name) (State.lookupOf span name) with
        | mk alternative middle =>
          have visible := aliasFor_visible made
          refine ⟨?_, rfl, alternative, visible, rfl⟩
          change middle.reads ++ _ = _
          rw [aliasFor_reads made]
      · exact ⟨rfl, rfl, rfl⟩

/-- What the walk knows about a place: the options, and which variables the function around it
leaves alone. -/
structure Governs (options : Options) (p : Place) (ctx : Context) : Prop where
  options : ctx.options = options
  constant : ∀ name, (ctx.inFunction = true ∧ name ∉ ctx.assignedAnywhere) ↔
    p.isConstant name = true

variable {options : Options} {p q : Place} {globals : OrderedSet String}

/-- The aliases that a state has in sight are those of a place of the analysed tree. -/
def Sees (ctx : Context) (st : State) (q : Place) : Prop :=
  ∀ c name, st.visibleAlias? ctx c = some name → q.alias? c = some name

theorem Sees.of_widens {middle : State} (sees : Sees ctx last q) (widens : Widens ctx middle last)
    (same : middle.frame.aliases = st.frame.aliases) : Sees ctx st q := by
  intro c name visible
  rw [State.visibleAlias?, ← same] at visible
  exact sees c name (widens.visible visible)

theorem Sees.behind (sees : Sees ctx st q) (n : Node) : Sees ctx st (q.behind n) := sees

theorem Knows.isAssigned (known : Knows globals p.parameters p.paths st) (name : String) :
    name ∈ st.frame.assigned ↔ p.isAssigned name = true := by
  rw [known.assigned, Place.isAssigned, List.all_eq_true]
  by_cases parameter : name ∈ p.parameters
  · simp [parameter]
  · simp [parameter]

theorem Operands.knows {parameters : List String} {paths : List (List String)} {es es' : List Node}
    (h : Operands ctx st es es' last) (known : Knows globals parameters paths st) :
    Knows globals parameters paths last := by
  refine ⟨h.globals_eq.trans known.globals, ?_⟩
  rw [h.follows.assigned]
  exact known.assigned

/-- A read is noted with the access that its place determines. -/
theorem read_access {span : Span} {name : String} {note : Resolution}
    (h : st.read ctx span name = .ok (note, next)) (governs : Governs options p ctx)
    (known : Knows globals p.parameters p.paths st) (sees : Sees ctx next q) :
    p.access? options q note.cacheEligible name = some note.access := by
  obtain ⟨-, eligible, access⟩ := read_reported h
  rw [Place.access?, eligible, ← governs.options]
  by_cases direct : name ∈ st.frame.assigned ∧ ctx.options.directAccess = true
  · rw [if_pos direct] at access
    have assigned := (known.isAssigned name).1 direct.1
    simp [direct.2, assigned, access]
  · rw [if_neg direct] at access
    have direct' : ¬ (ctx.options.directAccess && p.isAssigned name) = true := by
      rw [Bool.and_eq_true, ← known.isAssigned name]
      exact fun both => direct both.symm
    rw [if_neg direct']
    by_cases kept : st.evaluation.isUnconditional = true ∧ ctx.options.cachePlaceholders = true ∧
        ctx.inFunction = true ∧ name ∉ ctx.assignedAnywhere
    · rw [if_pos kept] at access
      obtain ⟨always, caching, inside⟩ := kept
      obtain ⟨alternative, visible, access⟩ := access
      have constant := (governs.constant name).1 inside
      simp [always, caching, constant, sees _ _ visible, access]
    · rw [if_neg kept] at access
      have kept' : ¬ (ctx.options.cachePlaceholders && st.evaluation.isUnconditional &&
          p.isConstant name) = true := by
        rw [Bool.and_eq_true, Bool.and_eq_true, ← governs.constant name]
        rintro ⟨⟨caching, always⟩, inside⟩
        exact kept ⟨always, caching, inside⟩
      rw [if_neg kept', access]

theorem isUnconditional_rightOperand (mode : Evaluation) (op : Operator) :
    (!(mode.rightOperand op).isUnconditional) =
      ((!mode.isUnconditional) || decide (op = .and ∨ op = .or)) := by
  simp only [Evaluation.rightOperand, Operator.shortCircuits_iff]
  split
  next either => simp [Evaluation.isUnconditional, either]
  next neither => simp [neither]

/-- The walk of expressions notes on each what its place determines. -/
theorem Operands.notes {es es' : List Node} (h : Operands ctx st es es' last)
    (governs : Governs options p ctx) (known : Knows globals p.parameters p.paths st)
    (sees : Sees ctx last q) :
    Node.EachOf (Notes options p q) (!st.evaluation.isUnconditional) es' := by
  induction h with
  | nil => trivial
  | identifier _ _ _ ih | literal _ _ _ ih => exact ⟨trivial, ih known sees⟩
  | @placeholder st next last rest rest' span name resolution read later ih =>
    have one : Operands ctx st [.placeholder span name none]
        [.placeholder span name (some resolution)] next := .placeholder read (.nil next)
    have access := read_access read governs known (sees.of_widens later.widens rfl)
    have rest := ih (one.knows known) sees
    rw [one.evaluation_eq] at rest
    refine ⟨⟨resolution, rfl, ?_, access⟩, rest⟩
    rw [Bool.not_not]
    exact (read_reported read).2.1
  | @binary st middle next last left left' right right' rest rest' span op firstWalk secondWalk
      laterWalk first second later =>
    have knownMiddle := firstWalk.knows known
    have knownRight : Knows globals p.parameters p.paths
        (middle.evaluating (st.evaluation.rightOperand op)) :=
      ⟨knownMiddle.globals, knownMiddle.assigned⟩
    have knownNext := secondWalk.knows knownRight
    have knownRest : Knows globals p.parameters p.paths (next.evaluating st.evaluation) :=
      ⟨knownNext.globals, knownNext.assigned⟩
    have seesNext : Sees ctx next q := sees.of_widens laterWalk.widens rfl
    have inLeft := first known (seesNext.of_widens secondWalk.widens rfl)
    have inRight := second knownRight seesNext
    have behind := later knownRest sees
    -- the mode of the right operand is turned back for what stands behind the operator
    change Node.EachOf _ (!(st.evaluation.rightOperand op).isUnconditional) _ at inRight
    rw [isUnconditional_rightOperand] at inRight
    exact ⟨⟨trivial, inLeft.1, inRight.1⟩, behind⟩
  | @filter st middle checked next last operand operand' rest rest' span name cached innerWalk check
      cache laterWalk inner later =>
    have alike := checkFilter_alike check
    have mode : checked.evaluation = st.evaluation :=
      alike.evaluation.trans innerWalk.evaluation_eq
    have one : Operands ctx st [.filter span operand name none]
        [.filter span operand' name cached] next := .filter innerWalk check cache (.nil next)
    have seesMiddle : Sees ctx middle q := by
      intro c name visible
      rw [State.visibleAlias?, ← alike.frame] at visible
      rcases cacheFilter_cases cache with ⟨-, rfl⟩ | ⟨_, _, -, -, -, -, made⟩
      · exact sees c name (laterWalk.widens.visible visible)
      · exact sees c name (laterWalk.widens.visible ((aliasFor_widens made).visible visible))
    have inside := inner known seesMiddle
    have behind := later (one.knows known) sees
    rw [one.evaluation_eq] at behind
    refine ⟨⟨?_, inside.1⟩, behind⟩
    intro skipped
    rcases cacheFilter_cases cache with ⟨none, -⟩ | ⟨_, _, -, always, -⟩
    · exact none
    · rw [← mode, always] at skipped
      cases skipped
  | @call st middle next last callee callee' arguments arguments' rest rest' span firstWalk
      secondWalk laterWalk first second later =>
    have seesNext : Sees ctx next q := sees.of_widens laterWalk.widens rfl
    have knownMiddle := firstWalk.knows known
    have inCallee := first known (seesNext.of_widens secondWalk.widens rfl)
    have inArguments := second knownMiddle seesNext
    have behind := later (secondWalk.knows knownMiddle) sees
    rw [secondWalk.evaluation_eq, firstWalk.evaluation_eq] at behind
    rw [firstWalk.evaluation_eq] at inArguments
    exact ⟨⟨trivial, inCallee.1, inArguments⟩, behind⟩
  | @list st next last items items' rest rest' span innerWalk laterWalk inner later =>
    have inItems := inner known (sees.of_widens laterWalk.widens rfl)
    have behind := later (innerWalk.knows known) sees
    rw [innerWalk.evaluation_eq] at behind
    exact ⟨⟨trivial, inItems⟩, behind⟩

/-- The walk of expressions reports the placeholders in them, in document order. -/
theorem Operands.reported {es es' : List Node} (h : Operands ctx st es es' last) :
    last.reads.map Read.occurrence =
      st.reads.map Read.occurrence ++ Node.occurrencesOf es' := by
  induction h with
  | nil => simp
  | identifier _ _ _ ih | literal _ _ _ ih => simpa using ih
  | placeholder read _ ih =>
    obtain ⟨reads, -, -⟩ := read_reported read
    simp [ih, reads, Read.occurrence]
  | binary _ _ _ _ _ first second later =>
    simp only [State.evaluating, Node.occurrencesOf_cons, Node.occurrencesOf_nil,
      List.append_nil] at first second later ⊢
    simp [later, second, first]
  | filter _ check cache _ inner later =>
    simp only [Node.occurrencesOf_cons, Node.occurrencesOf_nil, List.append_nil] at inner
    simp [later, cacheFilter_reads cache, checkFilter_reads check, inner]
  | call _ _ _ _ first second later =>
    simp only [Node.occurrencesOf_cons, Node.occurrencesOf_nil, List.append_nil] at first
    simp [later, second, first]
  | list _ _ _ inner later => simp [later, inner]

end Expressions

section Blocks

variable {options : Options} {globals : OrderedSet String} {ctx : Context} {names : String → Bool}
  {p q : Place} {st before next inner last : State} {source body out rest rest' : List Node}
  {n n' : Node} {scope : Scope}

/-- An expression by itself is a site, and nothing in it is skipped. -/
theorem Operands.sites_eq {e e' : Node} (h : Operands ctx st [e] [e'] next) (skip : String → Bool) :
    e.sites p = [⟨p, e⟩] ∧ e'.sites q = [⟨q, e'⟩] ∧ e'.pruned skip = e' := by
  cases h <;> exact ⟨rfl, rfl, rfl⟩

theorem Operands.routes_eq {e e' : Node} (h : Operands ctx st [e] [e'] next) : e.routes = [[]] := by
  cases h <;> rfl

/-- Behind a conditional with one branch. -/
theorem Knows.behindBranch {parameters : List String} {paths inside : List (List String)}
    {tested inThen : State} (known : Knows globals parameters paths tested)
    (onThen : Knows globals parameters (extendPaths paths inside) inThen) :
    Knows globals parameters (extendPaths paths (inside ++ [[]]))
      ((tested.leaveBranch inThen).join
        [inThen.frame.assigned, tested.frame.assigned]).endStatement := by
  have past : Knows globals parameters (extendPaths paths [[]]) tested := by rwa [extendPaths_nil]
  have global : (tested.leaveBranch inThen).globals = globals := onThen.globals
  have joined := known.join onThen past global rfl
  exact ⟨joined.globals, joined.assigned⟩

/-- Behind a conditional with two branches. -/
theorem Knows.behindBranches {parameters : List String} {paths inside inside' : List (List String)}
    {tested inThen inElse : State} (known : Knows globals parameters paths tested)
    (onThen : Knows globals parameters (extendPaths paths inside) inThen)
    (onElse : Knows globals parameters (extendPaths paths inside') inElse) :
    Knows globals parameters (extendPaths paths (inside ++ inside'))
      (((tested.leaveBranch inThen).leaveBranch inElse).join
        [inThen.frame.assigned, inElse.frame.assigned]).endStatement := by
  have global : ((tested.leaveBranch inThen).leaveBranch inElse).globals = globals :=
    onElse.globals
  have joined := known.join onThen onElse global rfl
  exact ⟨joined.globals, joined.assigned⟩

/-- Behind statements the names are known that are assigned on every path through them. -/
theorem Statements.knows {parameters : List String} {paths : List (List String)}
    (h : Statements ctx st source out last) (known : Knows globals parameters paths st) :
    Knows globals parameters (extendPaths paths (Node.routesOf source)) last := by
  have own {ctx : Context} {st next : State} {paths : List (List String)} {es es' : List Node}
      (inner : Operands ctx st.beginStatement es es' next)
      (known : Knows globals parameters paths st) : Knows globals parameters paths next :=
    inner.knows ⟨known.globals, known.assigned⟩
  induction h generalizing paths with
  | nil => rwa [Node.routesOf, extendPaths_nil]
  | function span name inside later insideIH ih =>
    rw [Node.routesOf, ← extendPaths_assoc, Node.routes, extendPaths_nil]
    exact ih ⟨inside.globals_eq.trans known.globals, known.assigned⟩
  | @branch ctx st tested inThen last condition condition' thenBody thenBody' rest rest' thenScope
      span test thenWalk later thenIH ih =>
    have here := own test known
    have onThen := thenIH ⟨here.globals, here.assigned⟩
    rw [Node.routesOf, ← extendPaths_assoc, Node.routes]
    exact ih (here.behindBranch onThen)
  | @branches ctx st tested inThen inElse last condition condition' thenBody thenBody' elseBody
      elseBody' rest rest' thenScope elseScope span test thenWalk elseWalk later thenIH elseIH ih =>
    have here := own test known
    have onThen := thenIH ⟨here.globals, here.assigned⟩
    have onElse := elseIH ⟨onThen.globals, here.assigned⟩
    rw [Node.routesOf, ← extendPaths_assoc, Node.routes]
    exact ih (here.behindBranches onThen onElse)
  | @assign ctx st next last value value' rest rest' span target inner later ih =>
    have past := (own inner known).assign ctx target
    rw [Node.routesOf, ← extendPaths_assoc, Node.routes]
    exact ih ⟨past.globals, past.assigned⟩
  | write span inner later ih =>
    have past := own inner known
    rw [Node.routesOf, ← extendPaths_assoc, Node.routes, extendPaths_nil]
    exact ih ⟨past.globals, past.assigned⟩
  | expression isExpression inner later ih =>
    have past := own inner known
    rw [Node.routesOf, ← extendPaths_assoc, inner.routes_eq, extendPaths_nil]
    exact ih ⟨past.globals, past.assigned⟩

theorem Governs.enterFunction (governs : Governs options p ctx) (f : Block Node) :
    Governs options (.start f) (ctx.enterFunction f) :=
  ⟨governs.options, fun name => by simp [Context.enterFunction, Place.isConstant, Place.start]⟩

theorem Governs.behind (governs : Governs options p ctx) (n : Node) :
    Governs options (p.behind n) ctx :=
  ⟨governs.options, governs.constant⟩

theorem Governs.enterBranch (governs : Governs options p ctx) (scope : Scope) (aliases : AliasMap) :
    Governs options (p.enter scope) (ctx.enterBranch aliases) :=
  ⟨governs.options, governs.constant⟩

/-- The scope of a walked block of a source tree lists the aliases of the block. -/
theorem Orderly.aliasFor_commit {assigned : Assigned String}
    (h : Orderly names ctx st body inner) (walk : Statements ctx st body out inner)
    (entered : st.frame = .enter scope assigned) (plain : scope.isPlain) (c : Computation) :
    (inner.frame.commit scope).aliasFor? c = inner.frame.aliases.get? c := by
  have free : ∀ target ∈ Node.assignmentsOf body, inner.holders.get? target = none := by
    intro target assigned
    cases held : inner.holders.get? target with
    | none => rfl
    | some c =>
      have listed := h.listed target c held
      rw [h.free target assigned] at listed
      cases listed
  have tidied : Tidied (fun name => inner.holders.get? name) [] out inner :=
    walk.tidied h.plain free (fun _ _ held => held) h.empty (tracked_enter plain entered)
  have entries := tidied.tracked.entries
  rw [Scope.aliasFor?, OrderedMap.get?, OrderedMap.get?, toList_commit plain entries, entries]

/-- In a function, what it has in sight is in its scope. -/
theorem Orderly.sees_function (h : Orderly names (ctx.enterFunction ⟨body, scope⟩)
      (st.enterFunction ⟨body, scope⟩) body inner)
    (walk : Statements (ctx.enterFunction ⟨body, scope⟩) (st.enterFunction ⟨body, scope⟩) body out
      inner) (plain : scope.isPlain) (kept : List Node) :
    Sees (ctx.enterFunction ⟨body, scope⟩) inner (.start ⟨kept, inner.frame.commit scope⟩) := by
  intro c name visible
  have same := h.aliasFor_commit walk rfl plain c
  rw [visibleAlias_eq] at visible
  simp only [Place.alias?, Place.start, List.findSome?_cons, List.findSome?_nil, same]
  cases found : inner.frame.aliases.get? c with
  | none =>
    rw [found] at visible
    cases visible
  | some other =>
    rw [found] at visible
    exact visible

/-- In a branch, what it has in sight is in its scope, or in sight behind the branch. -/
theorem Orderly.sees_branch
    (h : Orderly names (ctx.enterBranch before.frame.aliases) (st.enterBranch scope) body inner)
    (walk : Statements (ctx.enterBranch before.frame.aliases) (st.enterBranch scope) body out inner)
    (plain : scope.isPlain) (around : Sees ctx before q) :
    Sees (ctx.enterBranch before.frame.aliases) inner (q.enter (inner.frame.commit scope)) := by
  intro c name visible
  have same := h.aliasFor_commit walk rfl plain c
  rw [visibleAlias_eq] at visible
  simp only [Place.alias?, Place.enter, List.findSome?_cons, same]
  cases found : inner.frame.aliases.get? c with
  | none =>
    rw [found] at visible
    exact around c name visible
  | some other =>
    rw [found] at visible
    exact visible

/-- The walk of a body at a place: what is noted on its sites, and what is reported of them. -/
structure Surveyed (options : Options) (p q : Place) (source kept : List Node)
    (reads reads' : List Read) : Prop where
  sites : List.Forall₂ (Site.Noted options) (Node.sitesOf p source) (Node.sitesOf q kept)
  reads : reads'.map Read.occurrence = reads.map Read.occurrence ++ Node.occurrencesOf kept

theorem Surveyed.cons {first second third : List Read}
    (sites : List.Forall₂ (Site.Noted options) (n.sites p) (n'.sites q))
    (reads : second.map Read.occurrence = first.map Read.occurrence ++ n'.occurrences)
    (later : Surveyed options (p.behind n) (q.behind n') rest rest' second third) :
    Surveyed options p q (n :: rest) (n' :: rest') first third := by
  refine ⟨List.rel_append sites later.sites, ?_⟩
  rw [later.reads, reads, Node.occurrencesOf_cons, List.append_assoc]

/-- The expression of a statement of a block: the definitions in front of the statement are skipped,
the site is noted, and its placeholders are reported. -/
theorem Orderly.surveyed {e e' : Node} (h : Orderly names ctx st source last)
    (walk : Operands ctx st.beginStatement [e] [e'] next)
    (keeps : ∀ name c, next.holders.get? name = some c → last.holders.get? name = some c)
    (governs : Governs options p ctx) (known : Knows globals p.parameters p.paths st)
    (sees : Sees ctx next q) :
    Sighted ctx next ∧ (∀ d ∈ next.frame.pending, d.setsOne names = true) ∧
      Knows globals p.parameters p.paths next ∧ Site.Noted options ⟨p, e⟩ ⟨q, e'⟩ ∧
      next.reads.map Read.occurrence = st.reads.map Read.occurrence ++ e'.occurrences := by
  obtain ⟨draws, definitions⟩ := h.draws walk keeps
  have begun : Knows globals p.parameters p.paths st.beginStatement :=
    ⟨known.globals, known.assigned⟩
  have notes := walk.notes governs begun sees
  have reported := walk.reported
  simp only [Node.occurrencesOf_cons, Node.occurrencesOf_nil, List.append_nil] at reported
  exact ⟨draws.sighted, fun d member => (definitions d member).1, walk.knows begun,
    ⟨walk.bare_eq, notes.1⟩, reported⟩

end Blocks

/-- The walk of a body of a source tree notes on each site what its place determines, and reports the
placeholders that are no part of definitions. -/
theorem Statements.surveyed {options : Options} {globals : OrderedSet String} {ctx : Context}
    {names : String → Bool} {p q : Place} {st last : State} {source out : List Node}
    (h : Statements ctx st source out last) (orderly : Orderly names ctx st source last)
    (governs : Governs options p ctx) (known : Knows globals p.parameters p.paths st)
    (sees : Sees ctx last q) :
    Surveyed options p q source (Node.prunedBody names out) st.reads last.reads := by
  -- a block is followed in the source and in the analysed tree at once; what the place in the
  -- analysed tree has of aliases is only complete at the end of the block, so `sees` is about `last`
  induction h generalizing names p q with
  | nil => exact ⟨.nil, (List.append_nil _).symm⟩
  | @function ctx st inner last body walked rest rest' scope span name inside later insideIH ih =>
    have plain := orderly.plain
    simp only [Node.areStatements, Node.isStatement, Bool.and_eq_true] at plain
    obtain ⟨⟨plainScope, plainBody⟩, -⟩ := plain
    -- inside, the names to skip are those of the aliases of this function
    have within := enterFunction_orderly plainScope plainBody inside
    have entered := known.enterFunction body scope
    have own := insideIH within (governs.enterFunction _) ⟨entered.globals, entered.assigned⟩
      (within.sees_function inside plainScope
        (Node.prunedBody (· ∈ Block.aliasNames ⟨walked, inner.frame.commit scope⟩) walked))
    have past : Knows globals p.parameters (extendPaths p.paths [[]])
        (st.beginStatement.leaveFunction inner).endStatement := by
      rw [extendPaths_nil]
      exact ⟨inside.globals_eq.trans known.globals, known.assigned⟩
    rw [orderly.empty, List.nil_append, Node.prunedBody_of_keep rfl]
    exact .cons own.sites own.reads
      (ih (orderly.behind (orderly.sighted.of_keeps rfl fun _ _ held => held) rfl)
        (governs.behind _) past (sees.behind _))
  | @branch ctx st tested inThen last condition condition' thenBody thenBody' rest rest' thenScope
      span test thenWalk later thenIH ih =>
    have keeps : ∀ name c, inThen.holders.get? name = some c → last.holders.get? name = some c :=
      later.keeps
    have around : Sees ctx tested q := sees.of_widens later.widens rfl
    obtain ⟨sighted, skipped, reached, noted, reads⟩ := orderly.surveyed test
      (fun name c held => keeps name c (thenWalk.keeps name c held)) governs known around
    obtain ⟨plainScope, orderlyThen⟩ := orderly.thenSide sighted keeps
    have entered : Knows globals p.parameters p.paths (tested.enterBranch thenScope) :=
      ⟨reached.globals, reached.assigned⟩
    have inside := thenIH orderlyThen (governs.enterBranch thenScope _) entered
      (orderlyThen.sees_branch thenWalk plainScope around)
    have past := reached.behindBranch (thenWalk.knows entered)
    rw [Node.prunedBody_splice skipped rfl]
    refine .cons (.cons noted inside.sites) (inside.reads.trans ?_)
      (ih (orderly.behind (sighted.of_keeps rfl thenWalk.keeps) rfl) (governs.behind _) past
        (sees.behind _))
    change tested.reads.map _ ++ _ = _
    simp [Node.pruned, reads]
  | @branches ctx st tested inThen inElse last condition condition' thenBody thenBody' elseBody
      elseBody' rest rest' thenScope elseScope span test thenWalk elseWalk later thenIH elseIH ih =>
    have keeps : ∀ name c, inElse.holders.get? name = some c → last.holders.get? name = some c :=
      later.keeps
    have keepsThen (name : String) (c : Computation) (held : inThen.holders.get? name = some c) :
        last.holders.get? name = some c := keeps name c (elseWalk.keeps name c held)
    have around : Sees ctx tested q := sees.of_widens later.widens rfl
    obtain ⟨sighted, skipped, reached, noted, reads⟩ := orderly.surveyed test
      (fun name c held => keepsThen name c (thenWalk.keeps name c held)) governs known around
    obtain ⟨plainThen, orderlyThen⟩ := orderly.thenSide sighted keepsThen
    obtain ⟨plainElse, orderlyElse⟩ := orderly.elseSide sighted thenWalk.keeps keeps
    have entered : Knows globals p.parameters p.paths (tested.enterBranch thenScope) :=
      ⟨reached.globals, reached.assigned⟩
    have onThen := thenWalk.knows entered
    have again : Knows globals p.parameters p.paths
        ((tested.leaveBranch inThen).enterBranch elseScope) := ⟨onThen.globals, reached.assigned⟩
    have first := thenIH orderlyThen (governs.enterBranch thenScope _) entered
      (orderlyThen.sees_branch thenWalk plainThen around)
    have second := elseIH orderlyElse (governs.enterBranch elseScope _) again
      (orderlyElse.sees_branch elseWalk plainElse around)
    have past := reached.behindBranches onThen (elseWalk.knows again)
    rw [Node.prunedBody_splice skipped rfl]
    refine .cons (.cons noted (List.rel_append first.sites second.sites)) (second.reads.trans ?_)
      (ih (orderly.behind (sighted.of_keeps rfl fun name c held =>
        elseWalk.keeps name c (thenWalk.keeps name c held)) rfl) (governs.behind _) past
        (sees.behind _))
    change inThen.reads.map _ ++ _ = _
    rw [first.reads]
    change tested.reads.map _ ++ _ ++ _ = _
    simp [Node.pruned, reads]
  | @assign ctx st next last value value' rest rest' span target inner later ih =>
    obtain ⟨sighted, skipped, reached, noted, reads⟩ := orderly.surveyed inner later.keeps
      governs known (sees.of_widens later.widens rfl)
    have past := reached.assign ctx target
    have user : (Node.assign span target value').setsOne names = false :=
      orderly.free target List.mem_cons_self
    rw [Node.prunedBody_splice skipped user]
    exact .cons (.cons noted .nil) reads
      (ih (orderly.behind (sighted.of_keeps rfl fun _ _ held => held) rfl) (governs.behind _)
        ⟨past.globals, past.assigned⟩ (sees.behind _))
  | @write ctx st next last operand operand' rest rest' span inner later ih =>
    obtain ⟨sighted, skipped, reached, noted, reads⟩ := orderly.surveyed inner later.keeps
      governs known (sees.of_widens later.widens rfl)
    have past : Knows globals p.parameters (extendPaths p.paths [[]]) next := by
      rwa [extendPaths_nil]
    rw [Node.prunedBody_splice skipped rfl]
    exact .cons (.cons noted .nil) reads
      (ih (orderly.behind (sighted.of_keeps rfl fun _ _ held => held) rfl) (governs.behind _)
        ⟨past.globals, past.assigned⟩ (sees.behind _))
  | @expression ctx st next last e e' rest rest' isExpression inner later ih =>
    obtain ⟨sighted, skipped, reached, noted, reads⟩ := orderly.surveyed inner later.keeps
      governs known (sees.of_widens later.widens rfl)
    have past : Knows globals p.parameters (extendPaths p.paths e.routes) next := by
      rwa [inner.routes_eq, extendPaths_nil]
    obtain ⟨-, -, -, unset⟩ := inner.own_eq
    have kept : e'.setsOne names = false := by
      rw [Node.setsOne, unset]
      rfl
    obtain ⟨alone, alone', same⟩ := inner.sites_eq names
    rw [Node.prunedBody_splice skipped kept, same]
    refine .cons ?_ reads
      (ih (orderly.behind (sighted.of_keeps rfl fun _ _ held => held) rfl) (governs.behind _)
        ⟨past.globals, past.assigned⟩ (sees.behind _))
    rw [alone, alone']
    exact .cons noted .nil

theorem governs_top (options : Options) : Governs options .top (.top options) :=
  ⟨rfl, fun name => by simp [Context.top, Place.isConstant, Place.top]⟩

theorem knows_start (globals : OrderedSet String) :
    Knows globals Place.top.parameters Place.top.paths { State.start with globals } := by
  refine ⟨rfl, fun name => ?_⟩
  have outside : name ∉ (∅ : Assigned String) := List.not_mem_nil
  simp [State.start, Frame.enter, Place.top, Place.parameters, outside]

/-- The sites and the report of an analysed tree. -/
theorem analyze_surveyed {options : Options} {root : Node} {analysis : Analysis}
    (source : root.isSource) (h : root.analyze options = .ok analysis) :
    List.Forall₂ (Site.Noted options) (root.sites .top)
        ((analysis.tree.pruned fun _ => false).sites .top) ∧
      analysis.reads.map Read.occurrence =
        (analysis.tree.pruned fun _ => false).occurrences := by
  obtain ⟨out, last, statements, shape, -, reads⟩ := analyze_started source h
  have covers := statements.covers_outside rfl
  have sees : Sees (.top options) last .top := by
    intro c name visible
    have tracked := (statements.tidied source (fun _ _ => rfl) covers rfl
      (tracked_enter (by decide) rfl)).tracked
    have introduced : last.frame.introduced = [] :=
      List.eq_nil_iff_forall_not_mem.2 fun entry member => by cases tracked.held entry member
    rw [visibleAlias_eq, OrderedMap.get?, tracked.entries, introduced] at visible
    cases visible
  have orderly : Orderly (fun _ => false) (.top options) { State.start with globals := root.globals }
      root.top last := by
    refine ⟨source, fun _ _ => rfl, fun name c held => ?_, rfl, ?_⟩
    · cases covers name c held
    · intro maps member c name found
      rw [List.mem_singleton.1 member] at found
      cases found
  have surveyed := statements.surveyed orderly (governs_top options) (knows_start root.globals) sees
  rw [Node.sites_top, shape.sites_pruned, shape.occurrences_pruned, ← reads]
  exact ⟨surveyed.sites, surveyed.reads⟩

end Analysis

end Stencil
