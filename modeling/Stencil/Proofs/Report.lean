import Stencil.Proofs.Restoration
import Stencil.Proofs.Survey

/-!
# The report of an optimisation

An optimisation reports how every placeholder of its source is read. The report is written while the
tree is analysed, before definitions move out of conditionals. It still is a list of the placeholders
of the optimised tree, in document order, those in the definitions of aliases apart: only definitions
move, and they are left out at either place (`hoistEach_occurrences`).

* `optimize_report_matches_tree`: the report, the optimised tree and the source.
-/

namespace Stencil

/-- Whether a name is that of an alias. -/
def AliasTable.holds (table : AliasTable) (name : String) : Bool := (table name).isSome

namespace Node

/-- Statements at the same place keep the same placeholders, if what is left of the first of them and
of the others does. -/
theorem occurrencesOf_prunedBody_cons {skip : String → Bool} {n n' : Node} {rest rest' : List Node}
    (target : n'.target? = n.target?)
    (own : (n'.pruned skip).occurrences = (n.pruned skip).occurrences)
    (later : occurrencesOf (prunedBody skip rest') = occurrencesOf (prunedBody skip rest)) :
    occurrencesOf (prunedBody skip (n' :: rest')) = occurrencesOf (prunedBody skip (n :: rest)) := by
  have skipped : n'.setsOne skip = n.setsOne skip := by rw [setsOne, setsOne, target]
  rw [prunedBody, prunedBody, skipped]
  split
  · exact later
  · rw [occurrencesOf_cons, occurrencesOf_cons, own, later]

end Node

namespace Hoisting

/-- A definition that leaves a body is skipped, and nothing else is lost. -/
theorem definition?_pruned {skip : String → Bool} {name : String} {body rest : List Node}
    {taken : Node} (h : definition? name body = some (taken, rest)) (held : skip name = true) :
    taken.setsOne skip = true ∧ Node.prunedBody skip rest = Node.prunedBody skip body := by
  obtain ⟨front, back, place, value, rfl, -, rfl, rfl⟩ := definition?_split h
  have skipped : (Node.assign place name value).setsOne skip = true := held
  refine ⟨skipped, ?_⟩
  rw [Node.prunedBody_append, Node.prunedBody_append, Node.prunedBody_of_skip skipped]

/-- In an exchange only definitions leave the branches. -/
theorem exchange_pruned (skip : String → Bool) (span : Span) (thenBranch elseBranch : Block Node)
    (enclosing : Scope) (held : ∀ entry ∈ thenBranch.scope.aliases.toList, skip entry.2 = true) :
    (∀ d ∈ (exchange span thenBranch elseBranch enclosing).moved, d.setsOne skip = true) ∧
      Node.prunedBody skip (exchange span thenBranch elseBranch enclosing).thenBranch.body =
        Node.prunedBody skip thenBranch.body ∧
      Node.prunedBody skip (exchange span thenBranch elseBranch enclosing).elseBranch.body =
        Node.prunedBody skip elseBranch.body := by
  apply exchange_induction (P := fun x => (∀ d ∈ x.moved, d.setsOne skip = true) ∧
    Node.prunedBody skip x.thenBranch.body = Node.prunedBody skip thenBranch.body ∧
    Node.prunedBody skip x.elseBranch.body = Node.prunedBody skip elseBranch.body)
  · exact ⟨fun _ member => absurd member List.not_mem_nil, rfl, rfl⟩
  · rintro x ⟨c, name⟩ member ⟨moved, inThen, inElse⟩
    have held : skip name = true := held (c, name) member
    unfold Exchange.move
    simp only
    split
    · rename_i definition thenBody other elseBody leavesThen leavesElse
      obtain ⟨skipped, sameThen⟩ := definition?_pruned leavesThen held
      obtain ⟨-, sameElse⟩ := definition?_pruned leavesElse held
      refine ⟨fun d among => ?_, sameThen.trans inThen, sameElse.trans inElse⟩
      rcases List.mem_append.1 among with before | here
      · exact moved d before
      · rw [List.mem_singleton.1 here]
        exact skipped
    · exact ⟨moved, inThen, inElse⟩

section Passes

variable {table : AliasTable} {assigned after : Assigned String} {defined : List String}
  {source out : List Node}

/-- Moving definitions out of the conditionals of a body. -/
theorem lift_occurrences (h : Expanded table assigned defined source out after) (scope : Scope) :
    Node.occurrencesOf (Node.prunedBody table.holds (lift out scope).1) =
      Node.occurrencesOf (Node.prunedBody table.holds out) := by
  induction h generalizing scope with
  | nil => rfl
  | define _ _ _ _ ih | assign _ _ _ _ ih | write _ _ _ ih | branch _ _ _ _ _ _ ih
  | function _ _ _ _ _ _ _ _ ih => exact Node.occurrencesOf_prunedBody_cons rfl rfl (ih scope)
  | expression noted _ ih =>
    rw [(lift_cons_of_resolved noted.resolved _ scope).1]
    exact Node.occurrencesOf_prunedBody_cons rfl rfl (ih scope)
  | @branches table _ _ _ _ _ _ out _ thenBody _ elseBody _ condition _ thenScope _ elseScope span _
      thenLists _ _ _ _ _ _ ih =>
    obtain ⟨moved, inThen, inElse⟩ := exchange_pruned table.holds span
      ⟨thenBody, thenScope⟩ ⟨elseBody, elseScope⟩ scope fun entry member => by
        rw [AliasTable.holds, thenLists entry member]
        rfl
    unfold lift
    simp only
    generalize exchange span ⟨thenBody, thenScope⟩ ⟨elseBody, elseScope⟩ scope = x at *
    rw [Node.prunedBody_append, Node.prunedBody_eq_nil moved, List.nil_append]
    refine Node.occurrencesOf_prunedBody_cons rfl ?_ (ih x.enclosing)
    obtain ⟨⟨thenLeft, _⟩, ⟨elseLeft, _⟩, _, _, _⟩ := x
    simp only at inThen inElse
    simp only [Node.pruned, Node.occurrences_branches, inThen, inElse]

/-- The aliases that a function lists are those that it holds. -/
theorem prunedBody_aliasNames {inner : AliasTable} {inside : Assigned String} {body body' : List Node}
    {scope scope' : Scope} (within : Expanded inner assigned defined body body' inside)
    (lists : ListsIntroduced ⟨body, scope⟩ ⟨body', scope'⟩) :
    Node.prunedBody (· ∈ Block.aliasNames ⟨body', scope'⟩) body' =
      Node.prunedBody inner.holds body' := by
  apply Node.prunedBody_congr
  intro name member
  rw [Bool.eq_iff_iff, decide_eq_true_eq, lists name, within.mem_introduced, AliasTable.holds]
  exact and_iff_right member

/-- Moving definitions everywhere below a body. -/
theorem hoistEach_occurrences (h : Expanded table assigned defined source out after)
    (listed : List.Forall₂ (fun f a => ListsIntroduced f a ∧ ListsIntroduced f a.hoisted)
      (Node.functionsOf source) (Node.functionsOf out)) :
    Node.occurrencesOf (Node.prunedBody table.holds (hoistEach out).1) =
      Node.occurrencesOf (Node.prunedBody table.holds out) := by
  induction h with
  | nil => rfl
  | define _ _ definition _ ih =>
    rw [Node.functionsOf_cons, Node.functions_assign, definition.functions_eq] at listed
    simp only [hoistEach, hoist, hoist_of_definition definition]
    exact Node.occurrencesOf_prunedBody_cons rfl rfl (ih listed)
  | assign _ _ noted _ ih =>
    simp only [Node.functionsOf_cons, Node.functions_assign, noted.functions_eq] at listed
    simp only [hoistEach, hoist, hoist_of_resolved _ noted.resolved]
    exact Node.occurrencesOf_prunedBody_cons rfl rfl (ih listed)
  | write _ noted _ ih =>
    simp only [Node.functionsOf_cons, Node.functions_write, noted.functions_eq] at listed
    simp only [hoistEach, hoist, hoist_of_resolved _ noted.resolved]
    exact Node.occurrencesOf_prunedBody_cons rfl rfl (ih listed)
  | expression noted _ ih =>
    simp only [Node.functionsOf_cons, noted.functions_eq] at listed
    simp only [hoistEach, hoist_of_resolved _ noted.resolved]
    exact Node.occurrencesOf_prunedBody_cons rfl rfl (ih listed)
  | @branch table _ _ _ _ _ out _ thenBody condition condition' _ thenScope span noted lists
      thenSide _ thenIH ih =>
    simp only [Node.functionsOf_cons, Node.functions_branch, noted.functions_eq] at listed
    obtain ⟨below, behind⟩ := forall₂_of_append listed thenSide.functions.length_eq
    have inThen := (lift_occurrences (hoistEach_expanded thenSide).1 thenScope).trans (thenIH below)
    simp only [hoistEach, hoist, hoist_of_resolved _ noted.resolved]
    refine Node.occurrencesOf_prunedBody_cons rfl ?_ (ih behind)
    simp only [Node.pruned, Node.occurrences_branch, inThen]
  | @branches table _ _ _ _ _ _ out _ thenBody _ elseBody _ condition' _ thenScope _ elseScope span
      noted thenLists elseLists thenSide elseSide _ thenIH elseIH ih =>
    simp only [Node.functionsOf_cons, Node.functions_branches, noted.functions_eq,
      List.nil_append, List.append_assoc] at listed
    obtain ⟨belowThen, others⟩ := forall₂_of_append listed thenSide.functions.length_eq
    obtain ⟨belowElse, behind⟩ := forall₂_of_append others elseSide.functions.length_eq
    have inThen :=
      (lift_occurrences (hoistEach_expanded thenSide).1 thenScope).trans (thenIH belowThen)
    have inElse :=
      (lift_occurrences (hoistEach_expanded elseSide).1 elseScope).trans (elseIH belowElse)
    simp only [hoistEach, hoist, hoist_of_resolved _ noted.resolved]
    refine Node.occurrencesOf_prunedBody_cons rfl ?_ (ih behind)
    simp only [Node.pruned, Node.occurrences_branches, inThen, inElse]
  | @function table inner assigned inside after defined source out body body' scope scope' span name
      constant lists affordable within _ withinIH ih =>
    rw [Node.functionsOf_cons, Node.functionsOf_cons, Node.functions_function,
      Node.functions_function, List.cons_append, List.cons_append, List.forall₂_cons] at listed
    obtain ⟨⟨own, own'⟩, others⟩ := listed
    obtain ⟨below, behind⟩ := forall₂_of_append others within.functions.length_eq
    obtain ⟨within', -⟩ := hoistEach_expanded within
    obtain ⟨lifted, -, -⟩ := lift_expanded within' lists
    simp only [hoistEach, hoist]
    refine Node.occurrencesOf_prunedBody_cons rfl ?_ (ih behind)
    -- before and after the pass, the definitions of a function are those of the same table
    rw [Node.pruned, Node.pruned, Node.occurrences_function, Node.occurrences_function,
      prunedBody_aliasNames within own]
    refine (congrArg Node.occurrencesOf (prunedBody_aliasNames lifted own')).trans ?_
    rw [lift_occurrences within' scope', withinIH below]

end Passes

end Hoisting

section Trees

variable {options : Options} {root : Node} {o : Optimization}

theorem optimize_reads {analysis : Analysis} (h : root.optimize options = .ok o)
    (analyzed : root.analyze options = .ok analysis) : o.reads = analysis.reads := by
  unfold Node.optimize at h
  rw [analyzed] at h
  cases h
  rfl

/-- The functions of an analysed tree list their aliases, before and after the hoisting pass. -/
theorem analyze_lists_introduced {analysis : Analysis} (source : root.isSource)
    (h : root.analyze options = .ok analysis) :
    List.Forall₂ (fun f a => ListsIntroduced f a ∧ ListsIntroduced f a.hoisted) root.functions
      analysis.tree.functions := by
  refine (Analysis.analyze_functions source h).imp ?_
  rintro f a ⟨table, after, optimizes, registers⟩
  have lists (options : Options) : ListsIntroduced f (a.finished options) := by
    intro name
    rw [(optimizes.finished options).expanded.mem_introduced]
    exact registers.mem_aliasNames_finished optimizes
  exact ⟨lists {}, lists { hoistAliases := true }⟩

/-- What the optimised tree keeps of its source has the placeholders that it has in the analysed
tree. -/
theorem hoistAliases_occurrences {analysis : Analysis} (source : root.isSource)
    (h : root.analyze options = .ok analysis) :
    ((analysis.tree.hoistAliases options).1.pruned fun _ => false).occurrences =
      (analysis.tree.pruned fun _ => false).occurrences := by
  obtain ⟨out, after, expanded, shape⟩ := Analysis.analyze_expanded source h
  have listed := analyze_lists_introduced source h
  rw [Node.functions_eq_top root, shape.functions_eq] at listed
  unfold Node.hoistAliases
  split
  · rw [(Hoisting.hoist_retopped shape).occurrences_pruned, shape.occurrences_pruned]
    exact Hoisting.hoistEach_occurrences expanded listed
  · rfl

end Trees

/-- The definition of an alias in an optimised function looks a placeholder up by its name, or reads
none. -/
theorem Optimizes.definition_occurrences {table : AliasTable} {after : Assigned String}
    {f g block : Block Node} (h : Optimizes table after f g) (member : block ∈ g.blocks) {n : Node}
    (among : n ∈ block.body) (held : n.setsOne table.holds = true) {occurrence : Occurrence}
    (inside : occurrence ∈ n.occurrences) : occurrence.resolution = some ⟨true, .dynamic⟩ := by
  cases n with
  | assign span target value =>
    rcases h.expanded.definition_cases (Block.mem_statementsOf member _ among) with
      user | ⟨c, ready, -, definition⟩
    · have free : table target = none := h.expanded.target_free user
      change (table target).isSome = true at held
      rw [free] at held
      cases held
    · cases definition with
      | lookup =>
        have same := List.mem_singleton.1 inside
        subst same
        rfl
      | filter => cases inside
  | template | function | conditional | write | identifier | placeholder | literal | binary | filter
  | call | list => cases held

/-- The report lists the placeholders of the optimised tree in document order, except those in the
definitions of the aliases of its functions, which are looked up by their names and count as always
evaluated. It has one entry for every placeholder of the source. -/
theorem optimize_report_matches_tree (options : Options) (root : Node) (o : Optimization)
    (source : root.isSource) (h : root.optimize options = .ok o) :
    o.reads.map Analysis.Read.occurrence = (o.tree.pruned fun _ => false).occurrences ∧
    List.Forall₂ (fun f g =>
        (∀ name, name ∈ g.aliasNames ↔ name ∈ f.introduced g) ∧
        ∀ block ∈ g.blocks, ∀ n ∈ block.body, n.setsOne (· ∈ g.aliasNames) = true →
          ∀ occurrence ∈ n.occurrences, occurrence.resolution = some ⟨true, .dynamic⟩)
      root.functions o.tree.functions ∧
    o.reads.map (fun read => read.occurrence.bare) = root.occurrences.map Occurrence.bare ∧
    o.reads.length = root.occurrences.length := by
  obtain ⟨analysis, analyzed, result⟩ := optimize_analysis h
  obtain ⟨sites, reported⟩ := Analysis.analyze_surveyed source analyzed
  have reads := optimize_reads h analyzed
  have bare : o.reads.map (fun read => read.occurrence.bare) =
      root.occurrences.map Occurrence.bare := by
    have same := Site.occurrences_of_noted sites
    rw [Node.occurrences_sites, Node.occurrences_sites, ← reported, List.map_map] at same
    rw [reads]
    exact same
  refine ⟨?_, ?_, bare, ?_⟩
  · rw [reads, reported, result, hoistAliases_occurrences source analyzed]
  · rw [result, functions_hoistAliases, List.forall₂_map_right_iff]
    refine (Analysis.analyze_functions source analyzed).imp ?_
    rintro f a ⟨table, after, optimizes, registers⟩
    have finished := optimizes.finished options
    have listed (name : String) : name ∈ (a.finished options).aliasNames ↔
        name ∈ (a.finished options).assignments ∧ (table name).isSome :=
      registers.mem_aliasNames_finished optimizes
    refine ⟨fun name => (listed name).trans finished.expanded.mem_introduced.symm, ?_⟩
    intro block member n among sets occurrence inside
    refine finished.definition_occurrences member among ?_ inside
    rw [Node.setsOne, Option.any_eq_true] at sets ⊢
    obtain ⟨name, target, lists⟩ := sets
    exact ⟨name, target, ((listed name).1 (of_decide_eq_true lists)).2⟩
  · have length := congrArg List.length bare
    rwa [List.length_map, List.length_map] at length

/-- A template with a function whose branches both read `foo` and filter it, so that these definitions
move. One branch has a function inside, and the other sets a variable that looks like an alias. -/
def relocated : Node :=
  let value (name : String) := Node.placeholder .generated name none
  let trim (value : Node) := Node.filter .generated value (some "trim") none
  .template .generated "relocated" ∅
    [.write .generated (value "foo"),
      .function .generated "page" (.plain
        [.conditional .generated (.binary .generated .or (value "baz") (value "foo"))
            (.plain [.write .generated (trim (value "foo")),
              .function .generated "inside" (.plain [.write .generated (value "bar")])])
            (some (.plain [.assign .generated "_rph_bar" (value "bar"),
              .write .generated (trim (value "foo"))])),
          .write .generated (.list .generated [value "bar", value "_rph_bar"])])]

/-- The tree has five placeholders more than the report, those that define aliases for `baz`, for
`foo` and for `bar` in three blocks. The definitions for `foo` and for its filter have moved. -/
theorem relocated_optimize :
    ∃ o, relocated.optimize .caching = .ok o ∧ o.reads.length = 9 ∧
      o.tree.occurrences.length = 14 ∧ o.hoists.length = 4 :=
  ⟨_, rfl, by decide +kernel⟩

theorem relocated_report_matches_tree :
    ∃ o, relocated.isSource = true ∧ relocated.optimize .caching = .ok o ∧
      o.tree.occurrences.length = 14 ∧ o.hoists.length = 4 ∧
      o.reads.map Analysis.Read.occurrence = (o.tree.pruned fun _ => false).occurrences ∧
      (∀ g ∈ o.tree.functions, ∀ block ∈ g.blocks, ∀ n ∈ block.body,
        n.setsOne (· ∈ g.aliasNames) = true →
        ∀ occurrence ∈ n.occurrences, occurrence.resolution = some ⟨true, .dynamic⟩) ∧
      o.reads.length = relocated.occurrences.length := by
  obtain ⟨o, optimized, -, all, moved⟩ := relocated_optimize
  obtain ⟨reads, functions, -, length⟩ :=
    optimize_report_matches_tree .caching relocated o (by decide) optimized
  refine ⟨o, by decide, optimized, all, moved, reads, fun g member => ?_, length⟩
  obtain ⟨f, -, definitions⟩ := exists_of_forall₂ functions member
  exact definitions

end Stencil
