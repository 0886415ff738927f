import Stencil.Proofs.Echo
import Stencil.Proofs.FixedPoint
import Stencil.Proofs.Reanalysis

/-!
# Optimising twice

A second run of the optimiser finds the scopes and the notes of the first. Where a scope lists an
alias for a placeholder, the run reads the placeholder from the alias wherever it is always read,
and so also in the definition of the alias. A tree with aliases never stays as it is: the first
definition in a body is one of a placeholder (`Expanded.no_alias`), an alias that is defined is used
(`Optimizes.exists_cached`), and the hoisting pass brings no look-up back (`hoist_dwindles`).

The scope of a function also declares what its body sets, and what is declared counts as assigned
from the start. With direct access a variable that was looked up before it was set is then read
directly.

Main statement: `optimize_idempotent_iff`. Nothing else keeps a second run from changing nothing.
-/

namespace Stencil

namespace Hoisting

/-- A block and what the pass makes of it: no placeholder comes into it. -/
def Shrinks (block hoisted : Block Node) : Prop :=
  Node.placeholdersOf hoisted.body ⊆ Node.placeholdersOf block.body

theorem shrinks_refl (blocks : List (Block Node)) : List.Forall₂ Shrinks blocks blocks :=
  List.forall₂_same.2 fun _ _ => List.Subset.refl _

theorem shrinks_trans {first second third : List (Block Node)}
    (h : List.Forall₂ Shrinks first second) (h' : List.Forall₂ Shrinks second third) :
    List.Forall₂ Shrinks first third := by
  induction h generalizing third with
  | nil => exact h'
  | cons here _ ih =>
    cases h' with
    | cons here' behind => exact .cons (List.Subset.trans here' here) (ih behind)

/-- The branches and placeholders of a part of a tree, before and after the pass. -/
structure Dwindles (branches branches' : List (Block Node)) (reads reads' : List Occurrence) :
    Prop where
  blocks : List.Forall₂ Shrinks branches branches'
  reads : reads' ⊆ reads

section Dwindles

variable {branches branches' branches'' more more' : List (Block Node)}
  {reads reads' reads'' further further' : List Occurrence}

theorem Dwindles.refl : Dwindles branches branches reads reads :=
  ⟨shrinks_refl _, List.Subset.refl _⟩

theorem Dwindles.trans (first : Dwindles branches branches' reads reads')
    (second : Dwindles branches' branches'' reads' reads'') :
    Dwindles branches branches'' reads reads'' :=
  ⟨shrinks_trans first.blocks second.blocks, List.Subset.trans second.reads first.reads⟩

theorem Dwindles.append (first : Dwindles branches branches' reads reads')
    (second : Dwindles more more' further further') :
    Dwindles (branches ++ more) (branches' ++ more') (reads ++ further) (reads' ++ further') := by
  refine ⟨List.rel_append first.blocks second.blocks, List.append_subset.2 ⟨?_, ?_⟩⟩
  · exact List.subset_append_of_subset_left _ first.reads
  · exact List.subset_append_of_subset_right _ second.reads

/-- The block in which a list of statements stands. -/
theorem Dwindles.block {body out : List Node} (scope scope' : Scope)
    (h : Dwindles (Node.branchesOf body) (Node.branchesOf out) (Node.placeholdersOf body)
      (Node.placeholdersOf out)) :
    Dwindles (Block.blocks ⟨body, scope⟩) (Block.blocks ⟨out, scope'⟩) (Node.placeholdersOf body)
      (Node.placeholdersOf out) :=
  ⟨.cons h.reads h.blocks, h.reads⟩

end Dwindles

/-- The statements that an exchange leaves in the branches or moves were in the branches. -/
theorem exchange_subset (span : Span) (thenBranch elseBranch : Block Node) (enclosing : Scope) :
    (exchange span thenBranch elseBranch enclosing).thenBranch.body ⊆ thenBranch.body ∧
      (exchange span thenBranch elseBranch enclosing).elseBranch.body ⊆ elseBranch.body ∧
      (exchange span thenBranch elseBranch enclosing).moved ⊆ thenBranch.body := by
  refine exchange_induction (P := fun x => x.thenBranch.body ⊆ thenBranch.body ∧
    x.elseBranch.body ⊆ elseBranch.body ∧ x.moved ⊆ thenBranch.body) span thenBranch elseBranch
    enclosing ⟨List.Subset.refl _, List.Subset.refl _, List.nil_subset _⟩ ?_
  rintro x ⟨c, name⟩ - ⟨inThen, inElse, before⟩
  rcases x.move_cases span c name with ⟨same, -⟩ | ⟨_, _, _, _, leavesThen, leavesElse, moved⟩
  · rw [same]
    exact ⟨inThen, inElse, before⟩
  · obtain ⟨taken, restThen⟩ := definition?_subset leavesThen
    obtain ⟨-, restElse⟩ := definition?_subset leavesElse
    rw [moved]
    refine ⟨List.Subset.trans restThen inThen, List.Subset.trans restElse inElse,
      List.append_subset.2 ⟨before, ?_⟩⟩
    intro n member
    rw [List.mem_singleton.1 member]
    exact inThen taken

/-- A conditional, together with the definitions that leave its branches. -/
theorem exchange_dwindles (span : Span) (condition : Node) (thenBranch elseBranch : Block Node)
    (enclosing : Scope) {x : Exchange} (h : exchange span thenBranch elseBranch enclosing = x) :
    Dwindles (Node.conditional span condition thenBranch (some elseBranch)).branches
      (Node.branchesOf (x.moved ++ [.conditional span condition x.thenBranch (some x.elseBranch)]))
      (Node.conditional span condition thenBranch (some elseBranch)).placeholders
      (Node.placeholdersOf
        (x.moved ++ [.conditional span condition x.thenBranch (some x.elseBranch)])) := by
  obtain ⟨inThen, inElse, moved⟩ := exchange_subset span thenBranch elseBranch enclosing
  obtain ⟨thenBranches, elseBranches⟩ := branches_exchange span thenBranch elseBranch enclosing
  have flat := Node.branchesOf_eq_nil fun n member =>
    (moved_exchange span thenBranch elseBranch enclosing n member).1
  rw [h] at inThen inElse moved thenBranches elseBranches flat
  have inThen := Node.placeholdersOf_subset inThen
  have inElse := Node.placeholdersOf_subset inElse
  have moved := Node.placeholdersOf_subset moved
  constructor
  · rw [Node.branchesOf_append, flat, List.nil_append, Node.branchesOf, Node.branchesOf,
      List.append_nil, Node.branches_branches, Node.branches_branches]
    refine List.rel_append (List.rel_append (shrinks_refl _) (.cons inThen ?_)) (.cons inElse ?_)
    · rw [thenBranches]
      exact shrinks_refl _
    · rw [elseBranches]
      exact shrinks_refl _
  · rw [Node.placeholdersOf_append, Node.placeholdersOf, Node.placeholdersOf, List.append_nil,
      Node.placeholders_branches, Node.placeholders_branches]
    intro o member
    simp only [List.mem_append] at member ⊢
    rcases member with left | test | inside | inside
    · exact .inr (.inl (moved left))
    · exact .inl test
    · exact .inr (.inl (inThen inside))
    · exact .inr (.inr (inElse inside))

/-- Moving definitions out of the conditionals of a body brings no placeholder into a block. -/
theorem lift_dwindles (body : List Node) (scope : Scope) :
    Dwindles (Node.branchesOf body) (Node.branchesOf (lift body scope).1)
      (Node.placeholdersOf body) (Node.placeholdersOf (lift body scope).1) := by
  fun_induction lift body scope with
  | case1 => exact .refl
  | case2 span condition thenBranch elseBranch rest scope x lifted after events same ih =>
    rw [same] at ih
    have both := (exchange_dwindles span condition thenBranch elseBranch scope rfl).append ih
    rwa [← Node.branchesOf_append, ← Node.placeholdersOf_append, List.append_assoc] at both
  | case3 scope n rest other lifted after events same ih =>
    rw [same] at ih
    exact Dwindles.refl.append ih

mutual

theorem hoist_dwindles (n : Node) :
    Dwindles n.branches (hoist n).1.branches n.placeholders (hoist n).1.placeholders := by
  cases n with
  | template span name globals body => exact hoistEach_dwindles body
  | function span name block => exact .refl
  | conditional span condition thenBranch elseBranch =>
    obtain ⟨thenBody, thenScope⟩ := thenBranch
    have test := hoist_dwindles condition
    have inThen :=
      (hoistEach_dwindles thenBody).trans (lift_dwindles (hoistEach thenBody).1 thenScope)
    cases elseBranch with
    | none => exact test.append (inThen.block _ _)
    | some block =>
      obtain ⟨elseBody, elseScope⟩ := block
      have inElse :=
        (hoistEach_dwindles elseBody).trans (lift_dwindles (hoistEach elseBody).1 elseScope)
      exact ⟨((test.append (inThen.block _ _)).append (inElse.block _ _)).blocks,
        (test.append (inThen.append inElse)).reads⟩
  | assign span target value => exact hoist_dwindles value
  | identifier | placeholder | literal => exact .refl
  | binary span op left right => exact (hoist_dwindles left).append (hoist_dwindles right)
  | filter span operand name cachedAs => exact hoist_dwindles operand
  | call span callee arguments =>
    exact (hoist_dwindles callee).append (hoistEach_dwindles arguments)
  | list span items => exact hoistEach_dwindles items
  | write span operand => exact hoist_dwindles operand
termination_by structural n

theorem hoistEach_dwindles (ns : List Node) :
    Dwindles (Node.branchesOf ns) (Node.branchesOf (hoistEach ns).1) (Node.placeholdersOf ns)
      (Node.placeholdersOf (hoistEach ns).1) := by
  cases ns with
  | nil => exact .refl
  | cons n rest => exact (hoist_dwindles n).append (hoistEach_dwindles rest)
termination_by structural ns

end

theorem quiet_of_unlisted {body : List Node}
    (unlisted : ∀ block ∈ Node.branchesOf body, block.scope.Unlisted) : Quiet body := by
  intro span condition thenBranch elseBranch among entry shared
  obtain ⟨there, -⟩ := Node.mem_branchesOf_of_conditional among
  cases (unlisted thenBranch there entry.1).symm.trans (mem_shared.1 shared).1

end Hoisting

/-- No pass brings a placeholder into a block of a function. -/
theorem Block.finished_dwindles (options : Options) (block : Block Node) :
    Hoisting.Dwindles block.blocks (block.finished options).blocks block.placeholders
      (block.finished options).placeholders := by
  unfold Block.finished
  split
  · exact ((Hoisting.hoistEach_dwindles block.body).trans
      (Hoisting.lift_dwindles (Hoisting.hoistEach block.body).1 block.scope)).block _ _
  · exact .refl

section Lookups

variable {table : AliasTable} {assigned after : Assigned String} {defined : List String}
  {source out : List Node}

/-- The first definition of an alias in a body looks a placeholder up. -/
theorem Expanded.no_alias (h : Expanded table assigned defined source out after)
    (before : ∀ name ∈ defined, table name = none)
    (filters : ∀ name ∈ Node.assignmentsOf out, ∀ read, table name ≠ some (.placeholder read)) :
    ∀ name ∈ Node.assignmentsOf out, table name = none := by
  have behind {defined : List String} {target : String} {table : AliasTable}
      (before : ∀ name ∈ defined, table name = none) (free : table target = none) :
      ∀ name ∈ defined ++ [target], table name = none := by
    intro name member
    rcases List.mem_append.1 member with old | new
    · exact before name old
    · rwa [List.mem_singleton.1 new]
  induction h with
  | nil =>
    intro name member
    cases member
  | define span held definition later ih =>
    rw [Node.assignmentsOf, Node.assignments, List.cons_append, List.forall_mem_cons] at filters
    cases definition with
    | lookup place name => exact absurd held (filters.1 name)
    | filter place inner name ready known =>
      rw [before _ ready] at known
      cases known
  | assign span free noted later ih =>
    simp only [Node.assignmentsOf, Node.assignments, Node.Resolved.assignments_eq _ noted.resolved,
      List.cons_append, List.nil_append, List.forall_mem_cons] at filters ⊢
    exact ⟨free, ih (behind before free) filters.2⟩
  | write span noted later ih | expression noted later ih =>
    simp only [Node.assignmentsOf, Node.assignments, Node.Resolved.assignments_eq _ noted.resolved,
      List.nil_append] at filters ⊢
    exact ih before filters
  | branch span noted lists thenSide later thenIH ih =>
    simp only [Node.assignmentsOf, Node.assignments, Node.Resolved.assignments_eq _ noted.resolved,
      List.nil_append, List.forall_mem_append] at filters ⊢
    exact ⟨thenIH before filters.1, ih before filters.2⟩
  | branches span noted thenLists elseLists thenSide elseSide later thenIH elseIH ih =>
    simp only [Node.assignmentsOf, Node.assignments, Node.Resolved.assignments_eq _ noted.resolved,
      List.nil_append, List.forall_mem_append] at filters ⊢
    exact ⟨⟨thenIH before filters.1.1, elseIH before filters.1.2⟩, ih before filters.2⟩
  | function span name constant lists affordable within later _ ih => exact ih before filters

/-- The block in whose scope the alias of a placeholder stands looks the placeholder up. -/
theorem Block.Coherent.exists_lookup {before : List String} {block : Block Node}
    (coherent : block.Coherent table) (expanded : Expanded table assigned before source out after)
    (inside : ∀ n ∈ block.body, n ∈ Node.statementsOf out) {read name : String}
    (found : block.scope.aliases.get? (.placeholder read) = some name) :
    ∃ o ∈ Node.placeholdersOf block.body, o.name = read ∧ o.resolution = some ⟨true, .dynamic⟩ := by
  obtain ⟨span, value, ready, among, definition⟩ :=
    coherent.exists_definition expanded inside found
  cases definition with
  | lookup place =>
    exact ⟨⟨read, place, some ⟨true, .dynamic⟩⟩,
      Node.mem_placeholdersOf.2 ⟨_, among, List.mem_singleton.2 rfl⟩, rfl, rfl⟩

end Lookups

theorem Block.unlisted_iff {block : Block Node} :
    (∀ inner ∈ block.blocks, inner.scope.Unlisted) ↔ ∀ name, name ∉ block.aliasNames := by
  simp only [Block.mem_aliasNames_iff, Scope.Unlisted, Scope.aliasFor?,
    Option.eq_none_iff_forall_ne_some]
  grind

section Kept

variable {options : Options} {globals : OrderedSet String} {table : AliasTable}
  {after : Assigned String} {f a w : Block Node}

/-- Where another run keeps the function, it defines no alias for a placeholder: the alias is used,
so the run caches the placeholder, and it would read the definition from the alias in the scope. -/
theorem Registers.no_lookup (registers : Registers globals table f a)
    (optimizes : Optimizes table after f a)
    (again : Analysis.Reconciled options (a.finished options) w)
    (same : w.finished options = a.finished options) :
    ∀ name ∈ (a.finished options).assignments, ∀ read, table name ≠ some (.placeholder read) := by
  intro name assigned read held
  have dwindles := w.finished_dwindles options
  rw [same] at dwindles
  obtain ⟨used, member, rfl, cached⟩ := (optimizes.finished options).exists_cached assigned held
  have caches := again.cached used (dwindles.reads member) cached
  -- the block that lists the alias also defines it
  obtain ⟨inner, below, c, found⟩ := Block.mem_aliasNames_iff.1
    ((registers.mem_aliasNames_finished optimizes).2 ⟨assigned, by rw [held]; rfl⟩)
  have coherent := registers.coherent_finished optimizes inner below
  obtain rfl : c = .placeholder used.name :=
    Option.some.inj ((coherent.lists.get found).symm.trans held)
  obtain ⟨looked, there, same, dynamic⟩ := coherent.exists_lookup
    (optimizes.finished options).expanded (Block.mem_statementsOf below) found
  obtain ⟨walked, answers, shrinks⟩ := exists_both_of_forall₂ again.blocks dwindles.blocks below
  have unseen := answers looked (shrinks there) dynamic (same ▸ caches)
  rw [same, Scope.aliasFor?, found] at unseen
  cases unseen

theorem Registers.unlisted (registers : Registers globals table f a)
    (optimizes : Optimizes table after f a)
    (again : Analysis.Reconciled options (a.finished options) w)
    (same : w.finished options = a.finished options) :
    ∀ block ∈ (a.finished options).blocks, block.scope.Unlisted := by
  rw [Block.unlisted_iff]
  intro name listed
  obtain ⟨assigned, held⟩ := (registers.mem_aliasNames_finished optimizes).1 listed
  have free := (optimizes.finished options).expanded.no_alias (fun _ member => by cases member)
    (registers.no_lookup optimizes again same) name assigned
  rw [free] at held
  cases held

end Kept

section Trees

variable {options : Options} {root : Node} {o again : Optimization}

theorem optimize_placed (source : root.isSource) (h : root.optimize options = .ok o) :
    Node.arePlaced o.tree.top := by
  obtain ⟨out, after, expanded, shape, -⟩ := optimize_top source h
  rw [(shape.top_eq expanded.placed).1]
  exact expanded.placed

/-- Where another run keeps the tree, every function is settled. -/
theorem optimize_settled (source : root.isSource) (h : root.optimize options = .ok o)
    (rerun : o.tree.optimize options = .ok again) (same : again.tree = o.tree) :
    ∀ g ∈ o.tree.functions, g.Settled options := by
  intro g member
  obtain ⟨analysis, -, pairs, functions⟩ := optimize_finished source h
  obtain ⟨reanalysis, analyzed, result⟩ := optimize_analysis rerun
  have finished : List.Forall₂ (fun w g => Block.finished options w = g)
      reanalysis.tree.functions o.tree.functions := by
    rw [← same, result, functions_hoistAliases, List.forall₂_map_right_iff, List.forall₂_same]
    exact fun _ _ => rfl
  obtain ⟨w, reconciled, same⟩ := exists_both_of_forall₂
    (Analysis.analyze_reconciled (optimize_placed source h) analyzed) finished member
  rw [functions] at member
  obtain ⟨a, among, rfl⟩ := List.mem_map.1 member
  obtain ⟨f, table, after, optimizes, registers⟩ := exists_of_forall₂ pairs among
  refine ⟨registers.unlisted optimizes reconciled same, fun direct read inside dynamic => ?_⟩
  have dwindles := w.finished_dwindles options
  rw [same] at dwindles
  exact reconciled.dynamic read (dwindles.reads inside) dynamic direct

/-- Where no alias is left, there was none to move. -/
theorem hoistAliases_of_unlisted (source : root.isSource) {analysis : Analysis}
    (analyzed : root.analyze options = .ok analysis)
    (unlisted : ∀ g ∈ (analysis.tree.hoistAliases options).1.functions,
      ∀ block ∈ g.blocks, block.scope.Unlisted) :
    (analysis.tree.hoistAliases options).1 = analysis.tree := by
  have outside : ∀ block ∈ analysis.tree.branches, block.scope.Unlisted := by
    intro block member c
    cases found : block.scope.aliases.get? c with
    | none => exact found
    | some name => cases (Analysis.analyze_branches source analyzed block member).lists.get found
  have inside : ∀ a ∈ analysis.tree.functions, ∀ block ∈ a.blocks, block.scope.Unlisted := by
    intro a member
    obtain ⟨f, table, after, optimizes, registers⟩ :=
      exists_of_forall₂ (Analysis.analyze_functions source analyzed) member
    have finished : a.finished options ∈ (analysis.tree.hoistAliases options).1.functions := by
      rw [functions_hoistAliases]
      exact List.mem_map_of_mem member
    rw [Block.unlisted_iff]
    intro name listed
    exact Block.unlisted_iff.1 (unlisted _ finished) name
      (registers.aliasNames_subset optimizes listed)
  unfold Node.hoistAliases
  split
  · rw [Hoisting.hoist_of_quiet analysis.tree]
    · intro block member
      exact Hoisting.quiet_of_unlisted fun inner below =>
        outside inner (Node.branches_trans analysis.tree member below)
    · intro a member block own
      exact Hoisting.quiet_of_unlisted fun inner below =>
        inside a member inner (Block.blocks_trans own below)
  · rfl

end Trees

/-- Another run succeeds and leaves the tree as it is if and only if no scope of the tree lists an
alias and, with direct access, no function looks a placeholder up by its name that its scope
declares. -/
theorem optimize_idempotent_iff (options : Options) (root : Node) (o : Optimization)
    (source : root.isSource) (h : root.optimize options = .ok o) :
    (∃ again, o.tree.optimize options = .ok again ∧ again.tree = o.tree) ↔
      (∀ block ∈ o.tree.blocks, ∀ c, block.scope.aliasFor? c = none) ∧
      (options.directAccess = true → ∀ g ∈ o.tree.functions, ∀ read ∈ g.placeholders,
        read.IsDynamic → read.name ∉ g.scope.locals) := by
  have outside : ∀ block ∈ o.tree.branches, block.scope.Unlisted := fun _ member c =>
    optimize_branches_unlisted source h member c
  constructor
  · rintro ⟨again, rerun, same⟩
    have settled := optimize_settled source h rerun same
    refine ⟨fun block member => ?_, fun direct g member => (settled g member).reads direct⟩
    rcases List.mem_append.1 member with top | function
    · exact outside block top
    · obtain ⟨g, there, own⟩ := List.mem_flatMap.1 function
      exact (settled g there).unlisted block own
  · rintro ⟨unlisted, reads⟩
    obtain ⟨analysis, analyzed, result⟩ := optimize_analysis h
    have unlisted : ∀ g ∈ o.tree.functions, ∀ block ∈ g.blocks, block.scope.Unlisted :=
      fun g member block own =>
        unlisted block (List.mem_append_right _ (List.mem_flatMap.2 ⟨g, member, own⟩))
    have unmoved := hoistAliases_of_unlisted source analyzed (result ▸ unlisted)
    rw [result, unmoved] at unlisted outside reads ⊢
    obtain ⟨again, reanalyzed, same⟩ := Analysis.analyze_echo source analyzed outside
      fun g member => ⟨unlisted g member, fun direct => reads direct g member⟩
    refine ⟨_, Analysis.bind_eq_ok.2 ⟨again, reanalyzed, rfl⟩, ?_⟩
    rw [same]
    exact unmoved

/-- The name and the note of each placeholder in the functions of a tree. -/
def Node.notes (tree : Node) : List (List (String × Option Resolution)) :=
  tree.functions.map fun g => g.placeholders.map fun read => (read.name, read.resolution)

/-- A function that sets what it reads, up to a placeholder that it may leave out. -/
def steady : Block Node :=
  let line := Node.placeholder .generated "line" none
  .plain
    [.assign .generated "line" (.identifier .generated "hello"),
      .conditional .generated line (.plain [.write .generated (.filter .generated line none none)])
        (some (.plain [.assign .generated "note" line])),
      .write .generated (.binary .generated .and line (.placeholder .generated "title" none))]

theorem steady_optimize :
    ∃ o g, (Node.function .generated "steady" steady).optimize .caching = .ok o ∧
      (∀ block ∈ o.tree.blocks, block.scope.aliases = ∅) ∧ o.tree.functions = [g] ∧
      g.scope.locals.toList = ["line"] ∧
      o.tree.notes = [List.replicate 4 ("line", some ⟨true, .direct "line"⟩) ++
        [("title", some ⟨false, .dynamic⟩)]] :=
  ⟨_, _, rfl, by decide +kernel, rfl, by decide +kernel, by decide +kernel⟩

theorem steady_idempotent :
    ∃ o again g, (Node.function .generated "steady" steady).isSource = true ∧
      (Node.function .generated "steady" steady).optimize .caching = .ok o ∧
      (∀ block ∈ o.tree.blocks, ∀ c, block.scope.aliasFor? c = none) ∧ o.tree.functions = [g] ∧
      (∀ read ∈ g.placeholders, read.IsDynamic → read.name ∉ g.scope.locals) ∧
      o.tree.optimize .caching = .ok again ∧ again.tree = o.tree := by
  obtain ⟨o, g, optimized, scopes, functions, locals, notes⟩ := steady_optimize
  have unlisted : ∀ block ∈ o.tree.blocks, ∀ c, block.scope.aliasFor? c = none := by
    intro block member c
    rw [Scope.aliasFor?, scopes block member]
    rfl
  have undeclared : ∀ read ∈ g.placeholders, read.IsDynamic → read.name ∉ g.scope.locals := by
    rintro read member ⟨eligible, dynamic⟩
    rw [Node.notes, functions, List.map_singleton, List.singleton_inj] at notes
    have listed := List.mem_map_of_mem (f := fun read => (read.name, read.resolution)) member
    rw [notes, dynamic] at listed
    obtain ⟨other, -⟩ : read.name = "title" ∧ eligible = false := by simpa using listed
    rw [OrderedSet.mem_def, locals, other]
    decide
  obtain ⟨again, rerun, same⟩ := (optimize_idempotent_iff .caching
    (.function .generated "steady" steady) o (by decide) optimized).2 ⟨unlisted, fun _ => by
      rw [functions, List.forall_mem_singleton]
      exact undeclared⟩
  exact ⟨o, again, g, by decide, optimized, unlisted, functions, undeclared, rerun, same⟩

/-- A function that looks a placeholder up, and reads a variable before it sets it. -/
def fickle : Block Node :=
  .plain
    [.write .generated (.placeholder .generated "foo" none),
      .write .generated (.placeholder .generated "bar" none),
      .assign .generated "bar" (.identifier .generated "hello")]

/-- The second run reads the definition of an alias from the alias itself, and a variable directly
before anything was assigned to it. -/
theorem optimize_reads_definition_from_itself :
    ∃ o again, (Node.function .generated "fickle" fickle).isSource = true ∧
      (Node.function .generated "fickle" fickle).optimize .caching = .ok o ∧
      o.tree.optimize .caching = .ok again ∧
      o.tree.notes = [[("foo", some ⟨true, .dynamic⟩), ("foo", some ⟨true, .cached "_rph_foo"⟩),
        ("bar", some ⟨true, .dynamic⟩)]] ∧
      again.tree.notes = [[("foo", some ⟨true, .cached "_rph_foo"⟩),
        ("foo", some ⟨true, .cached "_rph_foo"⟩), ("bar", some ⟨true, .direct "bar"⟩)]] ∧
      again.tree ≠ o.tree :=
  ⟨_, _, by decide, rfl, rfl, by decide +kernel, by decide +kernel,
    ne_of_apply_ne Node.notes (by decide +kernel)⟩

end Stencil
