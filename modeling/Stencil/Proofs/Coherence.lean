import Stencil.Proofs.Dominance
import Stencil.Proofs.Moves
import Stencil.Proofs.Registration

/-!
# Scopes agree with bodies

The analysis leaves every scope in agreement with the body it belongs to, and a move keeps them so.
A branch that loses a definition forgets the computation behind it and nothing else, since no other
computation of the function has that alias, and the block that gains it registers the one alias that
the computation has anywhere in the function.

* `coherent_kept`: moves keep blocks coherent.
* `Moves.aliasNames_subset`, `targets_kept`: they lose no alias of the function, and set no variable
  that was not set before.
* `optimize_scopes_coherent`: in an optimised tree every scope agrees with its body.
-/

namespace Stencil

namespace Scope

theorem get?_forget (scope : Scope) (c c' : Computation) :
    (scope.forget c).aliases.get? c' = if c = c' then none else scope.aliases.get? c' := by
  unfold forget aliasFor?
  cases found : scope.aliases.get? c with
  | none =>
    by_cases same : c = c'
    · rw [if_pos same, ← same]
      exact found
    · rw [if_neg same]
  | some name => exact OrderedMap.get?_erase _ _ _

theorem mem_locals_forget {scope : Scope} {c : Computation} {name : String} :
    name ∈ (scope.forget c).locals ↔ name ∈ scope.locals ∧ scope.aliases.get? c ≠ some name := by
  unfold forget aliasFor?
  cases scope.aliases.get? c with
  | none => simp
  | some other => simp [OrderedSet.mem_erase, eq_comm]

theorem mem_aliasNames_forget {scope : Scope} {c : Computation} {name : String} :
    name ∈ (scope.forget c).aliasNames ↔
      name ∈ scope.aliasNames ∧ scope.aliases.get? c ≠ some name := by
  unfold forget aliasFor?
  cases scope.aliases.get? c with
  | none => simp
  | some other => simp [OrderedSet.mem_erase, eq_comm]

theorem Lists.get {table : AliasTable} {scope : Scope} (h : scope.Lists table) {c : Computation}
    {name : String} (found : scope.aliases.get? c = some name) : table name = some c :=
  h (c, name) (OrderedMap.mem_of_get? found)

/-- No two computations of a scope have the same alias. -/
theorem Lists.nodup_values {table : AliasTable} {scope : Scope} (h : scope.Lists table) :
    scope.aliases.values.Nodup := by
  rw [OrderedMap.values, List.nodup_iff_pairwise_ne, List.pairwise_map]
  refine (List.pairwise_map.1 scope.aliases.nodup).imp_of_mem ?_
  intro first second among among' different same
  apply different
  have held := h second among'
  rw [← same, h first among] at held
  exact Option.some.inj held

/-- A computation that is registered again has the same alias. -/
theorem Lists.get?_register {table : AliasTable} {scope : Scope} (h : scope.Lists table)
    (injective : table.Injective) {c : Computation} {name : String} (held : table name = some c)
    (c' : Computation) :
    (scope.register c name).aliases.get? c' =
      if c = c' then some name else scope.aliases.get? c' := by
  rw [register, OrderedMap.get?_insertIfNew]
  cases found : scope.aliases.get? c with
  | none => rfl
  | some other => rw [injective other name c (h.get found) held]; rfl

end Scope

/-- A scope and a body that agree: the scope lists aliases that the body defines, and declares
them. -/
structure Block.Coherent (table : AliasTable) (block : Block Node) : Prop where
  lists : block.scope.Lists table
  defined : ∀ c name, block.scope.aliases.get? c = some name → name ∈ Node.targets block.body
  declared : ∀ c name, block.scope.aliases.get? c = some name → name ∈ block.scope.locals
  names : ∀ name, name ∈ block.scope.aliasNames ↔ ∃ c, block.scope.aliases.get? c = some name

theorem Block.Tidy.coherent {table : AliasTable} {block : Block Node} (h : block.Tidy table) :
    block.Coherent table := by
  have value {c : Computation} {name : String} (found : block.scope.aliases.get? c = some name) :
      name ∈ block.scope.aliases.values := OrderedMap.mem_values_iff.2 ⟨c, found⟩
  refine ⟨h.lists, fun c name found => ?_, fun c name found => h.declared name (value found),
    fun name => (h.names name).trans OrderedMap.mem_values_iff⟩
  have target := value found
  rw [h.values] at target
  exact (List.mem_filter.1 target).1

theorem Block.Coherent.of_isPlain {table : AliasTable} {body : List Node} {scope : Scope}
    (plain : scope.isPlain) : Block.Coherent table ⟨body, scope⟩ := by
  have unlisted (c : Computation) (name : String) : scope.aliases.get? c ≠ some name := by
    rw [Scope.aliases_of_isPlain plain, OrderedMap.get?_empty]
    exact (Option.some_ne_none name).symm
  refine ⟨?_, fun c name found => absurd found (unlisted c name),
    fun c name found => absurd found (unlisted c name), fun name => ?_⟩
  · intro entry listed
    rw [Scope.aliases_of_isPlain plain] at listed
    cases listed
  · simp only [Scope.aliasNames_of_isPlain plain, unlisted]
    simp [OrderedSet.mem_def]

theorem Node.targets_around (before behind : List Node) {n : Node} (unset : n.target? = none) :
    Node.targets (before ++ n :: behind) = Node.targets (before ++ behind) := by
  rw [Node.targets_append, Node.targets_append, Node.targets_cons_of_none unset]

theorem Node.mem_targets_around {before behind : List Node} {place : Span} {name other : String}
    {value : Node} :
    other ∈ Node.targets (before ++ .assign place name value :: behind) ↔
      other = name ∨ other ∈ Node.targets (before ++ behind) := by
  rw [Node.targets_append, Node.targets_append, List.mem_append, List.mem_append,
    ← or_left_comm, ← List.mem_cons]
  rfl

section Coherent

variable {table : AliasTable} {a b : Block Node} {c : Computation} {name : String}
  {definition : Node}

theorem Leaves.coherent (h : Leaves c name a definition b) (held : table name = some c)
    (coherent : a.Coherent table) : b.Coherent table := by
  cases h with
  | mk front back place scope =>
    -- what is still listed is another alias, so the definition that left was not its own
    have kept {c' : Computation} {other : String}
        (found : (scope.forget c).aliases.get? c' = some other) :
        scope.aliases.get? c' = some other ∧ table other ≠ some c := by
      rw [Scope.get?_forget] at found
      split at found
      · cases found
      · rename_i different
        refine ⟨found, fun same => different ?_⟩
        exact Option.some.inj (same.symm.trans (coherent.lists.get found))
    refine ⟨Hoisting.forget_lists coherent.lists c, ?_, ?_, ?_⟩
    · intro c' other found
      obtain ⟨old, apart⟩ := kept found
      rcases Node.mem_targets_around.1 (coherent.defined c' other old) with rfl | there
      · exact absurd held apart
      · exact there
    · intro c' other found
      obtain ⟨old, apart⟩ := kept found
      exact Scope.mem_locals_forget.2
        ⟨coherent.declared c' other old, fun same => apart (coherent.lists.get same)⟩
    · intro other
      rw [Scope.mem_aliasNames_forget, coherent.names]
      constructor
      · rintro ⟨⟨c', found⟩, apart⟩
        refine ⟨c', ?_⟩
        rw [Scope.get?_forget, if_neg]
        · exact found
        · rintro rfl
          exact apart found
      · rintro ⟨c', found⟩
        obtain ⟨old, apart⟩ := kept found
        exact ⟨⟨c', old⟩, fun same => apart (coherent.lists.get same)⟩

/-- A block that gains a definition registers its alias. -/
theorem Block.Coherent.register {body body' : List Node} {scope : Scope}
    (h : Block.Coherent table ⟨body, scope⟩) (injective : table.Injective)
    (held : table name = some c)
    (targets : ∀ other, other ∈ Node.targets body' ↔ other = name ∨ other ∈ Node.targets body) :
    Block.Coherent table ⟨body', scope.register c name⟩ := by
  have found (c' : Computation) := h.lists.get?_register injective held c'
  refine ⟨Analysis.register_lists h.lists held, ?_, ?_, ?_⟩
  · intro c' other new
    rw [found] at new
    split at new
    · cases new
      exact (targets name).2 (.inl rfl)
    · exact (targets other).2 (.inr (h.defined c' other new))
  · intro c' other new
    rw [found] at new
    apply OrderedSet.mem_insert.2
    split at new
    · cases new
      exact .inr rfl
    · exact .inl (h.declared c' other new)
  · intro other
    simp only [found]
    refine OrderedSet.mem_insert.trans ?_
    rw [h.names]
    constructor
    · rintro (⟨c', old⟩ | rfl)
      · by_cases same : c = c'
        · subst same
          refine ⟨c, ?_⟩
          rw [if_pos rfl, injective name other c held (h.lists.get old)]
        · exact ⟨c', by rw [if_neg same, old]⟩
      · exact ⟨c, if_pos rfl⟩
    · rintro ⟨c', new⟩
      split at new
      · cases new
        exact .inr rfl
      · exact .inl ⟨c', new⟩

/-- What a block sets after a definition has left one of its conditionals. -/
theorem Leaves.mem_targets_out (h : Leaves c name a definition b) {before behind : List Node}
    {n : Node} (unset : n.target? = none) {other : String} :
    other ∈ Node.targets (before ++ definition :: n :: behind) ↔
      other = name ∨ other ∈ Node.targets (before ++ behind) := by
  cases h with
  | mk => rw [Node.mem_targets_around, Node.targets_around before behind unset]

/-- Moves keep blocks coherent. -/
theorem coherent_kept (injective : table.Injective) : Kept table (Block.Coherent table) where
  out := by
    intro c name before behind scope condition definition other thenBranch thenBranch' elseBranch
      elseBranch' span held fromThen fromElse outer inThen inElse
    refine ⟨outer.register injective held fun other => ?_, fromThen.coherent held inThen,
      fromElse.coherent held inElse⟩
    rw [fromThen.mem_targets_out rfl, Node.targets_around before behind rfl]
  around := by
    intro n n' before behind scope unset unset' _ coherent
    obtain ⟨lists, defined, declared, names⟩ := coherent
    refine ⟨lists, fun c name found => ?_, declared, names⟩
    have member := defined c name found
    rw [Node.targets_around before behind unset] at member
    rw [Node.targets_around before behind unset']
    exact member

/-- Moves set no variable that was not set before. -/
theorem targets_kept (P : String → Prop) :
    Kept table fun block => ∀ name ∈ Node.targets block.body, P name where
  out := by
    intro c name before behind scope condition definition other thenBranch thenBranch' elseBranch
      elseBranch' span held fromThen fromElse outer inThen inElse
    refine ⟨fun target member => ?_, fun target member => ?_, fun target member => ?_⟩
    · rw [fromThen.mem_targets_out rfl] at member
      rcases member with rfl | old
      · apply inThen
        cases fromThen with
        | mk => exact Node.mem_targets_around.2 (.inl rfl)
      · apply outer
        rw [Node.targets_around before behind rfl]
        exact old
    · cases fromThen with
      | mk => exact inThen target (Node.mem_targets_around.2 (.inr member))
    · cases fromElse with
      | mk => exact inElse target (Node.mem_targets_around.2 (.inr member))
  around := by
    intro n n' before behind scope unset unset' _ all target member
    rw [Node.targets_around before behind unset'] at member
    apply all
    rw [Node.targets_around before behind unset]
    exact member

end Coherent

section Names

variable {table : AliasTable} {a b : Block Node} {name : String}

/-- A branch that a definition leaves keeps the other aliases. -/
theorem Leaves.get?_of_ne {c : Computation} {moved : String} {definition : Node}
    (h : Leaves c moved a definition b) {c' : Computation}
    (found : a.scope.aliases.get? c' = some name) (different : c ≠ c') :
    b.scope.aliases.get? c' = some name := by
  cases h with
  | mk => rw [Scope.get?_forget, if_neg different, found]

theorem Block.mem_aliasNames_iff {block : Block Node} :
    name ∈ block.aliasNames ↔
      ∃ inner ∈ block.blocks, ∃ c, inner.scope.aliases.get? c = some name := by
  simp only [Block.mem_aliasNames, OrderedMap.mem_values_iff]

/-- A move loses no alias of the function. -/
theorem Move.aliasNames_subset (move : Move table a b) (injective : table.Injective)
    (lists : ∀ block ∈ a.blocks, block.scope.Lists table) (member : name ∈ a.aliasNames) :
    name ∈ b.aliasNames := by
  rw [Block.mem_aliasNames_iff] at member ⊢
  obtain ⟨inner, among, c', found⟩ := member
  induction move with
  | @out c moved before behind scope condition definition other thenBranch thenBranch' elseBranch
      elseBranch' span holds fromThen fromElse =>
    have held := (lists inner among).get found
    have around := (lists _ List.mem_cons_self).get?_register injective holds c'
    rw [Block.blocks, fromThen.branchesOf_out]
    -- the alias that moves is found in the block around, any other one where it was
    by_cases same : c = c'
    · subst same
      refine ⟨_, List.mem_cons_self, c, around.trans ?_⟩
      rw [if_pos rfl, injective moved name c holds held]
    · rw [if_neg same] at around
      simp only [Block.blocks, List.mem_cons, Node.mem_branchesOf_branches, fromThen.branchesOf_eq,
        fromElse.branchesOf_eq] at among ⊢
      rcases among with rfl | (rfl | inThen) | (rfl | inElse) | aside
      · exact ⟨_, .inl rfl, c', around.trans found⟩
      · exact ⟨thenBranch', .inr (.inl (.inl rfl)), c', fromThen.get?_of_ne found same⟩
      · exact ⟨inner, .inr (.inl (.inr inThen)), c', found⟩
      · exact ⟨elseBranch', .inr (.inr (.inl (.inl rfl))), c', fromElse.get?_of_ne found same⟩
      · exact ⟨inner, .inr (.inr (.inl (.inr inElse))), c', found⟩
      · exact ⟨inner, .inr (.inr (.inr aside)), c', found⟩
  | @inside gap branch branch' before behind scope isGap move ih =>
    obtain ⟨others, mem_branches⟩ := isGap.mem_branches
    have above {block : Block Node} (member : block ∈ branch.blocks) :
        block ∈ Node.branchesOf (before ++ gap branch :: behind) :=
      Node.mem_branchesOf_around.2 (.inl ((mem_branches _ _).2 (.inr member)))
    rw [Block.blocks, List.mem_cons, Node.mem_branchesOf_around, mem_branches] at among
    simp only [Block.blocks, List.mem_cons, Node.mem_branchesOf_around, mem_branches]
    rcases among with rfl | (other | inside) | aside
    · exact ⟨_, .inl rfl, c', found⟩
    · exact ⟨inner, .inr (.inl (.inl other)), c', found⟩
    · obtain ⟨deeper, there, still⟩ :=
        ih (fun block member => lists block (List.mem_cons_of_mem _ (above member))) inside
      exact ⟨deeper, .inr (.inl (.inr (List.mem_cons.1 there))), still⟩
    · exact ⟨inner, .inr (.inr aside), c', found⟩
  | @function before behind scope span name body body' =>
    simp only [Block.blocks, List.mem_cons, Node.mem_branchesOf_around] at among ⊢
    rcases among with rfl | none | aside
    · exact ⟨_, .inl rfl, c', found⟩
    · cases none
    · exact ⟨inner, .inr (.inr aside), c', found⟩

/-- A run of moves loses no alias of the function. -/
theorem Moves.aliasNames_subset (run : Moves table a b)
    (injective : table.Injective) (coherent : ∀ block ∈ a.blocks, block.Coherent table)
    (member : name ∈ a.aliasNames) : name ∈ b.aliasNames := by
  induction run with
  | refl => exact member
  | tail earlier move ih =>
    have still := (coherent_kept injective).forall_blocks earlier coherent
    exact move.aliasNames_subset injective (fun block among => (still block among).lists) ih

end Names

theorem Block.Tidy.registered {table : AliasTable} {block : Block Node} (h : block.Tidy table)
    {name : String} (held : (table name).isSome) (member : name ∈ Node.targets block.body) :
    name ∈ block.scope.aliases.values := by
  rw [h.values]
  exact List.mem_filter.2 ⟨member, held⟩

section Finished

variable {options : Options} {globals : OrderedSet String} {table : AliasTable}
  {after : Assigned String} {f a : Block Node}

/-- The analysed function lists every alias that one of its blocks defines. -/
theorem Registers.listed (h : Registers globals table f a) {block : Block Node}
    (member : block ∈ a.blocks) {name : String} (target : name ∈ Node.targets block.body)
    (held : (table name).isSome) : name ∈ a.aliasNames :=
  Block.mem_aliasNames.2 ⟨block, member, (h.tidy block member).registered held target⟩

/-- The finished function defines no other alias. -/
theorem Registers.listed_finished (h : Registers globals table f a)
    (optimizes : Optimizes table after f a) {block : Block Node}
    (member : block ∈ (a.finished options).blocks) {name : String}
    (target : name ∈ Node.targets block.body) (held : (table name).isSome) :
    name ∈ a.aliasNames :=
  (targets_kept fun name => (table name).isSome → name ∈ a.aliasNames).forall_blocks
    (optimizes.finished_moves options) (fun _ among _ => h.listed among) block member name target
    held

/-- The blocks of the finished function are coherent. -/
theorem Registers.coherent_finished (h : Registers globals table f a)
    (optimizes : Optimizes table after f a) :
    ∀ block ∈ (a.finished options).blocks, block.Coherent table :=
  (coherent_kept h.injective).forall_blocks (optimizes.finished_moves options)
    fun block member => (h.tidy block member).coherent

/-- The finished function lists the aliases that the analysed one lists. -/
theorem Registers.aliasNames_subset (h : Registers globals table f a)
    (optimizes : Optimizes table after f a) {name : String} (member : name ∈ a.aliasNames) :
    name ∈ (a.finished options).aliasNames :=
  (optimizes.finished_moves options).aliasNames_subset h.injective
    (fun block member => (h.tidy block member).coherent) member

/-- The finished function lists the aliases that it defines. -/
theorem Registers.mem_aliasNames_finished (h : Registers globals table f a)
    (optimizes : Optimizes table after f a) {name : String} :
    name ∈ (a.finished options).aliasNames ↔
      name ∈ (a.finished options).assignments ∧ (table name).isSome := by
  have expanded := (optimizes.finished options).expanded
  constructor
  · intro listed
    obtain ⟨block, member, c, found⟩ := Block.mem_aliasNames_iff.1 listed
    have coherent := h.coherent_finished optimizes block member
    refine ⟨expanded.mem_targets.1 (Block.mem_targets.2 ⟨block, member, ?_⟩), ?_⟩
    · exact coherent.defined c name found
    · rw [coherent.lists.get found]
      rfl
  · rintro ⟨assigned, held⟩
    obtain ⟨block, member, target⟩ := Block.mem_targets.1 (expanded.mem_targets.2 assigned)
    exact h.aliasNames_subset optimizes (h.listed_finished optimizes member target held)

end Finished

section Trees

variable {options : Options} {root : Node} {o : Optimization}

/-- The functions of an optimised tree, each with its source and its analysed form. -/
theorem optimize_finished (source : root.isSource) (h : root.optimize options = .ok o) :
    ∃ analysis, root.analyze options = .ok analysis ∧
      List.Forall₂ (Analysis.Analyzed root.globals) root.functions analysis.tree.functions ∧
      o.tree.functions = analysis.tree.functions.map (Block.finished options) := by
  obtain ⟨analysis, analyzed, result⟩ := optimize_analysis h
  refine ⟨analysis, analyzed, Analysis.analyze_functions source analyzed, ?_⟩
  rw [result, functions_hoistAliases]

/-- The statements at the top of an optimised tree. No alias is listed outside functions. -/
theorem optimize_top (source : root.isSource) (h : root.optimize options = .ok o) :
    ∃ out after, Expanded (fun _ => none) ∅ [] root.top out after ∧ root.Retopped out o.tree ∧
      ∀ block ∈ Node.branchesOf out, block.Coherent fun _ => none := by
  obtain ⟨analysis, analyzed, result⟩ := optimize_analysis h
  obtain ⟨out, after, expanded, shape⟩ := Analysis.analyze_expanded source analyzed
  have coherent : ∀ block ∈ Node.branchesOf out, block.Coherent fun _ => none := by
    intro block member
    rw [← shape.branches_eq] at member
    exact (Analysis.analyze_branches source analyzed block member).coherent
  rw [result, Node.hoistAliases]
  split
  · refine ⟨(Hoisting.hoistEach out).1, after, (Hoisting.hoistEach_expanded expanded).1,
      Hoisting.hoist_retopped shape, fun block member => ?_⟩
    have injective : AliasTable.Injective fun _ => none := fun _ _ _ held => by cases held
    refine (coherent_kept injective).forall_blocks (Hoisting.hoistEach_moves expanded [] ∅) ?_ block
      (List.mem_cons_of_mem _ member)
    intro inner among
    rcases List.mem_cons.1 among with rfl | below
    · exact .of_isPlain (by decide)
    · exact coherent inner below
  · exact ⟨out, after, expanded, shape, coherent⟩

end Trees

theorem exists_of_forall₂ {α β : Type} {R : α → β → Prop} {as : List α} {bs : List β}
    (h : List.Forall₂ R as bs) {b : β} (member : b ∈ bs) : ∃ a, R a b := by
  obtain ⟨a, -, related⟩ := exists_mem_of_forall₂ h member
  exact ⟨a, related⟩

/-- A coherent block of an optimised body defines what its scope lists. -/
theorem Block.Coherent.exists_definition {table : AliasTable} {assigned after : Assigned String}
    {before : List String} {source out : List Node} {block : Block Node}
    (coherent : block.Coherent table) (expanded : Expanded table assigned before source out after)
    (inside : ∀ n ∈ block.body, n ∈ Node.statementsOf out) {c : Computation} {name : String}
    (found : block.scope.aliases.get? c = some name) :
    ∃ span value ready, .assign span name value ∈ block.body ∧ Definition table ready c value := by
  obtain ⟨n, among, target⟩ := List.mem_filterMap.1 (coherent.defined c name found)
  have held := coherent.lists.get found
  cases n with
  | assign span other value =>
    cases target
    rcases expanded.definition_cases (inside _ among) with user | ⟨c', ready, held', definition⟩
    · rw [expanded.target_free user] at held
      cases held
    · rw [held] at held'
      cases held'
      exact ⟨span, value, ready, among, definition⟩
  | template | function | conditional | identifier | placeholder | literal | binary | filter
  | call | list | write => cases target

theorem Block.Coherent.agrees {table : AliasTable} {assigned after : Assigned String}
    {before : List String} {source out : List Node} {block : Block Node}
    (coherent : block.Coherent table) (expanded : Expanded table assigned before source out after)
    (inside : ∀ n ∈ block.body, n ∈ Node.statementsOf out) :
    (∀ c name, (c, name) ∈ block.scope.aliases.toList →
      name ∈ block.scope.locals ∧ name ∈ block.scope.aliasNames ∧
      ∃ span value, .assign span name value ∈ block.body ∧ value.computation? = some c) ∧
    ∀ name, name ∈ block.scope.aliasNames ↔ name ∈ block.scope.aliases.values := by
  refine ⟨fun c name listed => ?_, fun name => ?_⟩
  · have found := OrderedMap.mem_toList_iff.1 listed
    obtain ⟨span, value, _, among, definition⟩ := coherent.exists_definition expanded inside found
    exact ⟨coherent.declared c name found, (coherent.names name).2 ⟨c, found⟩, span, value, among,
      definition.computation_eq⟩
  · rw [coherent.names, OrderedMap.mem_values_iff]

theorem Block.mem_statementsOf {block inner : Block Node} (member : inner ∈ block.blocks) :
    ∀ n ∈ inner.body, n ∈ Node.statementsOf block.body := by
  intro n among
  rcases List.mem_cons.1 member with rfl | below
  · exact List.mem_append_left _ among
  · exact List.mem_append_right _ (List.mem_flatMap.2 ⟨inner, below, among⟩)

/-- In every block of an optimised tree the scope agrees with the body: an alias that it lists for a
computation is declared, and the body defines it by that computation; and the names of aliases are
those of the listed ones. -/
theorem optimize_scopes_coherent (options : Options) (root : Node) (o : Optimization)
    (source : root.isSource) (h : root.optimize options = .ok o) :
    ∀ block ∈ o.tree.blocks,
      (∀ c name, (c, name) ∈ block.scope.aliases.toList →
        name ∈ block.scope.locals ∧ name ∈ block.scope.aliasNames ∧
        ∃ span value, .assign span name value ∈ block.body ∧ value.computation? = some c) ∧
      ∀ name, name ∈ block.scope.aliasNames ↔ name ∈ block.scope.aliases.values := by
  intro block member
  rcases List.mem_append.1 member with outside | inside
  · obtain ⟨out, after, expanded, shape, coherent⟩ := optimize_top source h
    rw [shape.branches_eq] at outside
    exact (coherent block outside).agrees expanded fun n among =>
      List.mem_append_right _ (List.mem_flatMap.2 ⟨block, outside, among⟩)
  · obtain ⟨g, function, among⟩ := List.mem_flatMap.1 inside
    obtain ⟨analysis, -, analyzed, functions⟩ := optimize_finished source h
    rw [functions] at function
    obtain ⟨a, there, rfl⟩ := List.mem_map.1 function
    obtain ⟨f, table, after, optimizes, registers⟩ := exists_of_forall₂ analyzed there
    exact (registers.coherent_finished optimizes block among).agrees
      (optimizes.finished options).expanded (Block.mem_statementsOf among)

/-- One alias has left two conditionals, and another one stayed in the branch that defines it. -/
theorem noticePage_scopes :
    ∃ o, noticePage.optimize .caching = .ok o ∧
      o.tree.blocks.map (fun block => block.scope.aliases.values) =
        [["_rph_title"], [], ["_fphA3A5EF20"], [], []] :=
  ⟨_, rfl, by decide +kernel⟩

theorem notice_scopes_coherent :
    ∃ o, noticePage.isSource = true ∧ noticePage.optimize .caching = .ok o ∧
      o.tree.blocks.map (fun block => block.scope.aliases.values) =
        [["_rph_title"], [], ["_fphA3A5EF20"], [], []] ∧
      ∀ block ∈ o.tree.blocks, ∀ c name, (c, name) ∈ block.scope.aliases.toList →
        name ∈ block.scope.locals ∧ name ∈ block.scope.aliasNames ∧
        ∃ span value, .assign span name value ∈ block.body ∧ value.computation? = some c := by
  obtain ⟨o, optimized, scopes⟩ := noticePage_scopes
  have coherent := optimize_scopes_coherent .caching noticePage o (by decide) optimized
  exact ⟨o, by decide, optimized, scopes, fun block member => (coherent block member).1⟩

end Stencil
