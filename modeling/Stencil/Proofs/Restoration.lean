import Stencil.Proofs.Coherence

/-!
# The source of an optimised tree

An optimised tree still holds its source. Taking the definitions of the aliases that the scopes of a
function list out of its blocks, and the notes off its expressions, gives back the statements that
were written, each at its place.

Main statement: `optimize_restores_source`.
-/

namespace Stencil

namespace Node

mutual

/-- A statement as it was before optimising: without notes, and without the definitions of the
aliases in its blocks. The given aliases are those of the function around it; a function inside has
its own. -/
def restore (aliases : List String) : Node → Node
  | .template span name globals body => .template span name globals (restoreBody aliases body)
  | .function span name ⟨body, scope⟩ =>
    .function span name ⟨restoreBody (Block.aliasNames ⟨body, scope⟩) body, scope⟩
  | .conditional span condition ⟨thenBody, thenScope⟩ none =>
    .conditional span condition.bare ⟨restoreBody aliases thenBody, thenScope⟩ none
  | .conditional span condition ⟨thenBody, thenScope⟩ (some ⟨elseBody, elseScope⟩) =>
    .conditional span condition.bare ⟨restoreBody aliases thenBody, thenScope⟩
      (some ⟨restoreBody aliases elseBody, elseScope⟩)
  | .assign span target value => .assign span target value.bare
  | .write span operand => .write span operand.bare
  | n@(.identifier ..) | n@(.placeholder ..) | n@(.literal ..) | n@(.binary ..) | n@(.filter ..)
  | n@(.call ..) | n@(.list ..) => n.bare
termination_by structural n => n

/-- The statements of a block as they were before optimising. -/
def restoreBody (aliases : List String) : List Node → List Node
  | [] => []
  | n :: rest =>
    if n.target?.any (· ∈ aliases) then restoreBody aliases rest
    else n.restore aliases :: restoreBody aliases rest
termination_by structural ns => ns

end

mutual

/-- A statement with the scopes of its blocks left out. -/
def unscoped : Node → Node
  | .template span name globals body => .template span name globals (unscopedEach body)
  | .function span name ⟨body, _⟩ => .function span name (.plain (unscopedEach body))
  | .conditional span condition ⟨thenBody, _⟩ none =>
    .conditional span condition (.plain (unscopedEach thenBody)) none
  | .conditional span condition ⟨thenBody, _⟩ (some ⟨elseBody, _⟩) =>
    .conditional span condition (.plain (unscopedEach thenBody))
      (some (.plain (unscopedEach elseBody)))
  | n@(.assign ..) | n@(.write ..) | n@(.identifier ..) | n@(.placeholder ..) | n@(.literal ..)
  | n@(.binary ..) | n@(.filter ..) | n@(.call ..) | n@(.list ..) => n
termination_by structural n => n

/-- Statements with the scopes of their blocks left out. -/
def unscopedEach : List Node → List Node
  | [] => []
  | n :: rest => n.unscoped :: unscopedEach rest
termination_by structural ns => ns

end

theorem restoreBody_of_mem {aliases : List String} {n : Node} {name : String}
    (target : n.target? = some name) (member : name ∈ aliases) (rest : List Node) :
    restoreBody aliases (n :: rest) = restoreBody aliases rest := by
  rw [restoreBody, if_pos]
  simpa [target] using member

theorem restoreBody_of_not_mem {aliases : List String} {n : Node}
    (kept : ∀ name, n.target? = some name → name ∉ aliases) (rest : List Node) :
    restoreBody aliases (n :: rest) = n.restore aliases :: restoreBody aliases rest := by
  rw [restoreBody, if_neg]
  cases target : n.target? with
  | none => simp
  | some name => simpa using kept name target

end Node

theorem forall₂_of_append {α β : Type} {R : α → β → Prop} {as as' : List α} {bs bs' : List β}
    (h : List.Forall₂ R (as ++ as') (bs ++ bs')) (same : as.length = bs.length) :
    List.Forall₂ R as bs ∧ List.Forall₂ R as' bs' := by
  have left := List.forall₂_take_append _ bs bs' h
  have right := List.forall₂_drop_append _ bs bs' h
  rw [← same, List.take_left] at left
  rw [← same, List.drop_left] at right
  exact ⟨left, right⟩

section Restore

variable {table : AliasTable} {assigned after : Assigned String} {defined : List String}
  {source out : List Node}

theorem Annotated.restore_eq {e e' : Node} (h : Annotated table assigned defined e e')
    (aliases : List String) : e'.restore aliases = e := by
  obtain ⟨bare, resolved⟩ := h
  cases e' with
  | identifier | placeholder | literal | binary | filter | call | list => exact bare
  | template | function | conditional | assign | write => exact resolved.elim

/-- The scopes of an optimised function list the variables that only the optimised form assigns. -/
def ListsIntroduced (source optimized : Block Node) : Prop :=
  ∀ name, name ∈ optimized.aliasNames ↔ name ∈ source.introduced optimized

/-- The statements of an optimised body, the definitions of its aliases apart, are those of the
source. -/
theorem Expanded.restore (h : Expanded table assigned defined source out after)
    {aliases : List String}
    (all : ∀ name ∈ Node.assignmentsOf out, (table name).isSome → name ∈ aliases)
    (only : ∀ name ∈ aliases, (table name).isSome)
    (inner : List.Forall₂ ListsIntroduced (Node.functionsOf source) (Node.functionsOf out)) :
    Node.unscopedEach (Node.restoreBody aliases out) = Node.unscopedEach source := by
  induction h generalizing aliases with
  | nil => rfl
  | @define table _ _ _ source out name c value span held definition _ ih =>
    simp only [Node.assignmentsOf, Node.assignments, List.cons_append, List.mem_cons,
      List.mem_append] at all
    rw [Node.functionsOf_cons, Node.functions_assign, definition.functions_eq] at inner
    have listed : name ∈ aliases := all name (.inl rfl) (by rw [held]; rfl)
    rw [Node.restoreBody_of_mem rfl listed]
    exact ih (fun other member => all other (.inr (.inr member))) only inner
  | @assign table _ _ _ source out target value value' span free noted _ ih =>
    simp only [Node.assignmentsOf, Node.assignments, List.cons_append, List.mem_cons,
      List.mem_append] at all
    simp only [Node.functionsOf_cons, Node.functions_assign, noted.functions_eq] at inner
    have kept : target ∉ aliases := by
      intro member
      have held := only target member
      rw [free] at held
      cases held
    rw [Node.restoreBody_of_not_mem (by rintro _ ⟨⟩; exact kept), Node.restore, noted.bare]
    rw [Node.unscopedEach, Node.unscopedEach,
      ih (fun other member => all other (.inr (.inr member))) only inner]
  | write span noted _ ih =>
    simp only [Node.assignmentsOf, List.mem_append] at all
    simp only [Node.functionsOf_cons, Node.functions_write, noted.functions_eq] at inner
    rw [Node.restoreBody_of_not_mem (by rintro _ ⟨⟩), Node.restore, noted.bare, Node.unscopedEach,
      Node.unscopedEach, ih (fun other member => all other (.inr member)) only inner]
  | expression noted _ ih =>
    simp only [Node.assignmentsOf, List.mem_append] at all
    simp only [Node.functionsOf_cons, noted.functions_eq] at inner
    rw [Node.restoreBody_of_not_mem, noted.restore_eq, Node.unscopedEach, Node.unscopedEach,
      ih (fun other member => all other (.inr member)) only inner]
    intro name target
    rw [noted.target_eq] at target
    cases target
  | branch span noted lists thenSide _ thenIH ih =>
    simp only [Node.assignmentsOf, Node.assignments, List.mem_append] at all
    simp only [Node.functionsOf_cons, Node.functions_branch, noted.functions_eq] at inner
    obtain ⟨inThen, behind⟩ := forall₂_of_append inner thenSide.functions.length_eq
    have thenBody := thenIH (fun other member => all other (.inl (.inr member))) only inThen
    rw [Node.restoreBody_of_not_mem (by rintro _ ⟨⟩), Node.restore, noted.bare, Node.unscopedEach,
      Node.unscopedEach, Node.unscoped, Node.unscoped, thenBody,
      ih (fun other member => all other (.inr member)) only behind]
  | branches span noted thenLists elseLists thenSide elseSide _ thenIH elseIH ih =>
    simp only [Node.assignmentsOf, Node.assignments, List.mem_append] at all
    simp only [Node.functionsOf_cons, Node.functions_branches, noted.functions_eq,
      List.nil_append, List.append_assoc] at inner
    obtain ⟨inThen, others⟩ := forall₂_of_append inner thenSide.functions.length_eq
    obtain ⟨inElse, behind⟩ := forall₂_of_append others elseSide.functions.length_eq
    have thenBody := thenIH (fun other member => all other (.inl (.inl (.inr member)))) only inThen
    have elseBody := elseIH (fun other member => all other (.inl (.inr member))) only inElse
    rw [Node.restoreBody_of_not_mem (by rintro _ ⟨⟩), Node.restore, noted.bare, Node.unscopedEach,
      Node.unscopedEach, Node.unscoped, Node.unscoped, thenBody, elseBody,
      ih (fun other member => all other (.inr member)) only behind]
  | function span name _ _ _ within _ withinIH ih =>
    simp only [Node.assignmentsOf, List.mem_append] at all
    rw [Node.functionsOf_cons, Node.functionsOf_cons, Node.functions_function,
      Node.functions_function, List.cons_append, List.cons_append, List.forall₂_cons] at inner
    obtain ⟨own, others⟩ := inner
    obtain ⟨below, behind⟩ := forall₂_of_append others within.functions.length_eq
    -- inside, the aliases are those that the function itself lists
    have inside := withinIH
      (fun other member held => (own other).2 (within.mem_introduced.2 ⟨member, held⟩))
      (fun other member => (within.mem_introduced.1 ((own other).1 member)).2) below
    rw [Node.restoreBody_of_not_mem (by rintro _ ⟨⟩), Node.restore, Node.unscopedEach,
      Node.unscopedEach, Node.unscoped, Node.unscoped, inside,
      ih (fun other member => all other (.inr member)) only behind]

end Restore

theorem Node.Retopped.unscoped_eq {root tree : Node} {out : List Node} (h : root.Retopped out tree)
    (same : Node.unscopedEach (Node.restoreBody [] out) = Node.unscopedEach root.top) :
    (tree.restore []).unscoped = root.unscoped := by
  cases h with
  | template span name globals body out =>
    rw [Node.restore, Node.unscoped, Node.unscoped]
    exact congrArg _ same
  | alone single n' =>
    rw [single, Node.restoreBody_of_not_mem (fun _ _ => List.not_mem_nil)] at same
    exact (List.cons.inj same).1

theorem optimize_lists_introduced {options : Options} {root : Node} {o : Optimization}
    (source : root.isSource) (h : root.optimize options = .ok o) :
    List.Forall₂ ListsIntroduced root.functions o.tree.functions := by
  obtain ⟨analysis, -, functions, finished⟩ := optimize_finished source h
  rw [finished, List.forall₂_map_right_iff]
  refine functions.imp ?_
  rintro f a ⟨table, after, optimizes, registers⟩ name
  rw [(optimizes.finished options).expanded.mem_introduced]
  exact registers.mem_aliasNames_finished optimizes

/-- Optimising only adds: without the definitions of the aliases of each function and without notes
an optimised tree is its source again, the scopes apart. The aliases are those that the scopes of
the function list, and these are the variables that only the optimised form assigns. -/
theorem optimize_restores_source (options : Options) (root : Node) (o : Optimization)
    (source : root.isSource) (h : root.optimize options = .ok o) :
    (o.tree.restore []).unscoped = root.unscoped ∧
      List.Forall₂ (fun f g => ∀ name, name ∈ g.aliasNames ↔ name ∈ f.introduced g) root.functions
        o.tree.functions := by
  obtain ⟨out, after, expanded, shape, -⟩ := optimize_top source h
  have inner := optimize_lists_introduced source h
  refine ⟨shape.unscoped_eq ?_, inner⟩
  rw [Node.functions_eq_top root, shape.functions_eq] at inner
  apply expanded.restore
  · intro name _ held
    cases held
  · intro name member
    cases member
  · exact inner

/-- The aliases stand between the statements of the source, one of which sets a variable that looks
like an alias. -/
theorem crowdedPage_optimize :
    ∃ o g, crowdedPage.optimize .caching = .ok o ∧ o.tree.functions = [g] ∧
      Node.targets g.body = ["_rph_foo", "_rph_foo_1", "_rph_foo_1_1", "_rph_bar_1"] :=
  ⟨_, _, rfl, rfl, by decide +kernel⟩

theorem crowded_restores_source :
    ∃ o g, crowdedPage.isSource = true ∧ crowdedPage.optimize .caching = .ok o ∧
      o.tree.functions = [g] ∧
      Node.targets g.body = ["_rph_foo", "_rph_foo_1", "_rph_foo_1_1", "_rph_bar_1"] ∧
      (o.tree.restore []).unscoped = crowdedPage.unscoped := by
  obtain ⟨o, g, optimized, functions, targets⟩ := crowdedPage_optimize
  have restored := optimize_restores_source .caching crowdedPage o (by decide) optimized
  exact ⟨o, g, by decide, optimized, functions, targets, restored.1⟩

end Stencil
