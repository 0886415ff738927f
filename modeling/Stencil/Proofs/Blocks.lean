import Stencil.Proofs.Expansion

/-!
# The blocks of a tree

A block is the body of a function or a branch of a conditional, and has a scope of its own. A
function has as its blocks its body and the branches in it at any depth; those of the functions
inside it are not its own. A tree has the blocks of its functions, and the branches outside them.

The names that the scopes of a function list as aliases are its aliases: in a source tree there are
none.
-/

namespace Stencil

namespace Node

mutual

/-- The branches at or below a node, outside the functions defined there. -/
def branches : Node → List (Block Node)
  | .template _ _ _ body => branchesOf body
  | .function .. => []
  | .conditional _ condition ⟨thenBody, thenScope⟩ none =>
    condition.branches ++ ⟨thenBody, thenScope⟩ :: branchesOf thenBody
  | .conditional _ condition ⟨thenBody, thenScope⟩ (some ⟨elseBody, elseScope⟩) =>
    condition.branches ++ ⟨thenBody, thenScope⟩ :: branchesOf thenBody ++
      ⟨elseBody, elseScope⟩ :: branchesOf elseBody
  | .assign _ _ value => value.branches
  | .identifier .. | .placeholder .. | .literal .. => []
  | .binary _ _ left right => left.branches ++ right.branches
  | .filter _ operand _ _ => operand.branches
  | .call _ callee arguments => callee.branches ++ branchesOf arguments
  | .list _ items => branchesOf items
  | .write _ operand => operand.branches
termination_by structural n => n

/-- The branches below a list of nodes. -/
def branchesOf : List Node → List (Block Node)
  | [] => []
  | n :: rest => n.branches ++ branchesOf rest
termination_by structural ns => ns

end

theorem branchesOf_append (first second : List Node) :
    branchesOf (first ++ second) = branchesOf first ++ branchesOf second := by
  induction first with
  | nil => rfl
  | cons n rest ih => rw [List.cons_append, branchesOf, branchesOf, ih, List.append_assoc]

theorem branchesOf_eq_nil {ns : List Node} (h : ∀ n ∈ ns, n.branches = []) :
    branchesOf ns = [] := by
  induction ns with
  | nil => rfl
  | cons n rest ih =>
    rw [branchesOf, h n List.mem_cons_self, ih fun m later => h m (List.mem_cons_of_mem _ later)]
    rfl

mutual

/-- The scopes of a function belong to its blocks. -/
theorem map_scope_branches (n : Node) : n.branches.map Block.scope = n.scopes := by
  cases n with
  | template span name globals body => exact map_scope_branchesOf body
  | function | identifier | placeholder | literal => rfl
  | conditional span condition thenBranch elseBranch =>
    obtain ⟨thenBody, thenScope⟩ := thenBranch
    cases elseBranch with
    | none =>
      rw [branches, scopes, List.map_append, List.map_cons, map_scope_branches condition,
        map_scope_branchesOf thenBody]
    | some block =>
      obtain ⟨elseBody, elseScope⟩ := block
      rw [branches, scopes, List.map_append, List.map_append, List.map_cons, List.map_cons,
        map_scope_branches condition, map_scope_branchesOf thenBody, map_scope_branchesOf elseBody]
  | assign span target value => exact map_scope_branches value
  | binary span op left right =>
    rw [branches, scopes, List.map_append, map_scope_branches left, map_scope_branches right]
  | filter span operand name cachedAs => exact map_scope_branches operand
  | call span callee arguments =>
    rw [branches, scopes, List.map_append, map_scope_branches callee,
      map_scope_branchesOf arguments]
  | list span items => exact map_scope_branchesOf items
  | write span operand => exact map_scope_branches operand
termination_by structural n

theorem map_scope_branchesOf (ns : List Node) : (branchesOf ns).map Block.scope = scopesOf ns := by
  cases ns with
  | nil => rfl
  | cons n rest =>
    rw [branchesOf, scopesOf, List.map_append, map_scope_branches n, map_scope_branchesOf rest]
termination_by structural ns

end

mutual

theorem branches_trans {block inner : Block Node} (n : Node) (h : block ∈ n.branches)
    (inside : inner ∈ branchesOf block.body) : inner ∈ n.branches := by
  cases n with
  | template span name globals body => exact branchesOf_trans body h inside
  | function | identifier | placeholder | literal => cases h
  | conditional span condition thenBranch elseBranch =>
    obtain ⟨thenBody, thenScope⟩ := thenBranch
    cases elseBranch with
    | none =>
      simp only [branches, List.mem_append, List.mem_cons] at h ⊢
      rcases h with tested | rfl | below
      · exact .inl (branches_trans condition tested inside)
      · exact .inr (.inr inside)
      · exact .inr (.inr (branchesOf_trans thenBody below inside))
    | some other =>
      obtain ⟨elseBody, elseScope⟩ := other
      simp only [branches, List.mem_append, List.mem_cons] at h ⊢
      rcases h with (tested | rfl | below) | rfl | below
      · exact .inl (.inl (branches_trans condition tested inside))
      · exact .inl (.inr (.inr inside))
      · exact .inl (.inr (.inr (branchesOf_trans thenBody below inside)))
      · exact .inr (.inr inside)
      · exact .inr (.inr (branchesOf_trans elseBody below inside))
  | assign span target value => exact branches_trans value h inside
  | binary span op left right =>
    simp only [branches, List.mem_append] at h ⊢
    exact h.imp (branches_trans left · inside) (branches_trans right · inside)
  | filter span operand name cachedAs => exact branches_trans operand h inside
  | call span callee arguments =>
    simp only [branches, List.mem_append] at h ⊢
    exact h.imp (branches_trans callee · inside) (branchesOf_trans arguments · inside)
  | list span items => exact branchesOf_trans items h inside
  | write span operand => exact branches_trans operand h inside
termination_by structural n

/-- A branch of a branch is a branch. -/
theorem branchesOf_trans {block inner : Block Node} (ns : List Node) (h : block ∈ branchesOf ns)
    (inside : inner ∈ branchesOf block.body) : inner ∈ branchesOf ns := by
  cases ns with
  | nil => cases h
  | cons n rest =>
    simp only [branchesOf, List.mem_append] at h ⊢
    exact h.imp (branches_trans n · inside) (branchesOf_trans rest · inside)
termination_by structural ns

end

/-- The statements of a body and of the branches in it. -/
def statementsOf (body : List Node) : List Node := body ++ (branchesOf body).flatMap Block.body

theorem mem_statementsOf_cons {n m : Node} {rest : List Node} :
    m ∈ statementsOf (n :: rest) ↔
      m = n ∨ m ∈ n.branches.flatMap Block.body ∨ m ∈ statementsOf rest := by
  simp only [statementsOf, branchesOf, List.flatMap_append, List.cons_append, List.mem_cons,
    List.mem_append]
  grind

theorem targets_append (first second : List Node) :
    targets (first ++ second) = targets first ++ targets second :=
  List.filterMap_append

theorem mem_targets_cons {n : Node} {rest : List Node} {name : String} :
    name ∈ targets (statementsOf (n :: rest)) ↔
      n.target? = some name ∨ name ∈ targets (n.branches.flatMap Block.body) ∨
        name ∈ targets (statementsOf rest) := by
  simp only [targets, List.mem_filterMap, mem_statementsOf_cons]
  grind

/-- The variable that an assignment sets, with its value. -/
def binding? : Node → Option (String × Node)
  | .assign _ target value => some (target, value)
  | _ => none

theorem exists_assign_of_binding {n : Node} {target : String} {value : Node}
    (h : n.binding? = some (target, value)) : ∃ span, n = .assign span target value := by
  cases n with
  | assign span => cases h; exact ⟨span, rfl⟩
  | template | function | conditional | identifier | placeholder | literal | binary | filter | call
  | list | write => cases h

end Node

namespace Block

/-- The blocks of a function: its body, and the branches in it. -/
def blocks (block : Block Node) : List (Block Node) := block :: Node.branchesOf block.body

theorem blocks_trans {block inner deeper : Block Node} (h : inner ∈ block.blocks)
    (inside : deeper ∈ Node.branchesOf inner.body) : deeper ∈ block.blocks := by
  rcases List.mem_cons.1 h with rfl | below
  · exact List.mem_cons_of_mem _ inside
  · exact List.mem_cons_of_mem _ (Node.branchesOf_trans block.body below inside)

/-- The aliases of a function: the names that its scopes list for computations. -/
def aliasNames (block : Block Node) : List String := block.declaredAliases.map Prod.fst

theorem mem_aliasNames {block : Block Node} {name : String} :
    name ∈ block.aliasNames ↔ ∃ inner ∈ block.blocks, name ∈ inner.scope.aliases.values := by
  have scopes : block.scopes = block.blocks.map Block.scope := by
    rw [Block.scopes, blocks, List.map_cons, Node.map_scope_branchesOf]
  simp only [aliasNames, declaredAliases, scopes, OrderedMap.values, List.mem_map,
    List.mem_flatMap, exists_exists_and_eq_and, Prod.exists, Prod.swap_prod_mk, Prod.mk.injEq]
  constructor
  · rintro ⟨_, c, ⟨inner, member, c', _, listed, rfl, rfl⟩, rfl⟩
    exact ⟨inner, member, c', _, listed, rfl⟩
  · rintro ⟨inner, member, c, _, listed, rfl⟩
    exact ⟨_, c, ⟨inner, member, c, _, listed, rfl, rfl⟩, rfl⟩

/-- What the statements of a function set is what its blocks set. -/
theorem mem_targets {block : Block Node} {name : String} :
    name ∈ Node.targets (Node.statementsOf block.body) ↔
      ∃ inner ∈ block.blocks, name ∈ Node.targets inner.body := by
  simp only [blocks, Node.statementsOf, Node.targets, List.mem_filterMap, List.mem_append,
    List.mem_flatMap, List.mem_cons]
  grind

/-- The assignments in the blocks of a function: the variables and their values. -/
def bindings (block : Block Node) : List (String × Node) :=
  (Node.statementsOf block.body).filterMap Node.binding?

/-- The definitions that only the optimised form of a function has: those of introduced aliases. -/
def definitions (source optimized : Block Node) : List (String × Node) :=
  optimized.bindings.filter fun definition => definition.1 ∉ source.assignments

end Block

/-- The blocks of a tree: those outside its functions, and those of each function. -/
def Node.blocks (root : Node) : List (Block Node) :=
  root.branches ++ root.functions.flatMap Block.blocks

theorem Node.Retopped.branches_eq {root tree : Node} {out : List Node}
    (h : root.Retopped out tree) : tree.branches = Node.branchesOf out := by
  cases h with
  | template => rfl
  | alone => exact (List.append_nil _).symm

/-- Nodes without blocks. -/
structure Node.Flat (nodes : List Node) : Prop where
  branches : Node.branchesOf nodes = []
  functions : Node.functionsOf nodes = []

namespace Node.Flat

theorem nil : Flat [] := ⟨rfl, rfl⟩

theorem append {first second : List Node} (h : Flat first) (h' : Flat second) :
    Flat (first ++ second) :=
  ⟨by rw [branchesOf_append, h.branches, h'.branches]; rfl,
    by rw [functionsOf_append, h.functions, h'.functions]; rfl⟩

theorem head {n : Node} {rest : List Node} (h : Flat (n :: rest)) :
    n.branches = [] ∧ n.functions = [] := by
  have branches := h.branches
  have functions := h.functions
  rw [branchesOf, List.append_eq_nil_iff] at branches
  rw [functionsOf_cons, List.append_eq_nil_iff] at functions
  exact ⟨branches.1, functions.1⟩

theorem cons {n : Node} {rest : List Node} (branches : n.branches = [])
    (functions : n.functions = [])
    (h : Flat rest) : Flat (n :: rest) :=
  ⟨by rw [branchesOf, branches, h.branches]; rfl,
    by rw [functionsOf_cons, functions, h.functions]; rfl⟩

theorem binary {left right : Node} {rest : List Node} (span : Span) (op : Operator)
    (first : Flat [left]) (second : Flat [right]) (h : Flat rest) :
    Flat (.binary span op left right :: rest) := by
  refine .cons ?_ ?_ h
  · rw [Node.branches, first.head.1, second.head.1, List.append_nil]
  · rw [functions_binary, first.head.2, second.head.2, List.append_nil]

theorem filter {operand : Node} {rest : List Node} (span : Span) (name cachedAs : Option String)
    (inner : Flat [operand]) (h : Flat rest) : Flat (.filter span operand name cachedAs :: rest) :=
  .cons inner.head.1 inner.head.2 h

theorem call {callee : Node} {arguments rest : List Node} (span : Span) (first : Flat [callee])
    (second : Flat arguments) (h : Flat rest) : Flat (.call span callee arguments :: rest) := by
  refine .cons ?_ ?_ h
  · rw [Node.branches, first.head.1, second.branches, List.append_nil]
  · rw [functions_call, first.head.2, second.functions, List.append_nil]

theorem list {items rest : List Node} (span : Span) (inner : Flat items) (h : Flat rest) :
    Flat (.list span items :: rest) :=
  .cons inner.branches inner.functions h

end Node.Flat

section Expressions

variable {table : AliasTable} {assigned : Assigned String} {defined : List String}

mutual

theorem Node.Resolved.branches_eq (e : Node) (h : e.Resolved table assigned defined) :
    e.branches = [] := by
  cases e with
  | identifier | literal | placeholder => rfl
  | binary span op left right =>
    rw [Node.branches, Node.Resolved.branches_eq left h.1, Node.Resolved.branches_eq right h.2,
      List.append_nil]
  | filter span operand name cachedAs => exact Node.Resolved.branches_eq operand h.1
  | call span callee arguments =>
    rw [Node.branches, Node.Resolved.branches_eq callee h.1,
      Node.ResolvedEach.branchesOf_eq arguments h.2, List.append_nil]
  | list span items => exact Node.ResolvedEach.branchesOf_eq items h
  | template | function | conditional | assign | write => exact h.elim
termination_by structural e

theorem Node.ResolvedEach.branchesOf_eq (es : List Node)
    (h : Node.ResolvedEach table assigned defined es) : Node.branchesOf es = [] := by
  cases es with
  | nil => rfl
  | cons e rest =>
    rw [Node.branchesOf, Node.Resolved.branches_eq e h.1, Node.ResolvedEach.branchesOf_eq rest h.2,
      List.append_nil]
termination_by structural es

end

theorem Annotated.branches_eq {e e' : Node} (h : Annotated table assigned defined e e') :
    e'.branches = [] := Node.Resolved.branches_eq e' h.resolved

theorem Definition.branches_eq {c : Computation} {value : Node}
    (h : Definition table defined c value) : value.branches = [] := by
  cases h with
  | lookup | filter => rfl

theorem Definition.assignments_eq {c : Computation} {value : Node}
    (h : Definition table defined c value) : value.assignments = [] := by
  cases h with
  | lookup | filter => rfl

theorem Definition.computation_eq {c : Computation} {value : Node}
    (h : Definition table defined c value) : value.computation? = some c := by
  cases h with
  | lookup | filter => rfl

end Expressions

section Expanded

variable {table : AliasTable} {assigned after : Assigned String} {defined : List String}
  {source out : List Node}

/-- The assignments of an optimised body that define no alias are those of the source, in order. -/
theorem Expanded.assignments_filter (h : Expanded table assigned defined source out after) :
    (Node.assignmentsOf out).filter (fun name => (table name).isNone) =
      Node.assignmentsOf source := by
  induction h with
  | nil => rfl
  | define span held definition later ih =>
    rw [Node.assignmentsOf, Node.assignments, definition.assignments_eq, List.cons_append,
      List.filter_cons_of_neg (by simp [held]), List.nil_append]
    exact ih
  | assign span free noted later ih =>
    simp only [Node.assignmentsOf, Node.assignments, noted.assignments_eq,
      Node.Resolved.assignments_eq _ noted.resolved, List.cons_append, List.nil_append]
    rw [List.filter_cons_of_pos (by simp [free]), ih]
  | write span noted later ih =>
    simp only [Node.assignmentsOf, Node.assignments, noted.assignments_eq,
      Node.Resolved.assignments_eq _ noted.resolved, List.nil_append]
    exact ih
  | expression noted later ih =>
    simp only [Node.assignmentsOf, noted.assignments_eq,
      Node.Resolved.assignments_eq _ noted.resolved, List.nil_append]
    exact ih
  | branch span noted lists thenSide later thenIH ih =>
    simp only [Node.assignmentsOf, Node.assignments, noted.assignments_eq,
      Node.Resolved.assignments_eq _ noted.resolved, List.nil_append, List.filter_append, thenIH,
      ih]
  | branches span noted thenLists elseLists thenSide elseSide later thenIH elseIH ih =>
    simp only [Node.assignmentsOf, Node.assignments, noted.assignments_eq,
      Node.Resolved.assignments_eq _ noted.resolved, List.nil_append, List.filter_append, thenIH,
      elseIH, ih]
  | function span name constant lists affordable within later _ ih => exact ih

/-- A variable of an optimised body is one of the source if and only if it is no alias. -/
theorem Expanded.table_eq_none_iff (h : Expanded table assigned defined source out after)
    {name : String} (member : name ∈ Node.assignmentsOf out) :
    table name = none ↔ name ∈ Node.assignmentsOf source := by
  constructor
  · intro free
    rw [← h.assignments_filter, List.mem_filter, free]
    exact ⟨member, rfl⟩
  · exact h.target_free

/-- The introduced variables of an optimised body are the aliases that it defines. -/
theorem Expanded.mem_introduced (h : Expanded table assigned defined source out after)
    {scope scope' : Scope} {name : String} :
    name ∈ Block.introduced ⟨source, scope⟩ ⟨out, scope'⟩ ↔
      name ∈ Node.assignmentsOf out ∧ (table name).isSome := by
  refine List.mem_filter.trans (and_congr_right fun member => ?_)
  rw [decide_eq_true_eq, Option.isSome_iff_ne_none]
  exact not_congr (h.table_eq_none_iff member).symm

/-- An assignment in a block of an optimised body is one of the source, or defines an alias. -/
theorem Expanded.definition_cases (h : Expanded table assigned defined source out after)
    {span : Span} {target : String} {value : Node}
    (member : .assign span target value ∈ Node.statementsOf out) :
    target ∈ Node.assignmentsOf source ∨
      ∃ c ready, table target = some c ∧ Definition table ready c value := by
  induction h with
  | nil => cases member
  | @define table assigned after defined source out alternative c value' place held definition later
      ih =>
    rcases Node.mem_statementsOf_cons.1 member with here | inside | behind
    · cases here
      exact .inr ⟨c, defined, held, definition⟩
    · rw [Node.branches, definition.branches_eq] at inside
      cases inside
    · exact ih behind
  | assign place free noted later ih =>
    rw [Node.assignmentsOf, Node.assignments]
    rcases Node.mem_statementsOf_cons.1 member with here | inside | behind
    · cases here
      exact .inl (List.mem_append_left _ List.mem_cons_self)
    · rw [Node.branches, noted.branches_eq] at inside
      cases inside
    · exact (ih behind).imp_left (List.mem_append_right _)
  | write place noted later ih =>
    rcases Node.mem_statementsOf_cons.1 member with here | inside | behind
    · cases here
    · rw [Node.branches, noted.branches_eq] at inside
      cases inside
    · exact (ih behind).imp_left (List.mem_append_right _)
  | expression noted later ih =>
    rcases Node.mem_statementsOf_cons.1 member with here | inside | behind
    · exact (here ▸ noted.resolved : Node.Resolved _ _ _ (.assign span target value)).elim
    · rw [noted.branches_eq] at inside
      cases inside
    · exact (ih behind).imp_left (List.mem_append_right _)
  | branch place noted lists thenSide later thenIH ih =>
    rw [Node.assignmentsOf, Node.assignments, List.mem_append, List.mem_append]
    rcases Node.mem_statementsOf_cons.1 member with here | inside | behind
    · cases here
    · rw [Node.branches, noted.branches_eq] at inside
      exact (thenIH inside).imp_left fun there => .inl (.inr there)
    · exact (ih behind).imp_left .inr
  | branches place noted thenLists elseLists thenSide elseSide later thenIH elseIH ih =>
    rw [Node.assignmentsOf, Node.assignments, List.mem_append, List.mem_append, List.mem_append]
    rcases Node.mem_statementsOf_cons.1 member with here | inside | behind
    · cases here
    · rw [Node.branches, noted.branches_eq, List.nil_append, List.flatMap_append,
        List.mem_append] at inside
      rcases inside with inThen | inElse
      · exact (thenIH inThen).imp_left fun there => .inl (.inl (.inr there))
      · exact (elseIH inElse).imp_left fun there => .inl (.inr there)
    · exact (ih behind).imp_left .inr
  | function place name constant lists affordable within later _ ih =>
    rcases Node.mem_statementsOf_cons.1 member with here | inside | behind
    · cases here
    · cases inside
    · exact (ih behind).imp_left (List.mem_append_right _)

theorem Expanded.assign_cases (h : Expanded table assigned defined source out after) {span : Span}
    {target : String} {value : Node} (member : .assign span target value ∈ Node.statementsOf out) :
    target ∈ Node.assignmentsOf source ∨
      ∃ c, table target = some c ∧ value.computation? = some c := by
  refine (h.definition_cases member).imp_right ?_
  rintro ⟨c, ready, held, definition⟩
  exact ⟨c, held, definition.computation_eq⟩

/-- A variable is assigned in an optimised body if and only if a statement of one of its blocks sets
it. -/
theorem Expanded.mem_targets (h : Expanded table assigned defined source out after)
    {name : String} :
    name ∈ Node.targets (Node.statementsOf out) ↔ name ∈ Node.assignmentsOf out := by
  induction h with
  | nil => exact Iff.rfl
  | define span held definition later ih =>
    rw [Node.mem_targets_cons, ih, Node.branches, definition.branches_eq, Node.assignmentsOf,
      Node.assignments, definition.assignments_eq]
    simp [Node.target?, Node.targets, eq_comm]
  | assign span free noted later ih =>
    rw [Node.mem_targets_cons, ih, Node.branches, noted.branches_eq, Node.assignmentsOf,
      Node.assignments, Node.Resolved.assignments_eq _ noted.resolved]
    simp [Node.target?, Node.targets, eq_comm]
  | write span noted later ih =>
    rw [Node.mem_targets_cons, ih, Node.branches, noted.branches_eq, Node.assignmentsOf,
      Node.assignments, Node.Resolved.assignments_eq _ noted.resolved]
    simp [Node.target?, Node.targets]
  | expression noted later ih =>
    rw [Node.mem_targets_cons, ih, noted.branches_eq, Node.assignmentsOf,
      Node.Resolved.assignments_eq _ noted.resolved]
    simp [noted.target_eq, Node.targets]
  | branch span noted lists thenSide later thenIH ih =>
    rw [Node.mem_targets_cons, ih, Node.branches, noted.branches_eq, Node.assignmentsOf,
      Node.assignments, Node.Resolved.assignments_eq _ noted.resolved, List.nil_append,
      List.nil_append, List.mem_append, ← thenIH]
    simp [Node.target?, Node.statementsOf]
  | branches span noted thenLists elseLists thenSide elseSide later thenIH elseIH ih =>
    rw [Node.mem_targets_cons, ih, Node.branches, noted.branches_eq, Node.assignmentsOf,
      Node.assignments, Node.Resolved.assignments_eq _ noted.resolved, List.nil_append,
      List.nil_append, List.mem_append, List.mem_append, ← thenIH, ← elseIH, List.flatMap_append,
      Node.targets_append, List.mem_append]
    simp [Node.target?, Node.statementsOf]
  | function span name constant lists affordable within later _ ih =>
    rw [Node.mem_targets_cons, ih]
    simp [Node.target?, Node.branches, Node.targets, Node.assignmentsOf, Node.assignments]

end Expanded

end Stencil
