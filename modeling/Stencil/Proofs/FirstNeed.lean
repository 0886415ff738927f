import Stencil.Proofs.Needs

/-!
# Definitions by first need

A block defines an alias directly in front of the first of its statements that uses the computation,
unless a block around it has defined the alias before, and it defines nothing else. The definitions
in front of one statement stand in the order of first use.

The rows of a block are its statements with the definitions in front of each. A condition belongs to
the block that the conditional stands in, and its branches see what is defined in front of it.

* `Statements.laid`: the rows of a block and of the branches in it.
* `analyze_defines_by_first_need`: the rows of every block of an analysed function.
-/

namespace Stencil

/-- A statement of a block with the definitions in front of it. -/
structure Row where
  definitions : List Node
  statement : Node

namespace Row

/-- The nodes of a row as they stand in the block. -/
def nodes (row : Row) : List Node := row.definitions ++ [row.statement]

/-- Whether the statement is what became of a statement of the source, branches apart. -/
def Carries (row : Row) (n : Node) : Prop :=
  row.statement.own?.map Node.bare = n.own? ∧ row.statement.target? = n.target?

/-- The definitions of a row where the given computations are known before. They set aliases and the
statement does not; they keep what the statement uses and is not known, in the order of first use;
and none of them reads an alias that a later one sets. -/
structure Supplied (aliases : String → Bool) (known : List Computation) (row : Row) : Prop where
  definitions : ∀ d ∈ row.definitions, d.setsOne aliases = true ∧ d.defines?.isSome
  statement : row.statement.setsOne aliases = false
  keys : Node.defined row.definitions = firstNeeds known row.statement.needs
  sources : row.definitions.Pairwise fun d later =>
    ∀ c, d.defines? = some c → ∀ name ∈ c.identifiers, later.target? ≠ some name

theorem Supplied.congr {aliases : String → Bool} {known known' : List Computation} {row : Row}
    (h : row.Supplied aliases known) (same : ∀ c, c ∈ known ↔ c ∈ known') :
    row.Supplied aliases known' :=
  ⟨h.definitions, h.statement, h.keys.trans (firstNeeds_congr same _), h.sources⟩

end Row

/-- The statements of a block, where each has in front of it the definitions of what it is the first
to use. What the blocks around have defined before is known. -/
def ByNeed (aliases : String → Bool) (outer : List Computation) (source out : List Node) : Prop :=
  ∃ rows : List Row, out = rows.flatMap Row.nodes ∧
    List.Forall₂ (fun n row => row.Carries n) source rows ∧
    ∀ before row after, rows = before ++ row :: after →
      row.Supplied aliases (outer ++ before.flatMap fun row => row.statement.needs)

theorem ByNeed.nil (aliases : String → Bool) (outer : List Computation) :
    ByNeed aliases outer [] [] :=
  ⟨[], rfl, .nil, fun before row after h => by simp at h⟩

/-- One more statement in front. What is known behind it is what was known, and what it uses. -/
theorem ByNeed.cons {aliases : String → Bool} {outer known : List Computation} {n n' : Node}
    {definitions rest rest' : List Node} (first : Row.Supplied aliases outer ⟨definitions, n'⟩)
    (same : Row.Carries ⟨definitions, n'⟩ n) (behind : ∀ c, c ∈ known ↔ c ∈ outer ++ n'.needs)
    (later : ByNeed aliases known rest rest') :
    ByNeed aliases outer (n :: rest) (definitions ++ n' :: rest') := by
  obtain ⟨rows, rfl, carried, supplied⟩ := later
  refine ⟨⟨definitions, n'⟩ :: rows, by simp [Row.nodes], .cons same carried, ?_⟩
  intro before row after split
  cases before with
  | nil =>
    cases split
    simpa using first
  | cons head before =>
    obtain ⟨rfl, tail⟩ := List.cons.inj split
    apply (supplied before row after tail).congr
    intro c
    simp only [List.mem_append, List.flatMap_cons, behind c, or_assoc]

/-- A branch, with the computations that the blocks around it have defined before. -/
structure Placed where
  outer : List Computation
  block : Block Node

namespace Node

mutual

/-- The branches at or below a node, in front of which the given computations are defined. -/
def placedBranches (aliases : String → Bool) (known : List Computation) : Node → List Placed
  | .template _ _ _ body => placedBranchesOf aliases known body
  | .function .. => []
  | .conditional _ condition ⟨thenBody, thenScope⟩ none =>
    condition.placedBranches aliases known ++
      ⟨known, ⟨thenBody, thenScope⟩⟩ :: placedBranchesOf aliases known thenBody
  | .conditional _ condition ⟨thenBody, thenScope⟩ (some ⟨elseBody, elseScope⟩) =>
    condition.placedBranches aliases known ++
      ⟨known, ⟨thenBody, thenScope⟩⟩ :: placedBranchesOf aliases known thenBody ++
      ⟨known, ⟨elseBody, elseScope⟩⟩ :: placedBranchesOf aliases known elseBody
  | .assign _ _ value => value.placedBranches aliases known
  | .identifier .. | .placeholder .. | .literal .. => []
  | .binary _ _ left right => left.placedBranches aliases known ++ right.placedBranches aliases known
  | .filter _ operand _ _ => operand.placedBranches aliases known
  | .call _ callee arguments =>
    callee.placedBranches aliases known ++ placedBranchesOf aliases known arguments
  | .list _ items => placedBranchesOf aliases known items
  | .write _ operand => operand.placedBranches aliases known
termination_by structural n => n

/-- The branches below nodes. A definition of an alias is known to the nodes behind it. -/
def placedBranchesOf (aliases : String → Bool) (known : List Computation) : List Node → List Placed
  | [] => []
  | n :: rest =>
    n.placedBranches aliases known ++
      placedBranchesOf aliases
        (if n.setsOne aliases then known ++ n.defines?.toList else known) rest
termination_by structural ns => ns

end

mutual

/-- These are all branches. -/
theorem map_block_placedBranches (aliases : String → Bool) (known : List Computation) (n : Node) :
    (n.placedBranches aliases known).map Placed.block = n.branches := by
  cases n with
  | template span name globals body => exact map_block_placedBranchesOf aliases known body
  | function | identifier | placeholder | literal => rfl
  | conditional span condition thenBranch elseBranch =>
    obtain ⟨thenBody, thenScope⟩ := thenBranch
    have test := map_block_placedBranches aliases known condition
    have thenSide := map_block_placedBranchesOf aliases known thenBody
    cases elseBranch with
    | none => simp [placedBranches, branches, test, thenSide]
    | some block =>
      obtain ⟨elseBody, elseScope⟩ := block
      have elseSide := map_block_placedBranchesOf aliases known elseBody
      simp [placedBranches, branches, test, thenSide, elseSide]
  | assign span target value => exact map_block_placedBranches aliases known value
  | binary span op left right =>
    rw [placedBranches, branches, List.map_append, map_block_placedBranches aliases known left,
      map_block_placedBranches aliases known right]
  | filter span operand name cachedAs => exact map_block_placedBranches aliases known operand
  | call span callee arguments =>
    rw [placedBranches, branches, List.map_append, map_block_placedBranches aliases known callee,
      map_block_placedBranchesOf aliases known arguments]
  | list span items => exact map_block_placedBranchesOf aliases known items
  | write span operand => exact map_block_placedBranches aliases known operand
termination_by structural n

theorem map_block_placedBranchesOf (aliases : String → Bool) (known : List Computation)
    (body : List Node) :
    (placedBranchesOf aliases known body).map Placed.block = branchesOf body := by
  cases body with
  | nil => rfl
  | cons n rest =>
    rw [placedBranchesOf, branchesOf, List.map_append, map_block_placedBranches aliases known n,
      map_block_placedBranchesOf aliases _ rest]
termination_by structural body

end

/-- Without branches there is nothing to place. -/
theorem placedBranches_eq_nil {n : Node} (h : n.branches = []) (aliases : String → Bool)
    (known : List Computation) : n.placedBranches aliases known = [] := by
  rw [← map_block_placedBranches aliases known n] at h
  exact List.map_eq_nil_iff.1 h

/-- The branches of a statement and of those behind, with the definitions in front. -/
theorem placedBranchesOf_splice {aliases : String → Bool} {definitions : List Node} {n : Node}
    (flat : branchesOf definitions = []) (sets : ∀ d ∈ definitions, d.setsOne aliases = true)
    (other : n.setsOne aliases = false) (known : List Computation) (rest : List Node) :
    placedBranchesOf aliases known (definitions ++ n :: rest) =
      n.placedBranches aliases (known ++ defined definitions) ++
        placedBranchesOf aliases (known ++ defined definitions) rest := by
  induction definitions generalizing known with
  | nil =>
    rw [List.nil_append, placedBranchesOf, other, defined, List.filterMap_nil, List.append_nil]
    rfl
  | cons d more ih =>
    have here : d.setsOne aliases = true := sets d List.mem_cons_self
    obtain ⟨flatHere, flatMore⟩ := List.append_eq_nil_iff.1 flat
    have later := ih flatMore (fun d' member => sets d' (List.mem_cons_of_mem _ member))
      (known ++ d.defines?.toList)
    have keys : known ++ defined (d :: more) = known ++ d.defines?.toList ++ defined more := by
      cases kept : d.defines? with
      | none => simp [defined, kept]
      | some c => simp [defined, kept]
    rw [List.cons_append, placedBranchesOf, placedBranches_eq_nil flatHere, here, if_pos rfl,
      List.nil_append, later, keys]

end Node

/-- The blocks of a function, each with what the blocks around it have defined before. -/
def Block.placedBlocks (block : Block Node) : List Placed :=
  ⟨[], block⟩ :: Node.placedBranchesOf (· ∈ block.aliasNames) [] block.body

namespace Analysis

/-- The state behind the expression of a statement that uses the given computations: what is pending
are the definitions that belong in front of the statement. -/
structure Drawn (ctx : Context) (aliases : String → Bool) (known uses : List Computation)
    (next : State) : Prop where
  flat : Node.Flat next.frame.pending
  sighted : Sighted ctx next
  sight : ∀ c, c ∈ known ++ Node.defined next.frame.pending ↔ (next.visibleAlias? ctx c).isSome
  definitions : ∀ d ∈ next.frame.pending, d.setsOne aliases = true ∧ d.defines?.isSome
  keys : Node.defined next.frame.pending = firstNeeds known uses
  sources : next.frame.pending.Pairwise fun d later =>
    ∀ c, d.defines? = some c → ∀ name ∈ c.identifiers, later.target? ≠ some name

/-- The statements of a block and of the branches in it, each with its definitions in front. -/
structure Laid (aliases : String → Bool) (known : List Computation) (source out : List Node) :
    Prop where
  rows : ByNeed aliases known source out
  branches : List.Forall₂ (fun b p => ByNeed aliases p.outer b.body p.block.body)
    (Node.branchesOf source) (Node.placedBranchesOf aliases known out)

section Blocks

variable {ctx : Context} {aliases : String → Bool} {known uses : List Computation}
  {st next last : State}

theorem Orderly.drawn {source : List Node} {e e' : Node} (h : Orderly aliases ctx st source last)
    (walk : Operands ctx st.beginStatement [e] [e'] next)
    (sight : ∀ c, c ∈ known ↔ (st.visibleAlias? ctx c).isSome)
    (keeps : ∀ name c, next.holders.get? name = some c → last.holders.get? name = some c) :
    Drawn ctx aliases known e'.uses next := by
  obtain ⟨draws, definitions⟩ := h.draws walk keeps
  obtain ⟨keys, seen⟩ := draws.keys known sight
  refine ⟨walk.flat_pending (flat_of_pending h.empty), draws.sighted, fun c => ?_, definitions, keys,
    draws.sources⟩
  rw [← seen c, keys, List.mem_append, List.mem_append, mem_firstNeeds]
  by_cases before : c ∈ known
  · simp [before]
  · simp [before]

/-- A statement without an expression of its own. -/
theorem Orderly.drawn_nothing {source : List Node} (h : Orderly aliases ctx st source last)
    (sight : ∀ c, c ∈ known ↔ (st.visibleAlias? ctx c).isSome) :
    Drawn ctx aliases known [] st := by
  refine ⟨flat_of_pending h.empty, h.sighted, ?_, ?_, ?_, ?_⟩
  · rw [h.empty]
    simpa [Node.defined] using sight
  · rw [h.empty]
    intro d member
    cases member
  · rw [h.empty]
    rfl
  · rw [h.empty]
    exact .nil

/-- One statement with the definitions in front of it, and the statements behind. -/
theorem Drawn.splice {n n' : Node} {rest rest' : List Node}
    (h : Drawn ctx aliases known n'.needs next) (other : n'.setsOne aliases = false)
    (same : n'.own?.map Node.bare = n.own?) (target : n'.target? = n.target?)
    (own : List.Forall₂ (fun b p => ByNeed aliases p.outer b.body p.block.body) n.branches
      (n'.placedBranches aliases (known ++ Node.defined next.frame.pending)))
    (later : Laid aliases (known ++ Node.defined next.frame.pending) rest rest') :
    Laid aliases known (n :: rest) (next.frame.pending ++ n' :: rest') := by
  constructor
  · apply ByNeed.cons ⟨h.definitions, other, h.keys, h.sources⟩ ⟨same, target⟩ _ later.rows
    intro c
    rw [h.keys, List.mem_append, List.mem_append, mem_firstNeeds]
    by_cases before : c ∈ known
    · simp [before]
    · simp [before]
  · rw [Node.placedBranchesOf_splice h.flat.branches (fun d member => (h.definitions d member).1)
      other]
    exact List.rel_append own later.branches

end Blocks

/-- Every block defines what it uses and does not see, in front of the statement that uses it
first. -/
theorem Statements.laid {ctx : Context} {aliases : String → Bool} {known : List Computation}
    {st last : State} {source out : List Node} (h : Statements ctx st source out last)
    (orderly : Orderly aliases ctx st source last)
    (sight : ∀ c, c ∈ known ↔ (st.visibleAlias? ctx c).isSome) :
    Laid aliases known source out := by
  induction h generalizing known with
  | nil => exact ⟨.nil _ _, .nil⟩
  | @function ctx st inner last body walked rest rest' scope span name inside later _ ih =>
    have drawn : Drawn ctx aliases known [] st := orderly.drawn_nothing sight
    have behind := ih (orderly.behind (drawn.sighted.of_keeps rfl fun _ _ held => held) rfl)
      drawn.sight
    exact drawn.splice rfl rfl rfl .nil behind
  | @branch ctx st tested inThen last condition condition' thenBody thenBody' rest rest' thenScope
      span test thenWalk later thenIH ih =>
    have keeps : ∀ name c, inThen.holders.get? name = some c → last.holders.get? name = some c :=
      later.keeps
    have drawn := orderly.drawn test sight fun name c held =>
      keeps name c (thenWalk.keeps name c held)
    obtain ⟨plainScope, orderlyThen⟩ := orderly.thenSide drawn.sighted keeps
    have inside := thenIH orderlyThen fun c => by
      rw [visibleAlias_enterBranch plainScope]
      exact drawn.sight c
    have behind := ih (orderly.behind (drawn.sighted.of_keeps rfl thenWalk.keeps) rfl) drawn.sight
    refine drawn.splice rfl (congrArg some test.bare_eq) rfl ?_ behind
    rw [Node.branches, test.flat.1.head.1, List.nil_append, Node.placedBranches,
      Node.placedBranches_eq_nil test.flat.2.head.1, List.nil_append]
    exact .cons inside.rows inside.branches
  | @branches ctx st tested inThen inElse last condition condition' thenBody thenBody' elseBody
      elseBody' rest rest' thenScope elseScope span test thenWalk elseWalk later thenIH elseIH ih =>
    have keeps : ∀ name c, inElse.holders.get? name = some c → last.holders.get? name = some c :=
      later.keeps
    have keepsThen (name : String) (c : Computation) (held : inThen.holders.get? name = some c) :
        last.holders.get? name = some c := keeps name c (elseWalk.keeps name c held)
    have drawn := orderly.drawn test sight fun name c held =>
      keepsThen name c (thenWalk.keeps name c held)
    obtain ⟨plainThen, orderlyThen⟩ := orderly.thenSide drawn.sighted keepsThen
    obtain ⟨plainElse, orderlyElse⟩ := orderly.elseSide drawn.sighted thenWalk.keeps keeps
    have behind := ih (orderly.behind (drawn.sighted.of_keeps rfl fun name c held =>
      elseWalk.keeps name c (thenWalk.keeps name c held)) rfl) drawn.sight
    have inThen := thenIH orderlyThen fun c => by
      rw [visibleAlias_enterBranch plainThen]
      exact drawn.sight c
    have inElse := elseIH orderlyElse fun c => by
      rw [visibleAlias_enterBranch plainElse]
      exact drawn.sight c
    refine drawn.splice rfl (congrArg some test.bare_eq) rfl ?_ behind
    rw [Node.branches, test.flat.1.head.1, List.nil_append, Node.placedBranches,
      Node.placedBranches_eq_nil test.flat.2.head.1, List.nil_append]
    apply List.rel_append
    · exact .cons inThen.rows inThen.branches
    · exact .cons inElse.rows inElse.branches
  | @assign ctx st next last value value' rest rest' span target inner later ih =>
    have drawn : Drawn ctx aliases known (Node.assign span target value').needs next :=
      orderly.drawn inner sight later.keeps
    have behind := ih (orderly.behind (drawn.sighted.of_keeps rfl fun _ _ held => held) rfl)
      drawn.sight
    refine drawn.splice ?_ (congrArg some inner.bare_eq) rfl ?_ behind
    · exact orderly.free target List.mem_cons_self
    · rw [Node.branches, inner.flat.1.head.1, Node.placedBranches,
        Node.placedBranches_eq_nil inner.flat.2.head.1]
      exact .nil
  | @write ctx st next last operand operand' rest rest' span inner later ih =>
    have drawn : Drawn ctx aliases known (Node.write span operand').needs next :=
      orderly.drawn inner sight later.keeps
    have behind := ih (orderly.behind (drawn.sighted.of_keeps rfl fun _ _ held => held) rfl)
      drawn.sight
    refine drawn.splice rfl (congrArg some inner.bare_eq) rfl ?_ behind
    rw [Node.branches, inner.flat.1.head.1, Node.placedBranches,
      Node.placedBranches_eq_nil inner.flat.2.head.1]
    exact .nil
  | @expression ctx st next last e e' rest rest' isExpression inner later ih =>
    obtain ⟨before, after, unset, unset'⟩ := inner.own_eq
    have drawn : Drawn ctx aliases known e'.needs next := by
      rw [Node.needs, after]
      exact orderly.drawn inner sight later.keeps
    have behind := ih (orderly.behind (drawn.sighted.of_keeps rfl fun _ _ held => held) rfl)
      drawn.sight
    refine drawn.splice ?_ ?_ (unset'.trans unset.symm) ?_ behind
    · rw [Node.setsOne, unset']
      rfl
    · rw [before, after, Option.map_some, inner.bare_eq]
    · rw [Node.placedBranches_eq_nil inner.flat.2.head.1, inner.flat.1.head.1]
      exact .nil

end Analysis

/-- In every function of an analysed tree the aliases are those that the analysis introduces, and
every block of the function has the definition of an alias directly in front of the first of its
statements that uses the computation, exactly if no block around it has defined the alias before;
the definitions in front of one statement stand in the order of first use. -/
theorem analyze_defines_by_first_need (options : Options) (root : Node) (analysis : Analysis)
    (source : root.isSource) (h : root.analyze options = .ok analysis) :
    List.Forall₂ (fun f g =>
        (∀ name, name ∈ g.aliasNames ↔ name ∈ f.introduced g) ∧
        g.placedBlocks.map Placed.block = g.blocks ∧
        List.Forall₂ (fun b p => ByNeed (· ∈ g.aliasNames) p.outer b.body p.block.body) f.blocks
          g.placedBlocks)
      root.functions analysis.tree.functions := by
  apply Analysis.analyze_forall_functions source h
  intro ctx st inner body walked scope plain source _ _ inside
  have nothing (c : Computation) : c ∈ ([] : List Computation) ↔
      ((st.enterFunction ⟨body, scope⟩).visibleAlias? (ctx.enterFunction ⟨body, scope⟩) c).isSome := by
    simp [Analysis.visibleAlias_enterFunction plain]
  have laid := inside.laid (Analysis.enterFunction_orderly plain source inside) nothing
  have optimizes := Analysis.enterFunction_optimizes plain source inside
  refine ⟨fun name => ?_, ?_, .cons laid.rows laid.branches⟩
  · rw [Analysis.enterFunction_aliasNames plain source inside, optimizes.expanded.mem_introduced]
    constructor
    · intro some
      obtain ⟨c, held⟩ := Option.isSome_iff_exists.1 some
      exact ⟨Analysis.enterFunction_assigned plain source inside held, some⟩
    · exact And.right
  · rw [Block.placedBlocks, List.map_cons, Node.map_block_placedBranchesOf]
    rfl

/-- A function that uses `foo` and its filter in front of a conditional, `bar` in the condition, `baz`
in both branches and behind them, and `qux` in a branch of a branch. -/
def stocked : Block Node :=
  let read (name : String) := Node.placeholder .generated name none
  .plain
    [.write .generated (.filter .generated (read "foo") none none),
      .conditional .generated (read "bar")
        (.plain [.write .generated (read "foo"), .write .generated (read "baz")])
        (some (.plain [.write .generated (read "baz"),
          .conditional .generated (read "baz") (.plain [.write .generated (read "qux")]) none])),
      .write .generated (.list .generated [read "baz", read "foo"])]

/-- What is known in front of each block and what the block defines: the branches do not see each
other, and the last statement does not see them. -/
theorem stocked_analyze :
    ∃ analysis g, (Node.function .generated "stocked" stocked).analyze .caching = .ok analysis ∧
      analysis.tree.functions = [g] ∧
      g.placedBlocks.map (fun p => (p.outer, Node.defined p.block.body)) =
        let foo : List Computation :=
          [.placeholder "foo", .filter none (.identifier "_rph_foo"), .placeholder "bar"]
        [([], foo ++ [.placeholder "baz"]), (foo, [.placeholder "baz"]),
          (foo, [.placeholder "baz"]), (foo ++ [.placeholder "baz"], [.placeholder "qux"])] :=
  ⟨_, _, rfl, rfl, by decide +kernel⟩

theorem stocked_defines_by_first_need :
    ∃ analysis g, (Node.function .generated "stocked" stocked).isSource = true ∧
      (Node.function .generated "stocked" stocked).analyze .caching = .ok analysis ∧
      analysis.tree.functions = [g] ∧
      g.placedBlocks.map (fun p => (p.outer, Node.defined p.block.body)) =
        (let foo : List Computation :=
          [.placeholder "foo", .filter none (.identifier "_rph_foo"), .placeholder "bar"]
        [([], foo ++ [.placeholder "baz"]), (foo, [.placeholder "baz"]),
          (foo, [.placeholder "baz"]), (foo ++ [.placeholder "baz"], [.placeholder "qux"])]) ∧
      List.Forall₂ (fun b p => ByNeed (· ∈ g.aliasNames) p.outer b.body p.block.body) stocked.blocks
        g.placedBlocks := by
  obtain ⟨analysis, g, analyzed, functions, placed⟩ := stocked_analyze
  have all := analyze_defines_by_first_need .caching (.function .generated "stocked" stocked)
    analysis (by decide) analyzed
  rw [functions] at all
  obtain ⟨-, -, rows⟩ := (List.forall₂_cons.1 all).1
  exact ⟨analysis, g, by decide, analyzed, functions, placed, rows⟩

end Stencil
