import Stencil.Proofs.Blocks
import Stencil.Proofs.Relocation
import Mathlib.Logic.Relation

/-!
# Hoisting as a run of moves

The hoisting pass goes over a function from the inside out. What it does to the function is a run of
moves, each of which takes one definition out of both branches of one conditional:

* `Move`: one move in a block or in a branch at any depth of it;
* `Kept`: a property of blocks that no move takes away from the blocks of a function, and
  `Kept.forall_blocks`, that no run takes it away either;
* `Optimizes.hoisted_moves`: the pass is such a run on every function;
* `functions_hoist`: it treats the functions of a tree one by one.

A move changes what a statement of a block does, but not what it sets for certain.
-/

namespace Stencil

namespace Node

mutual

/-- Whether a statement sets a variable whenever it runs: it is an assignment, or both of its
branches set it. -/
def supplies (name : String) : Node → Bool
  | .assign _ target _ => target = name
  | .conditional _ _ ⟨thenBody, _⟩ (some ⟨elseBody, _⟩) =>
    suppliesAny name thenBody && suppliesAny name elseBody
  | .conditional _ _ _ none | .template .. | .function .. | .identifier .. | .placeholder ..
  | .literal .. | .binary .. | .filter .. | .call .. | .list .. | .write .. => false
termination_by structural n => n

/-- Whether one of the statements sets a variable whenever it runs. -/
def suppliesAny (name : String) : List Node → Bool
  | [] => false
  | n :: rest => n.supplies name || suppliesAny name rest
termination_by structural ns => ns

end

theorem suppliesAny_append (name : String) (first second : List Node) :
    suppliesAny name (first ++ second) =
      (suppliesAny name first || suppliesAny name second) := by
  induction first with
  | nil => rfl
  | cons n rest ih => rw [List.cons_append, suppliesAny, suppliesAny, ih, Bool.or_assoc]

theorem supplies_branches (name : String) (span : Span) (condition : Node)
    (thenBranch elseBranch : Block Node) :
    (conditional span condition thenBranch (some elseBranch)).supplies name =
      (suppliesAny name thenBranch.body && suppliesAny name elseBranch.body) := by
  cases thenBranch
  cases elseBranch
  rfl

theorem branches_branch (span : Span) (condition : Node) (branch : Block Node) :
    (conditional span condition branch none).branches = condition.branches ++ branch.blocks := by
  cases branch
  rfl

theorem branches_branches (span : Span) (condition : Node) (thenBranch elseBranch : Block Node) :
    (conditional span condition thenBranch (some elseBranch)).branches =
      condition.branches ++ thenBranch.blocks ++ elseBranch.blocks := by
  cases thenBranch
  cases elseBranch
  rfl

/-- A conditional with a gap in place of one of its branches. -/
inductive Gap : (Block Node → Node) → Prop
  | alone (span : Span) (condition : Node) :
      Gap fun branch => .conditional span condition branch none
  | thenSide (span : Span) (condition : Node) (elseBranch : Block Node) :
      Gap fun branch => .conditional span condition branch (some elseBranch)
  | elseSide (span : Span) (condition : Node) (thenBranch : Block Node) :
      Gap fun branch => .conditional span condition thenBranch (some branch)

section Gap

variable {gap : Block Node → Node}

theorem Gap.target_eq (h : Gap gap) (branch : Block Node) : (gap branch).target? = none := by
  cases h with
  | alone | thenSide | elseSide => rfl

/-- The blocks of what fills the gap are branches, and the others do not depend on it. -/
theorem Gap.mem_branches (h : Gap gap) :
    ∃ others : List (Block Node), ∀ branch block,
      block ∈ (gap branch).branches ↔ block ∈ others ∨ block ∈ branch.blocks := by
  cases h with
  | alone span condition =>
    refine ⟨condition.branches, fun branch block => ?_⟩
    rw [branches_branch, List.mem_append]
  | thenSide span condition elseBranch =>
    refine ⟨condition.branches ++ elseBranch.blocks, fun branch block => ?_⟩
    rw [branches_branches, List.mem_append, List.mem_append, List.mem_append, or_right_comm]
  | elseSide span condition thenBranch =>
    refine ⟨condition.branches ++ thenBranch.blocks, fun branch block => ?_⟩
    rw [branches_branches, List.mem_append]

theorem Gap.supplies_eq (h : Gap gap) {name : String} {branch branch' : Block Node}
    (same : suppliesAny name branch'.body = suppliesAny name branch.body) :
    (gap branch').supplies name = (gap branch).supplies name := by
  cases h with
  | alone => rfl
  | thenSide span condition elseBranch => rw [supplies_branches, supplies_branches, same]
  | elseSide span condition thenBranch => rw [supplies_branches, supplies_branches, same]

end Gap

end Node

/-- The branches in a body, those of one of its statements apart. -/
theorem Node.mem_branchesOf_around {before behind : List Node} {n : Node} {block : Block Node} :
    block ∈ Node.branchesOf (before ++ n :: behind) ↔
      block ∈ n.branches ∨ block ∈ Node.branchesOf (before ++ behind) := by
  rw [Node.branchesOf_append, Node.branchesOf_append, Node.branchesOf]
  simp only [List.mem_append]
  exact or_left_comm

/-- The branches in a body, those of one of its conditionals apart. -/
theorem Node.mem_branchesOf_branches {before behind : List Node} {span : Span} {condition : Node}
    {thenBranch elseBranch block : Block Node} :
    block ∈ Node.branchesOf
        (before ++ .conditional span condition thenBranch (some elseBranch) :: behind) ↔
      (block = thenBranch ∨ block ∈ Node.branchesOf thenBranch.body) ∨
        (block = elseBranch ∨ block ∈ Node.branchesOf elseBranch.body) ∨
        block ∈ condition.branches ∨ block ∈ Node.branchesOf (before ++ behind) := by
  rw [Node.mem_branchesOf_around, Node.branches_branches, Block.blocks, Block.blocks]
  simp only [List.mem_append, List.mem_cons]
  grind

/-- A definition leaves a branch, which forgets the computation behind it. -/
inductive Leaves (c : Computation) (name : String) : Block Node → Node → Block Node → Prop
  | mk (front back : List Node) (place : Span) {value : Node} (scope : Scope)
      (flat : value.branches = []) :
      Leaves c name ⟨front ++ .assign place name value :: back, scope⟩ (.assign place name value)
        ⟨front ++ back, scope.forget c⟩

/-- One move: a definition leaves both branches of a conditional of a block, and the block registers
its alias. The move can also happen in a branch. Functions inside are none of its concern. -/
inductive Move (table : AliasTable) : Block Node → Block Node → Prop
  | out {c : Computation} {name : String} {before behind : List Node} {scope : Scope}
      {condition definition other : Node}
      {thenBranch thenBranch' elseBranch elseBranch' : Block Node} (span : Span)
      (held : table name = some c) (fromThen : Leaves c name thenBranch definition thenBranch')
      (fromElse : Leaves c name elseBranch other elseBranch') :
      Move table
        ⟨before ++ .conditional span condition thenBranch (some elseBranch) :: behind, scope⟩
        ⟨before ++
            definition :: .conditional span condition thenBranch' (some elseBranch') :: behind,
          scope.register c name⟩
  | inside {gap : Block Node → Node} {branch branch' : Block Node} {before behind : List Node}
      {scope : Scope} (isGap : Node.Gap gap) (step : Move table branch branch') :
      Move table ⟨before ++ gap branch :: behind, scope⟩ ⟨before ++ gap branch' :: behind, scope⟩
  | function {before behind : List Node} {scope : Scope} (span : Span) (name : String)
      (body body' : Block Node) :
      Move table ⟨before ++ .function span name body :: behind, scope⟩
        ⟨before ++ .function span name body' :: behind, scope⟩

/-- A run of moves. -/
abbrev Moves (table : AliasTable) : Block Node → Block Node → Prop :=
  Relation.ReflTransGen (Move table)

section Supply

variable {table : AliasTable} {a b : Block Node} {c : Computation} {name : String}
  {definition : Node}

theorem Leaves.suppliesAny (h : Leaves c name a definition b) :
    Node.suppliesAny name a.body = true := by
  cases h with
  | mk => simp [Node.suppliesAny_append, Node.suppliesAny, Node.supplies]

theorem Leaves.suppliesAny_of_ne (h : Leaves c name a definition b) {other : String}
    (different : name ≠ other) :
    Node.suppliesAny other b.body = Node.suppliesAny other a.body := by
  cases h with
  | mk => simp [Node.suppliesAny_append, Node.suppliesAny, Node.supplies, different]

theorem Leaves.supplies_eq (h : Leaves c name a definition b) (other : String) :
    definition.supplies other = decide (name = other) := by
  cases h with
  | mk => rw [Node.supplies]

theorem Leaves.branchesOf_out (h : Leaves c name a definition b) (before rest : List Node) :
    Node.branchesOf (before ++ definition :: rest) = Node.branchesOf (before ++ rest) := by
  cases h with
  | mk front back place scope flat =>
    rw [Node.branchesOf_append, Node.branchesOf_append, Node.branchesOf, Node.branches, flat,
      List.nil_append]

theorem Leaves.branchesOf_eq (h : Leaves c name a definition b) :
    Node.branchesOf b.body = Node.branchesOf a.body := by
  cases h with
  | mk front back place scope flat =>
    rw [Node.branchesOf_append, Node.branchesOf_append, Node.branchesOf, Node.branches, flat,
      List.nil_append]

/-- What a block sets for certain it still sets after a move. -/
theorem Move.suppliesAny_eq (h : Move table a b) (name : String) :
    Node.suppliesAny name b.body = Node.suppliesAny name a.body := by
  induction h with
  | @out _ moved _ _ _ _ _ _ _ _ _ _ span held fromThen fromElse =>
    simp only [Node.suppliesAny_append, Node.suppliesAny, Node.supplies_branches,
      fromThen.supplies_eq]
    -- the alias that moves was supplied by the conditional, and is now supplied in front of it
    by_cases here : moved = name
    · subst here
      rw [fromThen.suppliesAny, fromElse.suppliesAny]
      simp
    · rw [fromThen.suppliesAny_of_ne here, fromElse.suppliesAny_of_ne here]
      simp [here]
  | inside isGap step ih =>
    simp only [Node.suppliesAny_append, Node.suppliesAny, isGap.supplies_eq ih]
  | function => simp only [Node.suppliesAny_append, Node.suppliesAny, Node.supplies]

end Supply

/-- A property of blocks that moves keep: that of a conditional and the block around it when a
definition leaves the branches, and that of a block in which another statement is changed. -/
structure Kept (table : AliasTable) (P : Block Node → Prop) : Prop where
  out : ∀ {c : Computation} {name : String} {before behind : List Node} {scope : Scope}
    {condition definition other : Node}
    {thenBranch thenBranch' elseBranch elseBranch' : Block Node} (span : Span),
    table name = some c → Leaves c name thenBranch definition thenBranch' →
    Leaves c name elseBranch other elseBranch' →
    P ⟨before ++ .conditional span condition thenBranch (some elseBranch) :: behind, scope⟩ →
    P thenBranch → P elseBranch →
    P ⟨before ++ definition :: .conditional span condition thenBranch' (some elseBranch') :: behind,
        scope.register c name⟩ ∧
      P thenBranch' ∧ P elseBranch'
  around : ∀ {n n' : Node} (before behind : List Node) (scope : Scope), n.target? = none →
    n'.target? = none → (∀ name, n'.supplies name = n.supplies name) →
    P ⟨before ++ n :: behind, scope⟩ → P ⟨before ++ n' :: behind, scope⟩

section Kept

variable {table : AliasTable} {P : Block Node → Prop} {a b : Block Node}

theorem Kept.step (h : Kept table P) (move : Move table a b) (all : ∀ block ∈ a.blocks, P block) :
    ∀ block ∈ b.blocks, P block := by
  induction move with
  | @out c name before behind scope condition definition other thenBranch thenBranch' elseBranch
      elseBranch' span held fromThen fromElse =>
    -- only the block itself and the two branches are new; all that stands in them was there before
    have below {block : Block Node} (member : block ∈ Node.branchesOf
        (before ++ .conditional span condition thenBranch (some elseBranch) :: behind)) :
        P block := all block (List.mem_cons_of_mem _ member)
    rw [Block.blocks, fromThen.branchesOf_out]
    simp only [Node.mem_branchesOf_branches] at below
    obtain ⟨outer, newThen, newElse⟩ := h.out span held fromThen fromElse
      (all _ List.mem_cons_self) (below (.inl (.inl rfl))) (below (.inr (.inl (.inl rfl))))
    intro block member
    rw [List.mem_cons, Node.mem_branchesOf_branches, fromThen.branchesOf_eq,
      fromElse.branchesOf_eq] at member
    rcases member with rfl | (rfl | inThen) | (rfl | inElse) | aside
    · exact outer
    · exact newThen
    · exact below (.inl (.inr inThen))
    · exact newElse
    · exact below (.inr (.inl (.inr inElse)))
    · exact below (.inr (.inr aside))
  | @inside gap branch branch' before behind scope isGap move ih =>
    obtain ⟨others, mem_branches⟩ := isGap.mem_branches
    intro block member
    rw [Block.blocks, List.mem_cons, Node.mem_branchesOf_around, mem_branches] at member
    rcases member with rfl | (other | below) | aside
    · exact h.around before behind scope (isGap.target_eq branch) (isGap.target_eq branch')
        (fun name => isGap.supplies_eq (move.suppliesAny_eq name)) (all _ List.mem_cons_self)
    · apply all
      rw [Block.blocks, List.mem_cons, Node.mem_branchesOf_around, mem_branches]
      exact .inr (.inl (.inl other))
    · refine ih (fun inner there => all inner ?_) block below
      rw [Block.blocks, List.mem_cons, Node.mem_branchesOf_around, mem_branches]
      exact .inr (.inl (.inr there))
    · apply all
      rw [Block.blocks, List.mem_cons, Node.mem_branchesOf_around]
      exact .inr (.inr aside)
  | @function before behind scope span name body body' =>
    have own := all _ List.mem_cons_self
    intro block member
    rw [Block.blocks, List.mem_cons, Node.mem_branchesOf_around] at member
    rcases member with rfl | none | aside
    · refine h.around before behind scope ?_ rfl (fun _ => ?_) own
      · rfl
      · rfl
    · cases none
    · apply all
      rw [Block.blocks, List.mem_cons, Node.mem_branchesOf_around]
      exact .inr (.inr aside)

/-- A run of moves. -/
theorem Kept.forall_blocks (h : Kept table P) (run : Moves table a b)
    (all : ∀ block ∈ a.blocks, P block) : ∀ block ∈ b.blocks, P block := by
  induction run with
  | refl => exact all
  | tail _ move ih => exact h.step move ih

end Kept

/-- A run of moves in a branch of a conditional. -/
theorem Moves.inside {table : AliasTable} {gap : Block Node → Node} {branch branch' : Block Node}
    (isGap : Node.Gap gap) (run : Moves table branch branch') (before behind : List Node)
    (scope : Scope) :
    Moves table ⟨before ++ gap branch :: behind, scope⟩
      ⟨before ++ gap branch' :: behind, scope⟩ := by
  induction run with
  | refl => exact .refl
  | tail _ move ih => exact ih.tail (.inside isGap move)

namespace Node

mutual

theorem flat_of_computation (n : Node) {c : Computation} (h : n.computation? = some c) :
    Flat [n] := by
  cases n with
  | identifier | literal | placeholder => exact ⟨rfl, rfl⟩
  | binary span op left right =>
    obtain ⟨c', first, c'', second, -⟩ := computation?_binary_eq_some.1 h
    exact .binary span op (flat_of_computation left first) (flat_of_computation right second) .nil
  | filter span operand name cachedAs =>
    obtain ⟨c', inner, -⟩ := computation?_filter_eq_some.1 h
    exact .filter span name cachedAs (flat_of_computation operand inner) .nil
  | call span callee arguments =>
    obtain ⟨c', first, cs, second, -⟩ := computation?_call_eq_some.1 h
    exact .call span (flat_of_computation callee first) (flat_of_computations arguments second) .nil
  | list span items =>
    obtain ⟨cs, inner, -⟩ := computation?_list_eq_some.1 h
    exact .list span (flat_of_computations items inner) .nil
  | template | function | conditional | assign | write => simp [computation?] at h
termination_by structural n

/-- What has a computation has no blocks. -/
theorem flat_of_computations (ns : List Node) {cs : List Computation}
    (h : computationsOf? ns = some cs) : Flat ns := by
  cases ns with
  | nil => exact .nil
  | cons n rest =>
    obtain ⟨c, first, cs', later, -⟩ := computationsOf?_cons_eq_some.1 h
    have flat := flat_of_computation n first
    exact .cons flat.head.1 flat.head.2 (flat_of_computations rest later)
termination_by structural ns

end

end Node

namespace Hoisting

/-- A definition that may leave a body assigns an expression. -/
theorem definition?_computed {name : String} {body rest : List Node} {taken : Node}
    (h : definition? name body = some (taken, rest)) :
    ∃ front back place value, taken = .assign place name value ∧ value.computation?.isSome ∧
      body = front ++ taken :: back ∧ rest = front ++ back := by
  unfold definition? at h
  simp only [Option.bind_eq_bind, Option.bind_eq_some_iff] at h
  obtain ⟨⟨value, taken', rest'⟩, first, c, known, h⟩ := h
  split at h
  · cases h
  · cases h
    obtain ⟨place, front, back, rfl, inside, left⟩ := takeAssignment?_split first
    exact ⟨front, back, place, value, rfl, Option.isSome_of_eq_some known, inside, left⟩

/-- A definition that may leave a body stands in it. -/
theorem definition?_split {name : String} {body rest : List Node} {taken : Node}
    (h : definition? name body = some (taken, rest)) :
    ∃ front back place value, taken = .assign place name value ∧ Node.Flat [value] ∧
      body = front ++ taken :: back ∧ rest = front ++ back := by
  obtain ⟨front, back, place, value, sets, known, inside, left⟩ := definition?_computed h
  obtain ⟨c, found⟩ := Option.isSome_iff_exists.1 known
  exact ⟨front, back, place, value, sets, Node.flat_of_computation value found, inside, left⟩

theorem definition?_leaves {c : Computation} {name : String} {branch : Block Node}
    {rest : List Node} {taken : Node} (h : definition? name branch.body = some (taken, rest)) :
    Leaves c name branch taken ⟨rest, branch.scope.forget c⟩ := by
  obtain ⟨body, scope⟩ := branch
  obtain ⟨front, back, place, value, rfl, flat, rfl, rfl⟩ := definition?_split h
  exact .mk front back place scope flat.head.1

section Runs

variable {table : AliasTable} {assigned after : Assigned String} {defined : List String}
  {source out : List Node}

/-- An exchange as it stands in a block. -/
def Exchange.block (before behind : List Node) (span : Span) (condition : Node) (x : Exchange) :
    Block Node :=
  ⟨before ++ x.moved ++ .conditional span condition x.thenBranch (some x.elseBranch) :: behind,
    x.enclosing⟩

theorem Exchange.block_move (before behind : List Node) (span : Span) (condition : Node)
    (x : Exchange) {entry : Computation × String} (held : table entry.2 = some entry.1) :
    Moves table (x.block before behind span condition)
      ((x.move span entry).block before behind span condition) := by
  obtain ⟨c, name⟩ := entry
  unfold Exchange.move
  simp only
  split
  · rename_i definition thenBody other elseBody leavesThen leavesElse
    apply Relation.ReflTransGen.single
    unfold Exchange.block
    simp only
    rw [← List.append_assoc, List.append_assoc _ [definition], List.singleton_append]
    exact .out span held (definition?_leaves leavesThen) (definition?_leaves leavesElse)
  · exact .refl

/-- An exchange is a run of moves of one conditional. -/
theorem exchange_moves (before behind : List Node) (span : Span) (condition : Node)
    (thenBranch elseBranch : Block Node) (scope : Scope)
    (lists : thenBranch.scope.Lists table) :
    Moves table
      ⟨before ++ .conditional span condition thenBranch (some elseBranch) :: behind, scope⟩
      ((exchange span thenBranch elseBranch scope).block before behind span condition) := by
  refine exchange_induction (P := fun x => Moves table _
    (x.block before behind span condition)) span thenBranch elseBranch scope ?_ ?_
  · rw [Exchange.block, List.append_nil]
  · intro x entry member run
    exact run.trans (x.block_move before behind span condition (lists entry member))

/-- Moves behind a statement. -/
theorem moves_behind {before rest rest' : List Node} {n : Node} {scope scope' : Scope}
    (run : Moves table ⟨before ++ [n] ++ rest, scope⟩ ⟨before ++ [n] ++ rest', scope'⟩) :
    Moves table ⟨before ++ n :: rest, scope⟩ ⟨before ++ n :: rest', scope'⟩ := by
  rwa [List.append_cons before n rest, List.append_cons before n rest']

/-- Moving definitions out of the conditionals of a body is a run of moves of its block. -/
theorem lift_moves (h : Expanded table assigned defined source out after) (before : List Node)
    (scope : Scope) :
    Moves table ⟨before ++ out, scope⟩ ⟨before ++ (lift out scope).1, (lift out scope).2.1⟩ := by
  -- the pass goes over the statements of one block, so the induction carries those already passed
  induction h generalizing before scope with
  | nil => exact .refl
  | define _ _ _ _ ih | assign _ _ _ _ ih | write _ _ _ ih | branch _ _ _ _ _ _ ih
  | function _ _ _ _ _ _ _ _ ih => exact moves_behind (ih _ scope)
  | expression noted _ ih =>
    obtain ⟨body, around⟩ := lift_cons_of_resolved noted.resolved _ scope
    rw [body, around]
    exact moves_behind (ih _ scope)
  | @branches table _ _ _ _ _ _ out _ thenBody _ elseBody _ condition _ thenScope _ elseScope span _
      thenLists _ _ _ _ _ _ ih =>
    have first := exchange_moves before out span condition ⟨thenBody, thenScope⟩
      ⟨elseBody, elseScope⟩ scope thenLists
    refine first.trans ?_
    unfold lift
    simp only
    generalize exchange span ⟨thenBody, thenScope⟩ ⟨elseBody, elseScope⟩ scope = x
    rw [← List.append_assoc]
    exact moves_behind (ih _ x.enclosing)

/-- Moving definitions everywhere below a body is a run of moves of its branches. -/
theorem hoistEach_moves (h : Expanded table assigned defined source out after) (before : List Node)
    (scope : Scope) :
    Moves table ⟨before ++ out, scope⟩ ⟨before ++ (hoistEach out).1, scope⟩ := by
  induction h generalizing before scope with
  | nil => exact .refl
  | define _ _ definition _ ih =>
    simp only [hoistEach, hoist, hoist_of_definition definition]
    exact moves_behind (ih _ scope)
  | assign _ _ noted _ ih | write _ noted _ ih =>
    simp only [hoistEach, hoist, hoist_of_resolved _ noted.resolved]
    exact moves_behind (ih _ scope)
  | expression noted _ ih =>
    simp only [hoistEach, hoist_of_resolved _ noted.resolved]
    exact moves_behind (ih _ scope)
  | @branch table _ _ _ _ _ out _ thenBody condition condition' _ thenScope span noted lists
      thenSide _ thenIH ih =>
    simp only [hoistEach, hoist, hoist_of_resolved _ noted.resolved]
    -- a branch is finished, first inside and then itself, before anything can leave it
    have inThen := (thenIH [] thenScope).trans
      (lift_moves (hoistEach_expanded thenSide).1 [] thenScope)
    exact (Moves.inside (.alone span condition') inThen before out scope).trans
      (moves_behind (ih _ scope))
  | @branches table _ _ _ _ _ _ out _ thenBody _ elseBody _ condition' _ thenScope _ elseScope span
      noted thenLists elseLists thenSide elseSide _ thenIH elseIH ih =>
    simp only [hoistEach, hoist, hoist_of_resolved _ noted.resolved]
    have inThen := (thenIH [] thenScope).trans
      (lift_moves (hoistEach_expanded thenSide).1 [] thenScope)
    have inElse := (elseIH [] elseScope).trans
      (lift_moves (hoistEach_expanded elseSide).1 [] elseScope)
    have first := Moves.inside (.thenSide span condition' ⟨elseBody, elseScope⟩) inThen before out
      scope
    have both := first.trans (Moves.inside (.elseSide span condition' _) inElse before out scope)
    exact both.trans (moves_behind (ih _ scope))
  | @function table _ _ _ _ _ _ out _ body _ scope' span name _ _ _ _ _ _ ih =>
    have step : Move table ⟨before ++ .function span name ⟨body, scope'⟩ :: out, scope⟩
        ⟨before ++ (hoist (.function span name ⟨body, scope'⟩)).1 :: out, scope⟩ :=
      .function span name _ _
    exact (Relation.ReflTransGen.single step).trans (moves_behind (ih _ scope))

end Runs

end Hoisting

open Hoisting

/-- A function after the hoisting pass. -/
def Block.hoisted (block : Block Node) : Block Node :=
  ⟨(lift (hoistEach block.body).1 block.scope).1, (lift (hoistEach block.body).1 block.scope).2.1⟩

section Functions

variable {table : AliasTable} {after : Assigned String} {source optimized : Block Node}

/-- The hoisting pass makes moves in a function, and nothing else. -/
theorem Optimizes.hoisted_moves (h : Optimizes table after source optimized) :
    Moves table optimized optimized.hoisted :=
  (hoistEach_moves h.expanded [] optimized.scope).trans
    (lift_moves (hoistEach_expanded h.expanded).1 [] optimized.scope)

/-- What the hoisting pass makes of an optimised form is one. -/
theorem Optimizes.hoisted (h : Optimizes table after source optimized) :
    Optimizes table after source optimized.hoisted := by
  obtain ⟨below, belowSavings⟩ := hoistEach_expanded h.expanded
  obtain ⟨expanded, lists, savings⟩ := lift_expanded below h.lists
  refine ⟨h.constant, lists, fun p => ?_, expanded⟩
  rw [Block.hoisted, savings p, belowSavings p]
  exact h.affordable p

/-- A function after all passes that the options switch on. -/
def Block.finished (options : Options) (block : Block Node) : Block Node :=
  if options.hoistAliases then block.hoisted else block

theorem Optimizes.finished_moves (h : Optimizes table after source optimized) (options : Options) :
    Moves table optimized (optimized.finished options) := by
  unfold Block.finished
  split
  · exact h.hoisted_moves
  · exact .refl

theorem Optimizes.finished (h : Optimizes table after source optimized) (options : Options) :
    Optimizes table after source (optimized.finished options) := by
  unfold Block.finished
  split
  · exact h.hoisted
  · exact h

end Functions

namespace Hoisting

theorem definition?_functions {name : String} {body rest : List Node} {taken : Node}
    (h : definition? name body = some (taken, rest)) :
    taken.functions = [] ∧ Node.functionsOf rest = Node.functionsOf body := by
  obtain ⟨front, back, place, value, rfl, flat, rfl, rfl⟩ := definition?_split h
  refine ⟨flat.head.2, ?_⟩
  rw [Node.functionsOf_append, Node.functionsOf_append, Node.functionsOf_cons,
    Node.functions_assign, flat.head.2, List.nil_append]

/-- No function leaves a branch in an exchange. -/
theorem functions_exchange (span : Span) (thenBranch elseBranch : Block Node) (enclosing : Scope) :
    Node.functionsOf (exchange span thenBranch elseBranch enclosing).moved = [] ∧
      Node.functionsOf (exchange span thenBranch elseBranch enclosing).thenBranch.body =
        Node.functionsOf thenBranch.body ∧
      Node.functionsOf (exchange span thenBranch elseBranch enclosing).elseBranch.body =
        Node.functionsOf elseBranch.body := by
  refine exchange_induction (P := fun x => Node.functionsOf x.moved = [] ∧
    Node.functionsOf x.thenBranch.body = Node.functionsOf thenBranch.body ∧
    Node.functionsOf x.elseBranch.body = Node.functionsOf elseBranch.body) span thenBranch
    elseBranch enclosing ?_ ?_
  · exact ⟨rfl, rfl, rfl⟩
  · intro x entry _ before
    obtain ⟨c, name⟩ := entry
    unfold Exchange.move
    simp only
    split
    · rename_i definition thenBody other elseBody leavesThen leavesElse
      obtain ⟨moved, inThen⟩ := definition?_functions leavesThen
      obtain ⟨-, inElse⟩ := definition?_functions leavesElse
      refine ⟨?_, inThen.trans before.2.1, inElse.trans before.2.2⟩
      rw [Node.functionsOf_append, before.1, List.nil_append, Node.functionsOf_cons, moved]
      rfl
    · exact before

theorem functionsOf_lift (body : List Node) (scope : Scope) :
    Node.functionsOf (lift body scope).1 = Node.functionsOf body := by
  fun_induction lift body scope with
  | case1 => rfl
  | case2 span condition thenBranch elseBranch rest scope x lifted after events same ih =>
    obtain ⟨moved, inThen, inElse⟩ := functions_exchange span thenBranch elseBranch scope
    rw [same] at ih
    rw [Node.functionsOf_append, Node.functionsOf_cons, Node.functionsOf_cons, moved, ih,
      Node.functions_branches, Node.functions_branches, inThen, inElse]
    rfl
  | case3 scope n rest other lifted after events same ih =>
    rw [same] at ih
    rw [Node.functionsOf_cons, Node.functionsOf_cons, ih]

mutual

/-- The hoisting pass treats the functions of a tree one by one. -/
theorem functions_hoist (n : Node) : (hoist n).1.functions = n.functions.map Block.hoisted := by
  cases n with
  | template span name globals body => exact functionsOf_hoistEach body
  | function span name block =>
    obtain ⟨body, scope⟩ := block
    rw [Node.functions_function, List.map_cons, ← functionsOf_hoistEach body,
      ← functionsOf_lift _ scope]
    rfl
  | conditional span condition thenBranch elseBranch =>
    obtain ⟨thenBody, thenScope⟩ := thenBranch
    cases elseBranch with
    | none =>
      rw [Node.functions_branch, List.map_append, ← functions_hoist condition,
        ← functionsOf_hoistEach thenBody, ← functionsOf_lift _ thenScope]
      exact Node.functions_branch _ _ _ _
    | some block =>
      obtain ⟨elseBody, elseScope⟩ := block
      rw [Node.functions_branches, List.map_append, List.map_append, ← functions_hoist condition,
        ← functionsOf_hoistEach thenBody, ← functionsOf_lift (hoistEach thenBody).1 thenScope,
        ← functionsOf_hoistEach elseBody, ← functionsOf_lift (hoistEach elseBody).1 elseScope]
      exact Node.functions_branches _ _ _ _ _ _
  | assign span target value => exact functions_hoist value
  | identifier | placeholder | literal => rfl
  | binary span op left right =>
    rw [Node.functions_binary, List.map_append, ← functions_hoist left, ← functions_hoist right]
    exact Node.functions_binary _ _ _ _
  | filter span operand name cachedAs => exact functions_hoist operand
  | call span callee arguments =>
    rw [Node.functions_call, List.map_append, ← functions_hoist callee,
      ← functionsOf_hoistEach arguments]
    exact Node.functions_call _ _ _
  | list span items => exact functionsOf_hoistEach items
  | write span operand => exact functions_hoist operand
termination_by structural n

theorem functionsOf_hoistEach (ns : List Node) :
    Node.functionsOf (hoistEach ns).1 = (Node.functionsOf ns).map Block.hoisted := by
  cases ns with
  | nil => rfl
  | cons n rest =>
    rw [hoistEach, Node.functionsOf_cons, Node.functionsOf_cons, List.map_append,
      functions_hoist n, functionsOf_hoistEach rest]
termination_by structural ns

end

end Hoisting

/-- The functions of an optimised tree are those of the analysed tree, finished one by one. -/
theorem functions_hoistAliases (options : Options) (tree : Node) :
    (tree.hoistAliases options).1.functions = tree.functions.map (Block.finished options) := by
  unfold Node.hoistAliases Block.finished
  split
  · exact functions_hoist tree
  · exact (List.map_id _).symm

end Stencil
