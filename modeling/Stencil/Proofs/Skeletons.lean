import Stencil.Tree.Computation
import Stencil.Tree.Walk

/-!
# What a computation identifies

Two expressions share an alias when they have the same computation, so a computation must neither
confuse two expressions nor tell apart what is written alike.

* `Node.isNone_computation?`: an expression has a computation unless a statement stands inside.
* `Node.skeleton`: a tree without locations and notes. It has the computation of the tree
  (`Node.computation?_skeleton`), and is read off it (`Node.skeleton_of_computation?`).
* `computations_identify_expressions`: so expressions with one computation are those with one
  skeleton.
-/

namespace Stencil

namespace Node

/-- Whether the node itself, not only a part of it, is a statement or a whole template. -/
def isDirective : Node → Bool
  | .template .. | .function .. | .conditional .. | .assign .. | .write .. => true
  | .identifier .. | .placeholder .. | .literal .. => false
  | .binary .. | .filter .. | .call .. | .list .. => false

mutual

/-- The tree without locations, and with nothing noted on its placeholders and filters. -/
def skeleton : Node → Node
  | .template _ name globals body => .template .generated name globals (skeletonsOf body)
  | .function _ name ⟨body, scope⟩ => .function .generated name ⟨skeletonsOf body, scope⟩
  | .conditional _ condition ⟨thenBody, thenScope⟩ none =>
    .conditional .generated condition.skeleton ⟨skeletonsOf thenBody, thenScope⟩ none
  | .conditional _ condition ⟨thenBody, thenScope⟩ (some ⟨elseBody, elseScope⟩) =>
    .conditional .generated condition.skeleton ⟨skeletonsOf thenBody, thenScope⟩
      (some ⟨skeletonsOf elseBody, elseScope⟩)
  | .assign _ target value => .assign .generated target value.skeleton
  | .identifier _ name => .identifier .generated name
  | .placeholder _ name _ => .placeholder .generated name none
  | .literal _ value => .literal .generated value
  | .binary _ op left right => .binary .generated op left.skeleton right.skeleton
  | .filter _ operand name _ => .filter .generated operand.skeleton name none
  | .call _ callee arguments => .call .generated callee.skeleton (skeletonsOf arguments)
  | .list _ items => .list .generated (skeletonsOf items)
  | .write _ operand => .write .generated operand.skeleton
termination_by structural n => n

/-- The skeletons of a list of trees. -/
def skeletonsOf : List Node → List Node
  | [] => []
  | n :: rest => n.skeleton :: skeletonsOf rest
termination_by structural ns => ns

end

end Node

namespace Computation

mutual

/-- The expression that a computation is the computation of, with no locations and no notes. -/
def expression : Computation → Node
  | .placeholder name => .placeholder .generated name none
  | .identifier name => .identifier .generated name
  | .literal value => .literal .generated value
  | .binary op left right => .binary .generated op left.expression right.expression
  | .filter name operand => .filter .generated operand.expression name none
  | .call callee arguments => .call .generated callee.expression (expressionsOf arguments)
  | .list items => .list .generated (expressionsOf items)
termination_by structural c => c

/-- The expressions of a list of computations. -/
def expressionsOf : List Computation → List Node
  | [] => []
  | c :: rest => c.expression :: expressionsOf rest
termination_by structural cs => cs

end

end Computation

/-- A result that is put together from two others is missing when one of them is. -/
theorem isNone_bind_bind {α β γ : Type} (first : Option α) (second : Option β) (both : α → β → γ) :
    (first.bind fun a => second.bind fun b => some (both a b)).isNone =
      (first.isNone || second.isNone) := by
  cases first <;> cases second <;> rfl

namespace Node

mutual

theorem isNone_computation? (n : Node) : n.computation?.isNone = n.preorder.any isDirective := by
  cases n with
  | identifier | placeholder | literal => rfl
  | binary span op left right =>
    rw [preorder, List.any_cons, List.any_append, ← isNone_computation? left,
      ← isNone_computation? right]
    exact isNone_bind_bind _ _ _
  | filter span operand name cachedAs =>
    rw [preorder, List.any_cons, ← isNone_computation? operand, computation?]
    cases operand.computation? <;> rfl
  | call span callee arguments =>
    rw [preorder, List.any_cons, List.any_append, ← isNone_computation? callee,
      ← isNone_computationsOf? arguments]
    exact isNone_bind_bind _ _ _
  | list span items =>
    rw [preorder, List.any_cons, ← isNone_computationsOf? items, computation?]
    cases computationsOf? items <;> rfl
  | template | function | assign | write => rfl
  | conditional span condition thenBranch elseBranch => cases elseBranch <;> rfl
termination_by structural n

/-- Expressions have computations, unless a statement stands in one of them. -/
theorem isNone_computationsOf? (ns : List Node) :
    (computationsOf? ns).isNone = (preorderOf ns).any isDirective := by
  cases ns with
  | nil => rfl
  | cons n rest =>
    rw [preorderOf, List.any_append, ← isNone_computation? n, ← isNone_computationsOf? rest]
    exact isNone_bind_bind _ _ _
termination_by structural ns

end

mutual

theorem computation?_skeleton (n : Node) : n.skeleton.computation? = n.computation? := by
  cases n with
  | identifier | placeholder | literal => rfl
  | binary span op left right =>
    rw [skeleton, computation?, computation?, computation?_skeleton left,
      computation?_skeleton right]
  | filter span operand name cachedAs =>
    rw [skeleton, computation?, computation?, computation?_skeleton operand]
  | call span callee arguments =>
    rw [skeleton, computation?, computation?, computation?_skeleton callee,
      computationsOf?_skeletonsOf arguments]
  | list span items =>
    rw [skeleton, computation?, computation?, computationsOf?_skeletonsOf items]
  | template | function | assign | write => rfl
  | conditional span condition thenBranch elseBranch => cases elseBranch <;> rfl
termination_by structural n

/-- Locations and notes have no part in the computations of expressions. -/
theorem computationsOf?_skeletonsOf (ns : List Node) :
    computationsOf? (skeletonsOf ns) = computationsOf? ns := by
  cases ns with
  | nil => rfl
  | cons n rest =>
    rw [skeletonsOf, computationsOf?, computationsOf?, computation?_skeleton n,
      computationsOf?_skeletonsOf rest]
termination_by structural ns

end

-- A computation is turned back into a tree, so that one tree is followed at a time and no induction
-- has to run through two trees in step.
mutual

theorem skeleton_of_computation? (n : Node) {c : Computation} (known : n.computation? = some c) :
    n.skeleton = c.expression := by
  cases n with
  | identifier | placeholder | literal =>
    cases known
    rfl
  | binary span op left right =>
    obtain ⟨l, first, r, second, rfl⟩ := computation?_binary_eq_some.1 known
    rw [skeleton, skeleton_of_computation? left first, skeleton_of_computation? right second]
    rfl
  | filter span operand name cachedAs =>
    obtain ⟨inner, first, rfl⟩ := computation?_filter_eq_some.1 known
    rw [skeleton, skeleton_of_computation? operand first]
    rfl
  | call span callee arguments =>
    obtain ⟨f, first, cs, second, rfl⟩ := computation?_call_eq_some.1 known
    rw [skeleton, skeleton_of_computation? callee first,
      skeletonsOf_of_computationsOf? arguments second]
    rfl
  | list span items =>
    obtain ⟨cs, first, rfl⟩ := computation?_list_eq_some.1 known
    rw [skeleton, skeletonsOf_of_computationsOf? items first]
    rfl
  | template | function | conditional | assign | write => cases known
termination_by structural n

/-- Computations keep all of what is written, in its order. -/
theorem skeletonsOf_of_computationsOf? (ns : List Node) {cs : List Computation}
    (known : computationsOf? ns = some cs) : skeletonsOf ns = Computation.expressionsOf cs := by
  cases ns with
  | nil =>
    cases known
    rfl
  | cons n rest =>
    obtain ⟨c, first, later, second, rfl⟩ := computationsOf?_cons_eq_some.1 known
    rw [skeletonsOf, skeleton_of_computation? n first, skeletonsOf_of_computationsOf? rest second]
    rfl
termination_by structural ns

end

end Node

/-- A tree has no computation if and only if a statement or a template stands in it, be it the tree
itself or a part at any depth. Two trees that have computations have the same one if and only if
they are the same but for locations and notes. -/
theorem computations_identify_expressions (a b : Node) :
    (a.computation? = none ↔ ∃ n ∈ a.preorder, n.isDirective) ∧
    ∀ c d, a.computation? = some c → b.computation? = some d →
      (c = d ↔ a.skeleton = b.skeleton) := by
  constructor
  · rw [← Option.isNone_iff_eq_none, Node.isNone_computation?, List.any_eq_true]
  · intro c d known known'
    constructor
    · intro same
      rw [Node.skeleton_of_computation? a known, Node.skeleton_of_computation? b known', same]
    · intro same
      have equal : a.computation? = b.computation? := by
        rw [← Node.computation?_skeleton a, ← Node.computation?_skeleton b, same]
      exact Option.some.inj (known.symm.trans (equal.trans known'))

/-- Pairs of expressions that are easily taken for each other: equal numbers, the two zeros, two
ways to read a name, filters with one text, and both orders of operands and of arguments. -/
def lookalikes : List (Node × Node) :=
  let number (value : Literal) := Node.literal .generated value
  let placeholder (name : String) := Node.placeholder .generated name none
  let identifier (name : String) := Node.identifier .generated name
  [(number (.int 1), number (.float ⟨0x3ff0000000000000⟩)),
    (number (.float ⟨0⟩), number (.float ⟨0x8000000000000000⟩)),
    (placeholder "foo", identifier "foo"),
    (.filter .generated (placeholder "foo") none none,
      .filter .generated (placeholder "foo") (some "filter") none),
    (.binary .generated .add (placeholder "foo") (placeholder "bar"),
      .binary .generated .add (placeholder "bar") (placeholder "foo")),
    (.call .generated (identifier "join") [placeholder "foo", placeholder "bar"],
      .call .generated (identifier "join") [placeholder "bar", placeholder "foo"])]

/-- A filter as it was read, and as the analysis leaves it elsewhere in the function. -/
def remarked : Node × Node :=
  (.filter ⟨4, 12, 1, 5⟩ (.placeholder ⟨4, 8, 1, 5⟩ "foo" none) none none,
    .filter ⟨40, 48, 3, 5⟩
      (.placeholder ⟨40, 44, 3, 5⟩ "foo" (some ⟨true, .cached "_rph_foo"⟩)) none (some "_fph"))

/-- Each of the lookalikes is a pair of different expressions, whereas what was noted on a filter,
and where it stands, makes no other computation of it. -/
theorem lookalikes_told_apart :
    remarked.1.computation? = remarked.2.computation? ∧
      ∀ pair ∈ lookalikes, pair.1.computation? ≠ pair.2.computation? ∧
        pair.1.skeleton ≠ pair.2.skeleton := by
  constructor
  · have same := (computations_identify_expressions remarked.1 remarked.2).2 _ _ rfl rfl
    exact congrArg some (same.2 rfl)
  · have known : ∀ pair ∈ lookalikes, pair.1.computation?.isSome ∧ pair.2.computation?.isSome ∧
        pair.1.computation? ≠ pair.2.computation? := by decide
    intro pair member
    obtain ⟨first, second, different⟩ := known pair member
    refine ⟨different, fun same => ?_⟩
    obtain ⟨c, hc⟩ := Option.isSome_iff_exists.1 first
    obtain ⟨d, hd⟩ := Option.isSome_iff_exists.1 second
    have equal := ((computations_identify_expressions pair.1 pair.2).2 c d hc hd).2 same
    exact different (by rw [hc, hd, equal])

end Stencil
