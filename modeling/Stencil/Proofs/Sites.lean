import Stencil.Proofs.Needs
import Stencil.Proofs.Placeholders

/-!
# Where expressions stand

The expressions of the statements of a tree in document order, each with what surrounds it: the
function, the scopes of its blocks from the nearest one outwards, and the control paths that lead to
it. The definitions of aliases are no statements of the source; `pruned` takes them out of a tree and
keeps the notes on what is left, so that the sites of a source tree and of its analysed form
correspond.

Inside an expression a place is given by the operands to follow from the top. `Skips` says that the
way to a place goes through the right operand of `and` or `or`, so that what stands there may be left
out when the statement runs, and `Each.at` turns a property that is carried down an expression into
one of every place.
-/

namespace Stencil

/-- What surrounds a statement. -/
structure Place where
  /-- The innermost function. -/
  function : Option (Block Node)
  /-- The scopes of the blocks of that function, the nearest block first. -/
  scopes : List Scope
  /-- The control paths from the start of that function, or of the template. -/
  paths : List (List String)

/-- The expression of a statement and what surrounds it. -/
structure Site extends Place where
  expression : Node

namespace Place

/-- Outside every function, at the start of a template. -/
def top : Place := ⟨none, [], [[]]⟩

/-- The start of a function. -/
def start (f : Block Node) : Place := ⟨some f, [f.scope], [[]]⟩

/-- The start of a branch. -/
def enter (place : Place) (scope : Scope) : Place := { place with scopes := scope :: place.scopes }

/-- Behind a statement. -/
def behind (place : Place) (n : Node) : Place :=
  { place with paths := extendPaths place.paths n.routes }

/-- The names that the scope of the function declares. -/
def parameters (place : Place) : List String :=
  (place.function.map fun f => f.scope.locals.toList).getD []

/-- Whether a variable is a parameter or assigned on every path. -/
def isAssigned (place : Place) (name : String) : Bool :=
  place.paths.all fun path => decide (name ∈ path ∨ name ∈ place.parameters)

/-- Whether the place is inside a function, and that function never assigns the variable. -/
def isConstant (place : Place) (name : String) : Bool :=
  place.function.any fun f => decide (name ∉ f.assignments)

/-- The alias of a computation in the nearest block that has one. -/
def alias? (place : Place) (c : Computation) : Option String :=
  place.scopes.findSome? (·.aliasFor? c)

end Place

namespace Node

mutual

/-- The expressions of the statements at or below a node. -/
def sites (place : Place) : Node → List Site
  | .template _ _ _ body => sitesOf place body
  | .function _ _ ⟨body, scope⟩ => sitesOf (.start ⟨body, scope⟩) body
  | .conditional _ condition ⟨thenBody, thenScope⟩ none =>
    ⟨place, condition⟩ :: sitesOf (place.enter thenScope) thenBody
  | .conditional _ condition ⟨thenBody, thenScope⟩ (some ⟨elseBody, elseScope⟩) =>
    ⟨place, condition⟩ :: (sitesOf (place.enter thenScope) thenBody ++
      sitesOf (place.enter elseScope) elseBody)
  | .assign _ _ e | .write _ e => [⟨place, e⟩]
  | e@(.identifier ..) | e@(.placeholder ..) | e@(.literal ..) | e@(.binary ..) | e@(.filter ..)
  | e@(.call ..) | e@(.list ..) => [⟨place, e⟩]
termination_by structural n => n

/-- The expressions of statements, each of which is reached through those in front of it. -/
def sitesOf (place : Place) : List Node → List Site
  | [] => []
  | n :: rest => n.sites place ++ sitesOf (place.behind n) rest
termination_by structural ns => ns

end

mutual

/-- A tree without the assignments that are skipped. Those of the aliases of a function are skipped
in the function. -/
def pruned (skip : String → Bool) : Node → Node
  | .template span name globals body => .template span name globals (prunedBody skip body)
  | .function span name ⟨body, scope⟩ =>
    .function span name ⟨prunedBody (· ∈ Block.aliasNames ⟨body, scope⟩) body, scope⟩
  | .conditional span condition ⟨thenBody, thenScope⟩ none =>
    .conditional span condition ⟨prunedBody skip thenBody, thenScope⟩ none
  | .conditional span condition ⟨thenBody, thenScope⟩ (some ⟨elseBody, elseScope⟩) =>
    .conditional span condition ⟨prunedBody skip thenBody, thenScope⟩
      (some ⟨prunedBody skip elseBody, elseScope⟩)
  | n@(.assign ..) | n@(.write ..) | n@(.identifier ..) | n@(.placeholder ..) | n@(.literal ..)
  | n@(.binary ..) | n@(.filter ..) | n@(.call ..) | n@(.list ..) => n
termination_by structural n => n

/-- Statements without the assignments that are skipped. -/
def prunedBody (skip : String → Bool) : List Node → List Node
  | [] => []
  | n :: rest =>
    if n.setsOne skip then prunedBody skip rest else n.pruned skip :: prunedBody skip rest
termination_by structural ns => ns

end

theorem prunedBody_of_skip {skip : String → Bool} {n : Node} (h : n.setsOne skip = true)
    (rest : List Node) : prunedBody skip (n :: rest) = prunedBody skip rest := by
  rw [prunedBody, h, if_pos rfl]

theorem prunedBody_of_keep {skip : String → Bool} {n : Node} (h : n.setsOne skip = false)
    (rest : List Node) : prunedBody skip (n :: rest) = n.pruned skip :: prunedBody skip rest := by
  rw [prunedBody, h, if_neg Bool.false_ne_true]

theorem prunedBody_append (skip : String → Bool) (first second : List Node) :
    prunedBody skip (first ++ second) = prunedBody skip first ++ prunedBody skip second := by
  induction first with
  | nil => rfl
  | cons n rest ih =>
    rw [List.cons_append, prunedBody, prunedBody, ih]
    split
    · rfl
    · rfl

theorem prunedBody_eq_nil {skip : String → Bool} {body : List Node}
    (h : ∀ n ∈ body, n.setsOne skip = true) : prunedBody skip body = [] := by
  induction body with
  | nil => rfl
  | cons n rest ih =>
    rw [prunedBody_of_skip (h n List.mem_cons_self)]
    exact ih fun m member => h m (List.mem_cons_of_mem _ member)

/-- Definitions in front of a statement vanish. -/
theorem prunedBody_splice {skip : String → Bool} {definitions : List Node} {n : Node}
    (skipped : ∀ d ∈ definitions, d.setsOne skip = true) (kept : n.setsOne skip = false)
    (rest : List Node) :
    prunedBody skip (definitions ++ n :: rest) = n.pruned skip :: prunedBody skip rest := by
  rw [prunedBody_append, prunedBody_eq_nil skipped, List.nil_append, prunedBody_of_keep kept]

mutual

theorem pruned_congr {skip skip' : String → Bool} (n : Node)
    (same : ∀ name ∈ n.assignments, skip name = skip' name) : n.pruned skip = n.pruned skip' := by
  cases n with
  | template span name globals body =>
    rw [pruned, pruned, prunedBody_congr body same]
  | conditional span condition thenBranch elseBranch =>
    obtain ⟨thenBody, thenScope⟩ := thenBranch
    cases elseBranch with
    | none =>
      simp only [assignments, List.mem_append] at same
      rw [pruned, pruned, prunedBody_congr thenBody fun name member => same name (.inr member)]
    | some block =>
      obtain ⟨elseBody, elseScope⟩ := block
      simp only [assignments, List.mem_append] at same
      rw [pruned, pruned,
        prunedBody_congr thenBody fun name member => same name (.inl (.inr member)),
        prunedBody_congr elseBody fun name member => same name (.inr member)]
  | function | assign | write | identifier | placeholder | literal | binary | filter | call
  | list => rfl
termination_by structural n

/-- What becomes of a body depends on the skipped names that it assigns. -/
theorem prunedBody_congr {skip skip' : String → Bool} (body : List Node)
    (same : ∀ name ∈ assignmentsOf body, skip name = skip' name) :
    prunedBody skip body = prunedBody skip' body := by
  cases body with
  | nil => rfl
  | cons n rest =>
    simp only [assignmentsOf, List.mem_append] at same
    have here : n.setsOne skip = n.setsOne skip' := by
      cases n with
      | assign span target value => exact same target (.inl List.mem_cons_self)
      | template | function | conditional | identifier | placeholder | literal | binary | filter
      | call | list | write => rfl
    rw [prunedBody, prunedBody, here, pruned_congr n fun name member => same name (.inl member),
      prunedBody_congr rest fun name member => same name (.inr member)]
termination_by structural body

end

/-! ### The placeholders of a tree -/

/-- The placeholder that a node is. -/
def occurrence? : Node → Option Occurrence
  | .placeholder span name resolution => some ⟨name, span, resolution⟩
  | _ => none

/-- The placeholders of a tree, in document order. -/
def occurrences (n : Node) : List Occurrence := n.preorder.filterMap occurrence?

/-- The placeholders of a list of trees, in document order. -/
def occurrencesOf (ns : List Node) : List Occurrence := (preorderOf ns).filterMap occurrence?

section Occurrences

variable (span : Span) (name : String) (e left right : Node) (body rest : List Node) (scope : Scope)

@[simp]
theorem occurrencesOf_nil : occurrencesOf [] = [] := rfl

@[simp]
theorem occurrencesOf_cons : occurrencesOf (e :: rest) = e.occurrences ++ occurrencesOf rest :=
  List.filterMap_append

@[simp]
theorem occurrences_function :
    (function span name ⟨body, scope⟩).occurrences = occurrencesOf body := rfl

@[simp]
theorem occurrences_branch :
    (conditional span e ⟨body, scope⟩ none).occurrences = e.occurrences ++ occurrencesOf body :=
  List.filterMap_append

@[simp]
theorem occurrences_branches (elseBody : List Node) (elseScope : Scope) :
    (conditional span e ⟨body, scope⟩ (some ⟨elseBody, elseScope⟩)).occurrences =
      e.occurrences ++ occurrencesOf body ++ occurrencesOf elseBody := by
  rw [occurrences, occurrences, preorder, List.filterMap_cons_none rfl, List.filterMap_append,
    List.filterMap_append]
  rfl

@[simp]
theorem occurrences_placeholder (resolution : Option Resolution) :
    (placeholder span name resolution).occurrences = [⟨name, span, resolution⟩] := rfl

@[simp]
theorem occurrences_identifier : (identifier span name).occurrences = [] := rfl

@[simp]
theorem occurrences_literal (value : Literal) : (literal span value).occurrences = [] := rfl

@[simp]
theorem occurrences_binary (op : Operator) :
    (binary span op left right).occurrences = left.occurrences ++ right.occurrences :=
  List.filterMap_append

@[simp]
theorem occurrences_filter (filter cachedAs : Option String) :
    (Node.filter span e filter cachedAs).occurrences = e.occurrences := rfl

@[simp]
theorem occurrences_call :
    (call span e rest).occurrences = e.occurrences ++ occurrencesOf rest := List.filterMap_append

@[simp]
theorem occurrences_list : (list span rest).occurrences = occurrencesOf rest := rfl

end Occurrences

mutual

/-- Every placeholder of a tree stands at one of its sites. -/
theorem occurrences_sites (n : Node) (place : Place) :
    (n.sites place).flatMap (fun s => s.expression.occurrences) = n.occurrences := by
  cases n with
  | template span name globals body => exact occurrencesOf_sitesOf body place
  | function span name block =>
    obtain ⟨body, scope⟩ := block
    exact occurrencesOf_sitesOf body _
  | conditional span condition thenBranch elseBranch =>
    obtain ⟨thenBody, thenScope⟩ := thenBranch
    have inThen := occurrencesOf_sitesOf thenBody (place.enter thenScope)
    cases elseBranch with
    | none => simp [sites, inThen]
    | some block =>
      obtain ⟨elseBody, elseScope⟩ := block
      have inElse := occurrencesOf_sitesOf elseBody (place.enter elseScope)
      simp [sites, inThen, inElse]
  | assign | write | identifier | placeholder | literal | binary | filter | call | list =>
    exact List.append_nil _
termination_by structural n

theorem occurrencesOf_sitesOf (body : List Node) (place : Place) :
    (sitesOf place body).flatMap (fun s => s.expression.occurrences) = occurrencesOf body := by
  cases body with
  | nil => rfl
  | cons n rest =>
    rw [sitesOf, List.flatMap_append, occurrences_sites n place,
      occurrencesOf_sitesOf rest (place.behind n), occurrencesOf_cons]
termination_by structural body

end

mutual

/-- Without its notes an expression has the same placeholders. -/
theorem map_bare_occurrences_bare (e : Node) :
    e.bare.occurrences.map Occurrence.bare = e.occurrences.map Occurrence.bare := by
  cases e with
  | binary span op left right =>
    simp [bare, map_bare_occurrences_bare left, map_bare_occurrences_bare right]
  | filter span operand name cachedAs => exact map_bare_occurrences_bare operand
  | call span callee arguments =>
    simp [bare, map_bare_occurrences_bare callee, map_bare_occurrencesOf_bareEach arguments]
  | list span items => exact map_bare_occurrencesOf_bareEach items
  | template | function | conditional | assign | write | identifier | placeholder | literal => rfl
termination_by structural e

theorem map_bare_occurrencesOf_bareEach (es : List Node) :
    (occurrencesOf (bareEach es)).map Occurrence.bare =
      (occurrencesOf es).map Occurrence.bare := by
  cases es with
  | nil => rfl
  | cons e rest =>
    simp [bareEach, map_bare_occurrences_bare e, map_bare_occurrencesOf_bareEach rest]
termination_by structural es

end

/-! ### Places inside an expression -/

/-- The operands of an expression, from left to right. -/
def operands : Node → List Node
  | .binary _ _ left right => [left, right]
  | .filter _ operand _ _ => [operand]
  | .call _ callee arguments => callee :: arguments
  | .list _ items => items
  | .template .. | .function .. | .conditional .. | .assign .. | .identifier .. | .placeholder ..
  | .literal .. | .write .. => []

/-- What stands in an expression at the end of a way from operand to operand. -/
def at? (e : Node) : List Nat → Option Node
  | [] => some e
  | i :: way => e.operands[i]?.bind fun operand => operand.at? way

/-- Whether a way goes through the right operand of `and` or `or`. -/
def Skips (e : Node) (way : List Nat) : Prop :=
  ∃ front back span op left right, way = front ++ 1 :: back ∧
    e.at? front = some (.binary span op left right) ∧ (op = .and ∨ op = .or)

theorem bareEach_eq_map (es : List Node) : bareEach es = es.map bare := by
  induction es with
  | nil => rfl
  | cons e rest ih => rw [bareEach, ih, List.map_cons]

theorem operands_bare (e : Node) : e.bare.operands = e.operands.map bare := by
  cases e with
  | call span callee arguments =>
    rw [bare, operands, operands, List.map_cons, bareEach_eq_map]
  | list span items => exact bareEach_eq_map items
  | template | function | conditional | assign | write | identifier | placeholder | literal | binary
  | filter => rfl

/-- Without notes the same expressions stand at the same places. -/
theorem at?_bare (e : Node) (way : List Nat) : e.bare.at? way = (e.at? way).map bare := by
  induction way generalizing e with
  | nil => rfl
  | cons i way ih =>
    rw [at?, at?, operands_bare, List.getElem?_map]
    cases e.operands[i]? with
    | none => rfl
    | some operand => exact ih operand

theorem skips_bare {e : Node} {way : List Nat} : e.bare.Skips way ↔ e.Skips way := by
  constructor
  · rintro ⟨front, back, span, op, left, right, split, found, short⟩
    rw [at?_bare, Option.map_eq_some_iff] at found
    obtain ⟨n, found, same⟩ := found
    cases n with
    | binary span' op' left' right' =>
      cases same
      exact ⟨front, back, span, op, left', right', split, found, short⟩
    | template | function | conditional | assign | write | identifier | placeholder | literal
    | filter | call | list => cases same
  · rintro ⟨front, back, span, op, left, right, split, found, short⟩
    exact ⟨front, back, span, op, left.bare, right.bare, split, by rw [at?_bare, found]; rfl, short⟩

theorem not_skips_nil (e : Node) : ¬ e.Skips [] := by
  rintro ⟨front, back, -, -, -, -, split, -⟩
  simp at split

theorem skips_cons {e operand : Node} {i : Nat} {way : List Nat}
    (here : e.operands[i]? = some operand) :
    e.Skips (i :: way) ↔
      (i = 1 ∧ ∃ span op left right, e = .binary span op left right ∧ (op = .and ∨ op = .or)) ∨
        operand.Skips way := by
  constructor
  · rintro ⟨front, back, span, op, left, right, split, found, short⟩
    cases front with
    | nil =>
      cases split
      cases found
      exact .inl ⟨rfl, span, op, left, right, rfl, short⟩
    | cons j front =>
      obtain ⟨rfl, rest⟩ := List.cons.inj split
      rw [at?, here] at found
      exact .inr ⟨front, back, span, op, left, right, rest, found, short⟩
  · rintro (⟨rfl, span, op, left, right, rfl, short⟩ |
      ⟨front, back, span, op, left, right, rfl, found, short⟩)
    · exact ⟨[], way, span, op, left, right, rfl, rfl, short⟩
    · refine ⟨i :: front, back, span, op, left, right, rfl, ?_, short⟩
      rw [at?, here]
      exact found

mutual

/-- A property of every expression inside an expression, and of whether it may be left out. -/
def Each (P : Bool → Node → Prop) (skipped : Bool) : Node → Prop
  | e@(.binary _ op left right) =>
    P skipped e ∧ left.Each P skipped ∧ right.Each P (skipped || decide (op = .and ∨ op = .or))
  | e@(.filter _ operand _ _) => P skipped e ∧ operand.Each P skipped
  | e@(.call _ callee arguments) => P skipped e ∧ callee.Each P skipped ∧ EachOf P skipped arguments
  | e@(.list _ items) => P skipped e ∧ EachOf P skipped items
  | e@(.template ..) | e@(.function ..) | e@(.conditional ..) | e@(.assign ..) | e@(.write ..)
  | e@(.identifier ..) | e@(.placeholder ..) | e@(.literal ..) => P skipped e
termination_by structural n => n

/-- The same for expressions side by side. -/
def EachOf (P : Bool → Node → Prop) (skipped : Bool) : List Node → Prop
  | [] => True
  | e :: rest => e.Each P skipped ∧ EachOf P skipped rest
termination_by structural ns => ns

end

theorem EachOf.get {P : Bool → Node → Prop} {skipped : Bool} {es : List Node}
    (h : EachOf P skipped es) {i : Nat} {e : Node} (here : es[i]? = some e) : e.Each P skipped := by
  induction es generalizing i with
  | nil => cases here
  | cons first rest ih =>
    cases i with
    | zero =>
      cases here
      exact h.1
    | succ i => exact ih h.2 here

theorem Each.here {P : Bool → Node → Prop} {skipped : Bool} {e : Node} (h : e.Each P skipped) :
    P skipped e := by
  cases e with
  | binary | filter | call | list => exact h.1
  | template | function | conditional | assign | write | identifier | placeholder | literal =>
    exact h

/-- What holds of every expression inside holds at every place, where an expression counts as skipped
if the way to it goes through the right operand of `and` or `or`. -/
theorem Each.at {P : Bool → Node → Prop} {skipped : Bool} {e n : Node} {way : List Nat}
    (h : e.Each P skipped) (found : e.at? way = some n) :
    ∃ left, P left n ∧ (left = true ↔ skipped = true ∨ e.Skips way) := by
  induction way generalizing e skipped with
  | nil =>
    cases found
    exact ⟨skipped, h.here, by simp [not_skips_nil]⟩
  | cons i way ih =>
    obtain ⟨operand, here, below⟩ := Option.bind_eq_some_iff.1 found
    -- one step down: how the operand counts, and that the step itself skips nothing else
    have down (mode : Bool) (inside : operand.Each P mode)
        (same : mode = true ↔ skipped = true ∨
          (i = 1 ∧ ∃ span op left right, e = .binary span op left right ∧
            (op = .and ∨ op = .or))) :
        ∃ left, P left n ∧ (left = true ↔ skipped = true ∨ e.Skips (i :: way)) := by
      obtain ⟨left, holds, counted⟩ := ih inside below
      refine ⟨left, holds, ?_⟩
      rw [counted, same, skips_cons here, or_assoc]
    cases e with
    | binary span op left right =>
      match i, here with
      | 0, rfl => exact down skipped h.2.1 (by simp)
      | 1, rfl => exact down (skipped || decide (op = .and ∨ op = .or)) h.2.2 (by simp)
    | filter span operand' name cachedAs =>
      match i, here with
      | 0, rfl => exact down skipped h.2 (by simp)
    | call span callee arguments =>
      match i, here with
      | 0, rfl => exact down skipped h.2.1 (by simp)
      | j + 1, here => exact down skipped (h.2.2.get here) (by simp)
    | list span items => exact down skipped (h.2.get here) (by simp)
    | template | function | conditional | assign | write | identifier | placeholder | literal =>
      cases here

/-! ### Whole trees -/

theorem sites_top (root : Node) : root.sites .top = sitesOf .top root.top := by
  cases root with
  | template => rfl
  | function | conditional | assign | write | identifier | placeholder | literal | binary | filter
  | call | list => exact (List.append_nil _).symm

/-- Outside functions nothing is skipped. -/
theorem prunedBody_singleton (n : Node) :
    prunedBody (fun _ => false) [n] = [n.pruned fun _ => false] := by
  apply prunedBody_of_keep
  rw [setsOne, Option.any_eq_false_iff_get]
  intros
  rfl

theorem Retopped.sites_pruned {root tree : Node} {out : List Node} (h : root.Retopped out tree) :
    (tree.pruned fun _ => false).sites .top = sitesOf .top (prunedBody (fun _ => false) out) := by
  cases h with
  | template => rfl
  | alone _ n' => rw [prunedBody_singleton, sitesOf, sitesOf, List.append_nil]

theorem Retopped.occurrences_pruned {root tree : Node} {out : List Node}
    (h : root.Retopped out tree) :
    (tree.pruned fun _ => false).occurrences = occurrencesOf (prunedBody (fun _ => false) out) := by
  cases h with
  | template => rfl
  | alone _ n' => rw [prunedBody_singleton, occurrencesOf_cons, occurrencesOf_nil, List.append_nil]

end Node

end Stencil
