import Stencil.Proofs.Introduction

/-!
# Moving definitions keeps a form optimised

A definition that may leave a branch reads nothing which that branch sets, so it can run in front of
the conditional. When it leaves both branches, every run through the conditional does it once, as
before, and what the branches save is shifted by the same amount.

Main statement: `optimize_functions`, that every function of an optimised tree is an optimised form
of the function at its place.
-/

namespace Stencil

namespace Hoisting

theorem takeAssignment?_cons_of_ne {name : String} {n : Node} (other : n.target? ≠ some name)
    (rest : List Node) :
    takeAssignment? name (n :: rest) =
      (takeAssignment? name rest).map fun (value, taken, rest) => (value, taken, n :: rest) := by
  cases n with
  | assign span target value =>
    have different : target ≠ name := fun same => other (congrArg some same)
    rw [takeAssignment?, if_neg different]
  | template | function | conditional | identifier | placeholder | literal | binary | filter | call
  | list | write => rfl

theorem takeAssignment?_behind {name : String} {n : Node} {body rest : List Node}
    {value taken : Node} (h : takeAssignment? name (n :: body) = some (value, taken, rest))
    (other : n.target? ≠ some name) :
    ∃ rest', takeAssignment? name body = some (value, taken, rest') ∧ rest = n :: rest' := by
  rw [takeAssignment?_cons_of_ne other, Option.map_eq_some_iff] at h
  obtain ⟨⟨value', taken', rest'⟩, found, same⟩ := h
  cases same
  exact ⟨rest', found, rfl⟩

/-- The assignment that is found stands among the other statements. -/
theorem takeAssignment?_split {name : String} {body rest : List Node} {value taken : Node}
    (h : takeAssignment? name body = some (value, taken, rest)) :
    ∃ span front back, taken = .assign span name value ∧ body = front ++ taken :: back ∧
      rest = front ++ back := by
  induction body generalizing rest with
  | nil => cases h
  | cons n body ih =>
    by_cases here : n.target? = some name
    · cases n with
      | assign span target value =>
        cases here
        rw [takeAssignment?, if_pos rfl] at h
        cases h
        exact ⟨span, [], body, rfl, rfl, rfl⟩
      | template | function | conditional | identifier | placeholder | literal | binary | filter
      | call | list | write => cases here
    · obtain ⟨rest', found, rfl⟩ := takeAssignment?_behind h here
      obtain ⟨span, front, back, same, rfl, rfl⟩ := ih found
      exact ⟨span, n :: front, back, same, rfl, rfl⟩

theorem assigns_cons {n : Node} {body : List Node} {name : String}
    (h : assigns body name = true) : assigns (n :: body) name = true := by
  rw [assigns, List.any_cons, Bool.or_eq_true]
  exact .inr h

theorem assigns_of_target {n : Node} {body : List Node} {name : String}
    (h : n.target? = some name) : assigns (n :: body) name = true := by
  rw [assigns, List.any_cons, Bool.or_eq_true]
  exact .inl (decide_eq_true h)

end Hoisting

open Hoisting

/-- What is left of a body when the first definition of an alias is taken out of it. -/
structure TakenOut (table : AliasTable) (assigned : Assigned String) (defined : List String)
    (source out : List Node) (after : Assigned String) (name : String) (c : Computation)
    (value : Node) (rest : List Node) : Prop where
  definition : ∃ before, Definition table before c value ∧
    ∀ origin ∈ before, origin ∈ defined ∨ assigns out origin = true
  expanded : Expanded table assigned (defined ++ [name]) source rest after
  savings : ∀ p, Node.savingsOf p table out = Node.savingsOf p table rest - c.price p

section Taking

variable {table : AliasTable} {assigned after : Assigned String} {defined : List String}
  {source out : List Node}

theorem swap_last_subset (defined : List String) (a b : String) :
    defined ++ [a] ++ [b] ⊆ defined ++ [b] ++ [a] := by
  intro name member
  simp only [List.append_assoc, List.mem_append, List.mem_singleton] at member ⊢
  grind

/-- A statement in front of the definition stays in front of what is left. -/
theorem TakenOut.behind {assigned' : Assigned String} {defined' : List String} {source' : List Node}
    {n : Node} {name : String} {c : Computation} {value : Node} {rest : List Node}
    (h : TakenOut table assigned' defined' source' out after name c value rest)
    (grown : ∀ origin ∈ defined', origin ∈ defined ∨ n.target? = some origin)
    (expanded : Expanded table assigned (defined ++ [name]) source (n :: rest) after) :
    TakenOut table assigned defined source (n :: out) after name c value (n :: rest) := by
  obtain ⟨before, definition, within⟩ := h.definition
  refine ⟨⟨before, definition, fun origin member => ?_⟩, expanded, fun p => ?_⟩
  · rcases within origin member with there | set
    · rcases grown origin there with earlier | now
      · exact .inl earlier
      · exact .inr (assigns_of_target now)
    · exact .inr (assigns_cons set)
  · have rest := h.savings p
    simp only [Node.savingsOf]
    omega

/-- The same for a statement that sets nothing. -/
theorem TakenOut.aside {assigned' : Assigned String} {source' : List Node} {n : Node}
    {name : String} {c : Computation} {value taken : Node} {rest : List Node}
    (unset : n.target? = none)
    (found : takeAssignment? name (n :: out) = some (value, taken, rest))
    (later : ∀ {rest}, takeAssignment? name out = some (value, taken, rest) →
      TakenOut table assigned' defined source' out after name c value rest)
    (expanded : ∀ {rest}, Expanded table assigned' (defined ++ [name]) source' rest after →
      Expanded table assigned (defined ++ [name]) source (n :: rest) after) :
    TakenOut table assigned defined source (n :: out) after name c value rest := by
  have other : n.target? ≠ some name := by
    rw [unset]
    exact (Option.some_ne_none name).symm
  obtain ⟨rest', deeper, rfl⟩ := takeAssignment?_behind found other
  exact (later deeper).behind (fun _ member => .inl member) (expanded (later deeper).expanded)

theorem Expanded.takeAssignment (h : Expanded table assigned defined source out after)
    {name : String} {c : Computation} {value taken : Node} {rest : List Node}
    (held : table name = some c) (found : takeAssignment? name out = some (value, taken, rest)) :
    TakenOut table assigned defined source out after name c value rest := by
  have last {defined : List String} {target : String} :
      ∀ origin ∈ defined ++ [target], origin ∈ defined ∨ some target = some origin := by
    intro origin member
    rcases List.mem_append.1 member with earlier | now
    · exact .inl earlier
    · rw [List.mem_singleton.1 now]
      exact .inr rfl
  induction h generalizing rest with
  | nil => cases found
  | @define table assigned after defined source out alternative c' value' span held' definition
      later ih =>
    by_cases here : alternative = name
    · subst here
      rw [takeAssignment?, if_pos rfl] at found
      cases found
      rw [held] at held'
      cases held'
      refine ⟨⟨defined, definition, fun _ member => .inl member⟩, later, fun p => ?_⟩
      simp only [Node.savingsOf, Node.savings, held]
      omega
    · have other : some alternative ≠ some name := fun same => here (Option.some.inj same)
      obtain ⟨rest', deeper, rfl⟩ := takeAssignment?_behind found other
      have inner := ih held deeper
      exact inner.behind last (.define span held' (definition.mono (List.subset_append_left _ _))
        (inner.expanded.mono (swap_last_subset _ _ _)))
  | @assign table assigned after defined source out target value' value'' span free noted later
      ih =>
    have other : some target ≠ some name := by
      intro same
      cases same
      rw [held] at free
      cases free
    obtain ⟨rest', deeper, rfl⟩ := takeAssignment?_behind found other
    have inner := ih held deeper
    exact inner.behind last (.assign span free (noted.mono (List.subset_append_left _ _))
      (inner.expanded.mono (swap_last_subset _ _ _)))
  | write span noted later ih =>
    apply TakenOut.aside rfl found (ih held)
    intro _ rest
    exact .write span (noted.mono (List.subset_append_left _ _)) rest
  | expression noted later ih =>
    apply TakenOut.aside (noted.target_eq) found (ih held)
    intro _ rest
    exact .expression (noted.mono (List.subset_append_left _ _)) rest
  | branch span noted lists thenSide later _ ih =>
    apply TakenOut.aside rfl found (ih held)
    intro _ rest
    exact .branch span (noted.mono (List.subset_append_left _ _)) lists
      (thenSide.mono (List.subset_append_left _ _)) rest
  | branches span noted thenLists elseLists thenSide elseSide later _ _ ih =>
    apply TakenOut.aside rfl found (ih held)
    intro _ rest
    exact .branches span (noted.mono (List.subset_append_left _ _)) thenLists elseLists
      (thenSide.mono (List.subset_append_left _ _)) (elseSide.mono (List.subset_append_left _ _))
      rest
  | function span name constant lists affordable within later _ ih =>
    apply TakenOut.aside rfl found (ih held)
    intro _ rest
    exact .function span name constant lists affordable within rest

/-- A definition that may leave a body can run in front of it. -/
theorem Expanded.definition (h : Expanded table assigned defined source out after) {name : String}
    {c : Computation} {taken : Node} {rest : List Node} (held : table name = some c)
    (found : definition? name out = some (taken, rest)) :
    ∃ span value, taken = .assign span name value ∧ Definition table defined c value ∧
      Expanded table assigned (defined ++ [name]) source rest after ∧
      ∀ p, Node.savingsOf p table out = Node.savingsOf p table rest - c.price p := by
  unfold definition? at found
  simp only [Option.bind_eq_bind, Option.bind_eq_some_iff] at found
  obtain ⟨⟨value, taken', rest'⟩, first, computation, known, found⟩ := found
  split at found
  · cases found
  · rename_i unread
    cases found
    obtain ⟨span, -, -, rfl, -, -⟩ := takeAssignment?_split first
    obtain ⟨⟨before, definition, within⟩, expanded, savings⟩ := h.takeAssignment held first
    refine ⟨span, value, rfl, ?_, expanded, savings⟩
    cases definition with
    | lookup span name => exact .lookup span name
    | @filter origin span place name ready aliased =>
      have same : computation = .filter name (.identifier origin) := Option.some.inj known.symm
      have unset : assigns out origin ≠ true := by
        intro set
        apply unread
        rw [same]
        simpa [Computation.identifiers] using set
      rcases within origin ready with earlier | set
      · exact .filter span place name earlier aliased
      · exact absurd set unset

end Taking

namespace Hoisting

theorem forget_lists {table : AliasTable} {scope : Scope} (lists : scope.Lists table)
    (c : Computation) : (scope.forget c).Lists table := by
  intro entry member
  unfold Scope.forget at member
  split at member
  · exact lists entry member
  · exact lists entry (List.mem_filter.1 member).1

/-- An exchange moves the definitions of aliases of the first branch, one after another. -/
theorem exchange_induction {P : Exchange → Prop} (span : Span) (thenBranch elseBranch : Block Node)
    (enclosing : Scope) (start : P ⟨thenBranch, elseBranch, enclosing, [], []⟩)
    (step : ∀ x, ∀ entry ∈ thenBranch.scope.aliases.toList, P x → P (x.move span entry)) :
    P (exchange span thenBranch elseBranch enclosing) :=
  List.foldlRecOn _ _ start fun x before entry member =>
    step x entry (List.mem_filter.1 member).1 before

/-- What an exchange keeps while definitions move out of two branches: the branches are optimised
forms behind the definitions that have moved, and nothing is saved or lost. -/
structure Balanced (table : AliasTable) (assigned : Assigned String) (defined : List String)
    (thenSource elseSource : List Node) (inThen inElse : Assigned String)
    (total : (Step → Bool) → Int) (x : Exchange) : Prop where
  moved : Definitions table defined x.moved
  thenSide : Expanded table assigned (defined ++ Node.targets x.moved) thenSource x.thenBranch.body
    inThen
  elseSide : Expanded table assigned (defined ++ Node.targets x.moved) elseSource x.elseBranch.body
    inElse
  thenLists : x.thenBranch.scope.Lists table
  elseLists : x.elseBranch.scope.Lists table
  enclosing : x.enclosing.Lists table
  savings : ∀ p, Node.savingsOf p table x.moved + min (Node.savingsOf p table x.thenBranch.body)
    (Node.savingsOf p table x.elseBranch.body) = total p

section Exchange

variable {table : AliasTable} {assigned inThen inElse : Assigned String} {defined : List String}
  {thenSource elseSource : List Node} {total : (Step → Bool) → Int} {x : Exchange}

theorem Balanced.move
    (h : Balanced table assigned defined thenSource elseSource inThen inElse total x) (span : Span)
    {entry : Computation × String} (held : table entry.2 = some entry.1) :
    Balanced table assigned defined thenSource elseSource inThen inElse total
      (x.move span entry) := by
  obtain ⟨c, name⟩ := entry
  change table name = some c at held
  unfold Exchange.move
  simp only
  split
  · rename_i definition thenBody other elseBody leavesThen leavesElse
    obtain ⟨place, value, rfl, ready, thenSide, thenSavings⟩ :=
      h.thenSide.definition held leavesThen
    obtain ⟨-, -, -, -, elseSide, elseSavings⟩ := h.elseSide.definition held leavesElse
    refine ⟨h.moved.snoc place held ready, ?_, ?_, forget_lists h.thenLists c,
      forget_lists h.elseLists c, Analysis.register_lists h.enclosing held, fun p => ?_⟩
    · rw [Node.targets_snoc, ← List.append_assoc]
      exact thenSide
    · rw [Node.targets_snoc, ← List.append_assoc]
      exact elseSide
    · have before := h.savings p
      have left := thenSavings p
      have right := elseSavings p
      rw [savingsOf_append]
      simp only [Node.savingsOf, Node.savings, held]
      omega
  · exact h

/-- The start of an exchange between two branches and the scope around them. -/
theorem Balanced.start {thenBranch elseBranch : Block Node} {enclosing : Scope}
    (thenSide : Expanded table assigned defined thenSource thenBranch.body inThen)
    (elseSide : Expanded table assigned defined elseSource elseBranch.body inElse)
    (thenLists : thenBranch.scope.Lists table) (elseLists : elseBranch.scope.Lists table)
    (lists : enclosing.Lists table) :
    Balanced table assigned defined thenSource elseSource inThen inElse
      (fun p => min (Node.savingsOf p table thenBranch.body)
        (Node.savingsOf p table elseBranch.body))
      ⟨thenBranch, elseBranch, enclosing, [], []⟩ := by
  refine ⟨.nil _, ?_, ?_, thenLists, elseLists, lists, fun p => ?_⟩
  · simpa [Node.targets] using thenSide
  · simpa [Node.targets] using elseSide
  · simp [Node.savingsOf]

/-- A whole exchange. -/
theorem exchange_balanced (span : Span) (thenBranch elseBranch : Block Node) {enclosing : Scope}
    (thenSide : Expanded table assigned defined thenSource thenBranch.body inThen)
    (elseSide : Expanded table assigned defined elseSource elseBranch.body inElse)
    (thenLists : thenBranch.scope.Lists table) (elseLists : elseBranch.scope.Lists table)
    (lists : enclosing.Lists table) :
    Balanced table assigned defined thenSource elseSource inThen inElse
      (fun p => min (Node.savingsOf p table thenBranch.body)
        (Node.savingsOf p table elseBranch.body))
      (exchange span thenBranch elseBranch enclosing) := by
  apply exchange_induction
  · exact .start thenSide elseSide thenLists elseLists lists
  · intro x entry member balanced
    exact balanced.move span (thenLists entry member)

end Exchange

section Lifting

variable {table : AliasTable} {assigned after : Assigned String} {defined : List String}
  {source out : List Node}

theorem lift_cons_of_resolved {e : Node} (h : e.Resolved table assigned defined) (rest : List Node)
    (scope : Scope) :
    (lift (e :: rest) scope).1 = e :: (lift rest scope).1 ∧
      (lift (e :: rest) scope).2.1 = (lift rest scope).2.1 := by
  cases e with
  | identifier | literal | placeholder | binary | filter | call | list => exact ⟨rfl, rfl⟩
  | template | function | conditional | assign | write => exact h.elim

/-- Moving definitions out of the conditionals of a body. -/
theorem lift_expanded (h : Expanded table assigned defined source out after) {scope : Scope}
    (lists : scope.Lists table) :
    Expanded table assigned defined source (lift out scope).1 after ∧
      (lift out scope).2.1.Lists table ∧
      ∀ p, Node.savingsOf p table (lift out scope).1 = Node.savingsOf p table out := by
  induction h generalizing scope with
  | nil => exact ⟨.nil _ _ _, lists, fun _ => rfl⟩
  | define span held definition _ ih =>
    obtain ⟨expanded, lists', savings⟩ := ih lists
    exact ⟨.define span held definition expanded, lists', fun p => by
      simp only [lift, Node.savingsOf, savings p]⟩
  | assign span free noted _ ih =>
    obtain ⟨expanded, lists', savings⟩ := ih lists
    exact ⟨.assign span free noted expanded, lists', fun p => by
      simp only [lift, Node.savingsOf, savings p]⟩
  | write span noted _ ih =>
    obtain ⟨expanded, lists', savings⟩ := ih lists
    exact ⟨.write span noted expanded, lists', fun p => by
      simp only [lift, Node.savingsOf, savings p]⟩
  | expression noted _ ih =>
    obtain ⟨expanded, lists', savings⟩ := ih lists
    obtain ⟨body, around⟩ := lift_cons_of_resolved noted.resolved _ scope
    rw [body, around]
    exact ⟨.expression noted expanded, lists', fun p => by
      simp only [Node.savingsOf, savings p]⟩
  | branch span noted thenLists thenSide _ _ ih =>
    obtain ⟨expanded, lists', savings⟩ := ih lists
    exact ⟨.branch span noted thenLists thenSide expanded, lists', fun p => by
      simp only [lift, Node.savingsOf, savings p]⟩
  | @branches table assigned inThen inElse after defined source out thenBody thenBody' elseBody
      elseBody' condition condition' thenScope thenScope' elseScope elseScope' span noted thenLists
      elseLists thenSide elseSide later _ _ ih =>
    have balanced := exchange_balanced span ⟨thenBody', thenScope'⟩ ⟨elseBody', elseScope'⟩ thenSide
      elseSide thenLists elseLists lists
    unfold lift
    simp only
    generalize exchange span ⟨thenBody', thenScope'⟩ ⟨elseBody', elseScope'⟩ scope = x at balanced
    obtain ⟨expanded, lists', savings⟩ := ih balanced.enclosing
    have behind : defined ⊆ defined ++ Node.targets x.moved :=
      List.subset_append_left _ _
    refine ⟨balanced.moved.expanded (.branches span (noted.mono behind) balanced.thenLists
      balanced.elseLists balanced.thenSide balanced.elseSide (expanded.mono behind)), lists',
      fun p => ?_⟩
    have total := balanced.savings p
    have rest := savings p
    obtain ⟨⟨thenLeft, _⟩, ⟨elseLeft, _⟩, _, moved, _⟩ := x
    simp only [savingsOf_append, Node.savingsOf, Node.savings] at *
    omega
  | function span name constant inner affordable within _ _ ih =>
    obtain ⟨expanded, lists', savings⟩ := ih lists
    exact ⟨.function span name constant inner affordable within expanded, lists', fun p => by
      simp only [lift, Node.savingsOf, savings p]⟩

mutual

theorem hoist_of_resolved (e : Node) (h : e.Resolved table assigned defined) : (hoist e).1 = e := by
  cases e with
  | identifier | literal | placeholder => rfl
  | binary span op left right =>
    simp only [hoist, hoist_of_resolved left h.1, hoist_of_resolved right h.2]
  | filter span operand name cachedAs => simp only [hoist, hoist_of_resolved operand h.1]
  | call span callee arguments =>
    simp only [hoist, hoist_of_resolved callee h.1, hoistEach_of_resolved arguments h.2]
  | list span items => simp only [hoist, hoistEach_of_resolved items h]
  | template | function | conditional | assign | write => exact h.elim
termination_by structural e

/-- Expressions hold no conditional. -/
theorem hoistEach_of_resolved (es : List Node) (h : Node.ResolvedEach table assigned defined es) :
    (hoistEach es).1 = es := by
  cases es with
  | nil => rfl
  | cons e rest => simp only [hoistEach, hoist_of_resolved e h.1, hoistEach_of_resolved rest h.2]
termination_by structural es

end

theorem hoist_of_definition {c : Computation} {value : Node}
    (h : Definition table defined c value) : (hoist value).1 = value := by
  cases h with
  | lookup | filter => rfl

/-- Moving definitions everywhere below a body. -/
theorem hoistEach_expanded (h : Expanded table assigned defined source out after) :
    Expanded table assigned defined source (hoistEach out).1 after ∧
      ∀ p, Node.savingsOf p table (hoistEach out).1 = Node.savingsOf p table out := by
  induction h with
  | nil => exact ⟨.nil _ _ _, fun _ => rfl⟩
  | define span held definition _ ih =>
    obtain ⟨expanded, savings⟩ := ih
    simp only [hoistEach, hoist, hoist_of_definition definition]
    exact ⟨.define span held definition expanded, fun p => by
      simp only [Node.savingsOf, savings p]⟩
  | assign span free noted _ ih =>
    obtain ⟨expanded, savings⟩ := ih
    simp only [hoistEach, hoist, hoist_of_resolved _ noted.resolved]
    exact ⟨.assign span free noted expanded, fun p => by simp only [Node.savingsOf, savings p]⟩
  | write span noted _ ih =>
    obtain ⟨expanded, savings⟩ := ih
    simp only [hoistEach, hoist, hoist_of_resolved _ noted.resolved]
    exact ⟨.write span noted expanded, fun p => by simp only [Node.savingsOf, savings p]⟩
  | expression noted _ ih =>
    obtain ⟨expanded, savings⟩ := ih
    simp only [hoistEach, hoist_of_resolved _ noted.resolved]
    exact ⟨.expression noted expanded, fun p => by simp only [Node.savingsOf, savings p]⟩
  | branch span noted lists _ _ thenIH ih =>
    obtain ⟨expanded, savings⟩ := ih
    obtain ⟨inner, innerSavings⟩ := thenIH
    obtain ⟨thenSide, thenLists, thenSavings⟩ := lift_expanded inner lists
    simp only [hoistEach, hoist, hoist_of_resolved _ noted.resolved]
    exact ⟨.branch span noted thenLists thenSide expanded, fun p => by
      simp only [Node.savingsOf, Node.savings, savings p, thenSavings p, innerSavings p]⟩
  | branches span noted lists lists' _ _ _ thenIH elseIH ih =>
    obtain ⟨expanded, savings⟩ := ih
    obtain ⟨inThen, inThenSavings⟩ := thenIH
    obtain ⟨inElse, inElseSavings⟩ := elseIH
    obtain ⟨thenSide, thenLists, thenSavings⟩ := lift_expanded inThen lists
    obtain ⟨elseSide, elseLists, elseSavings⟩ := lift_expanded inElse lists'
    simp only [hoistEach, hoist, hoist_of_resolved _ noted.resolved]
    exact ⟨.branches span noted thenLists elseLists thenSide elseSide expanded, fun p => by
      simp only [Node.savingsOf, Node.savings, savings p, thenSavings p, inThenSavings p,
        elseSavings p, inElseSavings p]⟩
  | @function table inner assigned inside after defined source out body body' scope scope' span name
      constant lists affordable _ _ withinIH ih =>
    obtain ⟨expanded, savings⟩ := ih
    obtain ⟨below, innerSavings⟩ := withinIH
    obtain ⟨within, lists', withinSavings⟩ := lift_expanded below lists
    have affordable' : ∀ p, 0 ≤ Node.savingsOf p inner (lift (hoistEach body').1 scope').1 := by
      intro p
      rw [withinSavings p, innerSavings p]
      exact affordable p
    simp only [hoistEach, hoist]
    exact ⟨.function span name constant lists' affordable' within expanded, fun p => by
      simp only [Node.savingsOf, Node.savings, savings p]⟩

end Lifting

/-- Outside blocks nothing moves from one statement of a tree to another. -/
theorem hoist_retopped {root tree : Node} {out : List Node} (h : root.Retopped out tree) :
    root.Retopped (hoistEach out).1 (hoist tree).1 := by
  cases h with
  | template span name globals body => exact .template span name globals body _
  | alone single => exact .alone single _

end Hoisting

/-- An optimised tree comes out of a successful analysis and the hoisting pass. -/
theorem optimize_analysis {options : Options} {root : Node} {o : Optimization}
    (h : root.optimize options = .ok o) :
    ∃ analysis, root.analyze options = .ok analysis ∧
      o.tree = (analysis.tree.hoistAliases options).1 := by
  unfold Node.optimize at h
  rw [Analysis.bind_eq_ok] at h
  obtain ⟨analysis, analyzed, h⟩ := h
  cases h
  exact ⟨analysis, analyzed, rfl⟩

/-- Every function of an optimised tree is an optimised form of the function at its place. -/
theorem optimize_functions {options : Options} {root : Node} {o : Optimization}
    (source : root.isSource) (h : root.optimize options = .ok o) :
    List.Forall₂ (fun f g => ∃ table after, Optimizes table after f g) root.functions
      o.tree.functions := by
  obtain ⟨analysis, analyzed, result⟩ := optimize_analysis h
  obtain ⟨out, after, expanded, shape⟩ := Analysis.analyze_expanded source analyzed
  rw [Node.functions_eq_top root, result]
  unfold Node.hoistAliases
  split
  · rw [(hoist_retopped shape).functions_eq]
    exact (hoistEach_expanded expanded).1.functions
  · rw [shape.functions_eq]
    exact expanded.functions

end Stencil
