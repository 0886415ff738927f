import Stencil.Proofs.Blocks
import Stencil.Proofs.ControlPaths

/-!
# The placeholders of a function

Where placeholders stand in a body, the functions defined inside left out: with what is noted on
each (`placeholders`), and with the control paths that lead to each (`ownReads`). The reads of a
tree are those outside its functions and those of each of its functions (`mem_readSitesOf_iff`), so
an exposed read is looked for in one function at a time (`rejected_iff`).

Main statement about optimised bodies: `Optimizes.exists_cached`. An alias that is defined pays for
itself, so the placeholder it stands for is read from an alias somewhere.
-/

namespace Stencil

/-- A placeholder as it stands in a tree. -/
@[ext]
structure Occurrence where
  name : String
  span : Span
  resolution : Option Resolution

/-- The placeholder with nothing noted on it. -/
def Occurrence.bare (o : Occurrence) : Occurrence := { o with resolution := none }

/-- Whether the placeholder is read from an alias. -/
def Occurrence.IsCached (o : Occurrence) : Prop :=
  ∃ eligible alternative, o.resolution = some ⟨eligible, .cached alternative⟩

/-- Whether the placeholder is looked up by its name. -/
def Occurrence.IsDynamic (o : Occurrence) : Prop :=
  ∃ eligible, o.resolution = some ⟨eligible, .dynamic⟩

/-- The read of a placeholder that the given paths lead to. -/
def ReadSite.of (parameters : List String) (paths : List (List String)) (o : Occurrence) :
    ReadSite := ⟨o.name, o.span, parameters, paths⟩

namespace Node

mutual

/-- The placeholders at or below a node, outside the functions defined there. -/
def placeholders : Node → List Occurrence
  | .template _ _ _ body => placeholdersOf body
  | .function .. => []
  | .conditional _ condition ⟨thenBody, _⟩ none =>
    condition.placeholders ++ placeholdersOf thenBody
  | .conditional _ condition ⟨thenBody, _⟩ (some ⟨elseBody, _⟩) =>
    condition.placeholders ++ (placeholdersOf thenBody ++ placeholdersOf elseBody)
  | .assign _ _ value => value.placeholders
  | .placeholder span name resolution => [⟨name, span, resolution⟩]
  | .identifier .. | .literal .. => []
  | .binary _ _ left right => left.placeholders ++ right.placeholders
  | .filter _ operand _ _ => operand.placeholders
  | .call _ callee arguments => callee.placeholders ++ placeholdersOf arguments
  | .list _ items => placeholdersOf items
  | .write _ operand => operand.placeholders
termination_by structural n => n

/-- The placeholders of a list of trees. -/
def placeholdersOf : List Node → List Occurrence
  | [] => []
  | n :: rest => n.placeholders ++ placeholdersOf rest
termination_by structural ns => ns

end

theorem placeholdersOf_append (a b : List Node) :
    placeholdersOf (a ++ b) = placeholdersOf a ++ placeholdersOf b := by
  induction a with
  | nil => rfl
  | cons n rest ih =>
    rw [List.cons_append, placeholdersOf, placeholdersOf, ih, List.append_assoc]

theorem mem_placeholdersOf {body : List Node} {o : Occurrence} :
    o ∈ placeholdersOf body ↔ ∃ n ∈ body, o ∈ n.placeholders := by
  induction body with
  | nil => simp [placeholdersOf]
  | cons n rest ih => simp [placeholdersOf, ih]

theorem placeholdersOf_subset {rest body : List Node} (sub : rest ⊆ body) :
    placeholdersOf rest ⊆ placeholdersOf body := by
  intro o member
  obtain ⟨n, among, inside⟩ := mem_placeholdersOf.1 member
  exact mem_placeholdersOf.2 ⟨n, sub among, inside⟩

theorem placeholders_branches (span : Span) (condition : Node)
    (thenBranch elseBranch : Block Node) :
    (conditional span condition thenBranch (some elseBranch)).placeholders =
      condition.placeholders ++
        (placeholdersOf thenBranch.body ++ placeholdersOf elseBranch.body) := by
  cases thenBranch
  cases elseBranch
  rfl

mutual

/-- The reads at or below a node that the given paths lead to, outside the functions defined
there. -/
def ownReads (parameters : List String) (paths : List (List String)) : Node → List ReadSite
  | .template _ _ _ body => ownReadsOf parameters paths body
  | .function .. => []
  | .conditional _ condition ⟨thenBody, _⟩ none =>
    condition.placeholders.map (.of parameters paths) ++ ownReadsOf parameters paths thenBody
  | .conditional _ condition ⟨thenBody, _⟩ (some ⟨elseBody, _⟩) =>
    condition.placeholders.map (.of parameters paths) ++
      (ownReadsOf parameters paths thenBody ++ ownReadsOf parameters paths elseBody)
  | .assign _ _ e | .write _ e => e.placeholders.map (.of parameters paths)
  | e@(.identifier ..) | e@(.placeholder ..) | e@(.literal ..) | e@(.binary ..) | e@(.filter ..)
  | e@(.call ..) | e@(.list ..) => e.placeholders.map (.of parameters paths)
termination_by structural n => n

/-- The reads of statements, where each one is reached through those in front of it. -/
def ownReadsOf (parameters : List String) (paths : List (List String)) :
    List Node → List ReadSite
  | [] => []
  | n :: rest =>
    n.ownReads parameters paths ++ ownReadsOf parameters (extendPaths paths n.routes) rest
termination_by structural ns => ns

end

end Node

/-- The placeholders of a function, those of inner functions left out. -/
def Block.placeholders (block : Block Node) : List Occurrence := Node.placeholdersOf block.body

/-- The reads of a function, those of inner functions left out. -/
def Block.ownReads (block : Block Node) : List ReadSite :=
  Node.ownReadsOf block.scope.locals.toList [[]] block.body

namespace Node

section Operands

variable {parameters : List String} {paths : List (List String)}

mutual

theorem placeholders_bare (e : Node) (h : e.isOperand) :
    e.bare.placeholders = e.placeholders.map .bare := by
  cases e with
  | identifier | literal | placeholder => rfl
  | binary span op left right =>
    rw [isOperand, Bool.and_eq_true] at h
    rw [bare, placeholders, placeholders, placeholders_bare left h.1, placeholders_bare right h.2,
      List.map_append]
  | filter span operand name cachedAs => exact placeholders_bare operand h
  | call span callee arguments =>
    rw [isOperand, Bool.and_eq_true] at h
    rw [bare, placeholders, placeholders, placeholders_bare callee h.1,
      placeholdersOf_bareEach arguments h.2, List.map_append]
  | list span items => exact placeholdersOf_bareEach items h
  | template | function | conditional | assign | write => simp [isOperand] at h
termination_by structural e

theorem placeholdersOf_bareEach (es : List Node) (h : areOperands es) :
    placeholdersOf (bareEach es) = (placeholdersOf es).map .bare := by
  cases es with
  | nil => rfl
  | cons e rest =>
    rw [areOperands, Bool.and_eq_true] at h
    rw [bareEach, placeholdersOf, placeholdersOf, placeholders_bare e h.1,
      placeholdersOf_bareEach rest h.2, List.map_append]
termination_by structural es

end

mutual

theorem readSites_of_isOperand (e : Node) (h : e.isOperand) :
    e.readSites parameters paths = e.placeholders.map (.of parameters paths) := by
  cases e with
  | identifier | literal | placeholder => rfl
  | binary span op left right =>
    rw [isOperand, Bool.and_eq_true] at h
    rw [readSites, placeholders, readSites_of_isOperand left h.1, readSites_of_isOperand right h.2,
      List.map_append]
  | filter span operand name cachedAs => exact readSites_of_isOperand operand h
  | call span callee arguments =>
    rw [isOperand, Bool.and_eq_true] at h
    rw [readSites, placeholders, readSites_of_isOperand callee h.1,
      readSitesEach_of_areOperands arguments h.2, List.map_append]
  | list span items => exact readSitesEach_of_areOperands items h
  | template | function | conditional | assign | write => simp [isOperand] at h
termination_by structural e

theorem readSitesEach_of_areOperands (es : List Node) (h : areOperands es) :
    readSitesEach parameters paths es = (placeholdersOf es).map (.of parameters paths) := by
  cases es with
  | nil => rfl
  | cons e rest =>
    rw [areOperands, Bool.and_eq_true] at h
    rw [readSitesEach, placeholdersOf, readSites_of_isOperand e h.1,
      readSitesEach_of_areOperands rest h.2, List.map_append]
termination_by structural es

end

mutual

theorem flat_of_isOperand (e : Node) (h : e.isOperand) : Flat [e] := by
  cases e with
  | identifier | literal | placeholder => exact .cons rfl rfl .nil
  | binary span op left right =>
    rw [isOperand, Bool.and_eq_true] at h
    exact .binary span op (flat_of_isOperand left h.1) (flat_of_isOperand right h.2) .nil
  | filter span operand name cachedAs =>
    exact .filter span name cachedAs (flat_of_isOperand operand h) .nil
  | call span callee arguments =>
    rw [isOperand, Bool.and_eq_true] at h
    exact .call span (flat_of_isOperand callee h.1) (flat_of_areOperands arguments h.2) .nil
  | list span items => exact .list span (flat_of_areOperands items h) .nil
  | template | function | conditional | assign | write => simp [isOperand] at h
termination_by structural e

/-- Expressions have no blocks. -/
theorem flat_of_areOperands (es : List Node) (h : areOperands es) : Flat es := by
  cases es with
  | nil => exact .nil
  | cons e rest =>
    rw [areOperands, Bool.and_eq_true] at h
    obtain ⟨branches, functions⟩ := (flat_of_isOperand e h.1).head
    exact .cons branches functions (flat_of_areOperands rest h.2)
termination_by structural es

end

end Operands

theorem ownReads_of_isOperand {parameters : List String} {paths : List (List String)} {e : Node}
    (h : e.isOperand) :
    e.ownReads parameters paths = e.placeholders.map (.of parameters paths) := by
  cases e with
  | identifier | literal | placeholder | binary | filter | call | list => rfl
  | template | function | conditional | assign | write => simp [isOperand] at h

mutual

theorem mem_readSites_iff {parameters : List String} {paths : List (List String)}
    {site : ReadSite} (n : Node) (placed : n.isPlaced) :
    site ∈ n.readSites parameters paths ↔
      site ∈ n.ownReads parameters paths ∨ ∃ f ∈ n.functions, site ∈ f.ownReads := by
  cases n with
  | function span name block =>
    obtain ⟨body, scope⟩ := block
    rw [readSites, mem_readSitesOf_iff body placed, ownReads, functions_function]
    simp [Block.ownReads]
  | conditional span condition thenBranch elseBranch =>
    obtain ⟨thenBody, thenScope⟩ := thenBranch
    cases elseBranch with
    | none =>
      simp only [isPlaced, Bool.and_eq_true] at placed
      rw [readSites, ownReads, functions_branch, readSites_of_isOperand condition placed.1,
        (flat_of_isOperand condition placed.1).head.2, List.nil_append, List.mem_append,
        List.mem_append, mem_readSitesOf_iff thenBody placed.2, or_assoc]
    | some block =>
      obtain ⟨elseBody, elseScope⟩ := block
      simp only [isPlaced, Bool.and_eq_true] at placed
      rw [readSites, ownReads, functions_branches, readSites_of_isOperand condition placed.1.1,
        (flat_of_isOperand condition placed.1.1).head.2]
      simp only [List.nil_append, List.mem_append, mem_readSitesOf_iff thenBody placed.1.2,
        mem_readSitesOf_iff elseBody placed.2]
      grind
  | assign span target value =>
    rw [readSites, ownReads, functions_assign, readSites_of_isOperand value placed,
      (flat_of_isOperand value placed).head.2]
    simp
  | write span operand =>
    rw [readSites, ownReads, functions_write, readSites_of_isOperand operand placed,
      (flat_of_isOperand operand placed).head.2]
    simp
  | template => simp [isPlaced] at placed
  | identifier | placeholder | literal | binary | filter | call | list =>
    rw [readSites_of_isOperand _ placed, (flat_of_isOperand _ placed).head.2, ownReads]
    simp
termination_by structural n

/-- The reads of a body are its own ones and those of the functions in it. -/
theorem mem_readSitesOf_iff {parameters : List String} {paths : List (List String)}
    {site : ReadSite} (body : List Node) (placed : arePlaced body) :
    site ∈ readSitesOf parameters paths body ↔
      site ∈ ownReadsOf parameters paths body ∨ ∃ f ∈ functionsOf body, site ∈ f.ownReads := by
  cases body with
  | nil => simp [readSitesOf, ownReadsOf, functionsOf, preorderOf]
  | cons n rest =>
    rw [arePlaced, Bool.and_eq_true] at placed
    rw [readSitesOf, ownReadsOf, functionsOf_cons]
    simp only [List.mem_append, mem_readSites_iff n placed.1, mem_readSitesOf_iff rest placed.2]
    grind
termination_by structural body

end

mutual

theorem map_name_ownReads {parameters : List String} {paths : List (List String)} (n : Node) :
    (n.ownReads parameters paths).map ReadSite.name = n.placeholders.map Occurrence.name := by
  have same (os : List Occurrence) :
      (os.map (.of parameters paths)).map ReadSite.name = os.map Occurrence.name :=
    List.map_map
  cases n with
  | function => rfl
  | template span name globals body => exact map_name_ownReadsOf body
  | conditional span condition thenBranch elseBranch =>
    obtain ⟨thenBody, thenScope⟩ := thenBranch
    cases elseBranch with
    | none =>
      rw [ownReads, placeholders, List.map_append, List.map_append, same,
        map_name_ownReadsOf thenBody]
    | some block =>
      obtain ⟨elseBody, elseScope⟩ := block
      rw [ownReads, placeholders, List.map_append, List.map_append, List.map_append,
        List.map_append, same, map_name_ownReadsOf thenBody, map_name_ownReadsOf elseBody]
  | assign | write | identifier | placeholder | literal | binary | filter | call | list =>
    exact same _
termination_by structural n

/-- A body reads the placeholders that stand in it. -/
theorem map_name_ownReadsOf {parameters : List String} {paths : List (List String)}
    (body : List Node) :
    (ownReadsOf parameters paths body).map ReadSite.name =
      (placeholdersOf body).map Occurrence.name := by
  cases body with
  | nil => rfl
  | cons n rest =>
    rw [ownReadsOf, placeholdersOf, List.map_append, List.map_append, map_name_ownReads n,
      map_name_ownReadsOf rest]
termination_by structural body

end

/-- Whether checking its assignments fails for an unassigned variable. -/
def Rejected (root : Node) : Prop :=
  ∃ failure missing place, root.analyze .checking = .error failure ∧
    failure.cause = .unassigned missing place

/-- A tree is rejected for an exposed read outside its functions or in one of them. -/
theorem rejected_iff {root : Node} (placed : arePlaced root.top) :
    root.Rejected ↔
      (∃ site ∈ ownReadsOf [] [[]] root.top, site.exposed root.globals = true) ∨
      ∃ f ∈ root.functions, ∃ site ∈ f.ownReads, site.exposed root.globals = true := by
  have only : Analysis.OnlyUnassigned .checking := ⟨rfl, .inl rfl⟩
  obtain ⟨fails, succeeds⟩ := Analysis.analyze_root_verdict only root placed
  have some_iff : root.Rejected ↔
      ∃ site ∈ readSitesOf [] [[]] root.top, site.exposed root.globals = true := by
    constructor
    · rintro ⟨failure, missing, place, failed, -⟩
      exact (fails failure failed).exists_exposed
    · rintro ⟨site, member, exposed⟩
      cases result : root.analyze .checking with
      | ok analysis => rw [succeeds analysis result site member] at exposed; cases exposed
      | error failure =>
        obtain ⟨_, first, _, -, -, -, cause⟩ := fails failure result
        exact ⟨failure, first.name, first.span, result, cause⟩
  rw [some_iff, functions_eq_top]
  simp only [mem_readSitesOf_iff root.top placed]
  grind

end Node

section Resolved

variable {table : AliasTable} {assigned : Assigned String} {defined : List String}

mutual

theorem Node.Resolved.isOperand (e : Node) (h : e.Resolved table assigned defined) :
    e.isOperand := by
  cases e with
  | identifier | literal | placeholder => rfl
  | binary span op left right =>
    rw [Node.isOperand, Node.Resolved.isOperand left h.1, Node.Resolved.isOperand right h.2]
    rfl
  | filter span operand name cachedAs => exact Node.Resolved.isOperand operand h.1
  | call span callee arguments =>
    rw [Node.isOperand, Node.Resolved.isOperand callee h.1,
      Node.ResolvedEach.areOperands arguments h.2]
    rfl
  | list span items => exact Node.ResolvedEach.areOperands items h
  | template | function | conditional | assign | write => exact h.elim
termination_by structural e

theorem Node.ResolvedEach.areOperands (es : List Node)
    (h : Node.ResolvedEach table assigned defined es) : Node.areOperands es := by
  cases es with
  | nil => rfl
  | cons e rest =>
    rw [Node.areOperands, Node.Resolved.isOperand e h.1, Node.ResolvedEach.areOperands rest h.2]
    rfl
termination_by structural es

end

theorem Annotated.isOperand {e e' : Node} (h : Annotated table assigned defined e e') :
    e.isOperand ∧ e'.isOperand := by
  refine ⟨?_, Node.Resolved.isOperand e' h.resolved⟩
  rw [← h.bare]
  exact Node.Resolved.isOperand _ (Node.Resolved.bare e' h.resolved)

theorem Annotated.placeholders_eq {e e' : Node} (h : Annotated table assigned defined e e') :
    e.placeholders = e'.placeholders.map .bare := by
  rw [← h.bare]
  exact Node.placeholders_bare e' h.isOperand.2

theorem Node.isPlaced_of_isOperand {e : Node} (h : e.isOperand) : e.isPlaced := by
  cases e with
  | identifier | placeholder | literal | binary | filter | call | list => exact h
  | template | function | conditional | assign | write => simp [Node.isOperand] at h

end Resolved

section Expanded

variable {table : AliasTable} {assigned after : Assigned String} {defined : List String}
  {source out : List Node}

theorem Definition.isOperand {c : Computation} {value : Node}
    (h : Definition table defined c value) : value.isOperand := by
  cases h with
  | lookup | filter => rfl

/-- The statements of an optimised body stand at their places. -/
theorem Expanded.placed (h : Expanded table assigned defined source out after) :
    Node.arePlaced out := by
  induction h with
  | nil => rfl
  | define span held definition later ih =>
    simp [Node.arePlaced, Node.isPlaced, definition.isOperand, ih]
  | assign span free noted later ih =>
    simp [Node.arePlaced, Node.isPlaced, noted.isOperand.2, ih]
  | write span noted later ih =>
    simp [Node.arePlaced, Node.isPlaced, noted.isOperand.2, ih]
  | expression noted later ih =>
    simp [Node.arePlaced, Node.isPlaced_of_isOperand noted.isOperand.2, ih]
  | branch span noted lists thenSide later thenIH ih =>
    simp [Node.arePlaced, Node.isPlaced, noted.isOperand.2, thenIH, ih]
  | branches span noted thenLists elseLists thenSide elseSide later thenIH elseIH ih =>
    simp [Node.arePlaced, Node.isPlaced, noted.isOperand.2, thenIH, elseIH,
      ih]
  | function span name constant lists affordable within later insideIH ih =>
    simp [Node.arePlaced, Node.isPlaced, insideIH, ih]

theorem Definition.mem_placeholders {c : Computation} {value : Node} {o : Occurrence}
    (h : Definition table defined c value) (member : o ∈ value.placeholders) :
    c = .placeholder o.name ∧ o.resolution = some ⟨true, .dynamic⟩ := by
  cases h with
  | lookup span name =>
    rw [List.mem_singleton.1 member]
    exact ⟨rfl, rfl⟩
  | filter => cases member

/-- A placeholder of an optimised body is one of the source, or the definition of an alias looks it
up. -/
theorem Expanded.mem_placeholders (h : Expanded table assigned defined source out after)
    {o : Occurrence} (member : o ∈ Node.placeholdersOf out) :
    o.bare ∈ Node.placeholdersOf source ∨ o.resolution = some ⟨true, .dynamic⟩ ∧
      ∃ alternative ∈ Node.assignmentsOf out, table alternative = some (.placeholder o.name) := by
  have own {table : AliasTable} {assigned : Assigned String} {defined : List String} {e e' : Node}
      (noted : Annotated table assigned defined e e') (member : o ∈ e'.placeholders) :
      o.bare ∈ e.placeholders := by
    rw [noted.placeholders_eq]
    exact List.mem_map_of_mem member
  induction h with
  | nil => cases member
  | @define table assigned after defined source out alternative c value span held definition later
      ih =>
    simp only [Node.assignmentsOf, Node.assignments, List.mem_append, List.mem_cons]
    rcases List.mem_append.1 member with here | behind
    · obtain ⟨rfl, dynamic⟩ := definition.mem_placeholders here
      exact .inr ⟨dynamic, alternative, .inl (.inl rfl), held⟩
    · refine (ih behind).imp_right ?_
      rintro ⟨dynamic, alternative, there, held⟩
      exact ⟨dynamic, alternative, .inr there, held⟩
  | assign span free noted later ih | write span noted later ih | expression noted later ih =>
    simp only [Node.placeholdersOf, Node.placeholders, Node.assignmentsOf, List.mem_append] at *
    rcases member with here | behind
    · exact .inl (.inl (own noted here))
    · refine (ih behind).imp .inr ?_
      rintro ⟨dynamic, alternative, there, held⟩
      exact ⟨dynamic, alternative, .inr there, held⟩
  | branch span noted lists thenSide later thenIH ih =>
    simp only [Node.placeholdersOf, Node.placeholders, Node.assignmentsOf, Node.assignments,
      List.mem_append] at *
    rcases member with (here | inThen) | behind
    · exact .inl (.inl (.inl (own noted here)))
    · refine (thenIH inThen).imp (fun there => .inl (.inr there)) ?_
      rintro ⟨dynamic, alternative, there, held⟩
      exact ⟨dynamic, alternative, .inl (.inr there), held⟩
    · refine (ih behind).imp .inr ?_
      rintro ⟨dynamic, alternative, there, held⟩
      exact ⟨dynamic, alternative, .inr there, held⟩
  | branches span noted thenLists elseLists thenSide elseSide later thenIH elseIH ih =>
    simp only [Node.placeholdersOf, Node.placeholders, Node.assignmentsOf, Node.assignments,
      List.mem_append] at *
    rcases member with (here | inThen | inElse) | behind
    · exact .inl (.inl (.inl (own noted here)))
    · refine (thenIH inThen).imp (fun there => .inl (.inr (.inl there))) ?_
      rintro ⟨dynamic, alternative, there, held⟩
      exact ⟨dynamic, alternative, .inl (.inl (.inr there)), held⟩
    · refine (elseIH inElse).imp (fun there => .inl (.inr (.inr there))) ?_
      rintro ⟨dynamic, alternative, there, held⟩
      exact ⟨dynamic, alternative, .inl (.inr there), held⟩
    · refine (ih behind).imp .inr ?_
      rintro ⟨dynamic, alternative, there, held⟩
      exact ⟨dynamic, alternative, .inr there, held⟩
  | function span name constant lists affordable within later insideIH ih => exact ih member

end Expanded

section Savings

variable {name : String}

mutual

theorem Node.credit_eq_zero (e : Node)
    (uncached : ∀ o ∈ e.placeholders, o.name = name → ¬ o.IsCached) :
    e.credit (· = .lookup name) = 0 := by
  cases e with
  | template | function | conditional | assign | write | identifier | literal => rfl
  | placeholder span other resolution =>
    rcases resolution with _ | ⟨eligible, access⟩
    · rfl
    · cases access with
      | dynamic | direct => rfl
      | cached alternative =>
        have different : other ≠ name := fun same =>
          uncached _ List.mem_cons_self same ⟨eligible, alternative, rfl⟩
        simp [Node.credit, Step.price, different]
  | binary span op left right =>
    simp only [Node.placeholders, List.mem_append] at uncached
    rw [Node.credit, Node.credit_eq_zero left fun o member => uncached o (.inl member),
      Node.credit_eq_zero right fun o member => uncached o (.inr member)]
    simp
  | filter span operand filter cachedAs =>
    have inner := Node.credit_eq_zero operand uncached
    cases cachedAs with
    | none => exact inner
    | some kept => simp [Node.credit, inner, Step.price]
  | call span callee arguments =>
    simp only [Node.placeholders, List.mem_append] at uncached
    rw [Node.credit, Node.credit_eq_zero callee fun o member => uncached o (.inl member),
      Node.creditEach_eq_zero arguments fun o member => uncached o (.inr member)]
  | list span items => exact Node.creditEach_eq_zero items uncached
termination_by structural e

/-- Where a placeholder is not read from an alias, no look-up of it is saved. -/
theorem Node.creditEach_eq_zero (es : List Node)
    (uncached : ∀ o ∈ Node.placeholdersOf es, o.name = name → ¬ o.IsCached) :
    Node.creditEach (· = .lookup name) es = 0 := by
  cases es with
  | nil => rfl
  | cons e rest =>
    simp only [Node.placeholdersOf, List.mem_append] at uncached
    rw [Node.creditEach, Node.credit_eq_zero e fun o member => uncached o (.inl member),
      Node.creditEach_eq_zero rest fun o member => uncached o (.inr member)]
termination_by structural es

end

/-- Where a placeholder is not read from an alias, nothing pays for the definitions of its
aliases. -/
theorem Expanded.savingsOf_le {table : AliasTable} {assigned after : Assigned String}
    {defined : List String} {source out : List Node}
    (h : Expanded table assigned defined source out after)
    (uncached : ∀ o ∈ Node.placeholdersOf out, o.name = name → ¬ o.IsCached) :
    Node.savingsOf (· = .lookup name) table out ≤ 0 ∧
      ∀ alternative ∈ Node.assignmentsOf out, table alternative = some (.placeholder name) →
        Node.savingsOf (· = .lookup name) table out < 0 := by
  induction h with
  | nil => exact ⟨Int.le_refl 0, fun _ member => by cases member⟩
  | @define table assigned after defined source out target c value span held definition later ih =>
    simp only [Node.placeholdersOf, List.mem_append] at uncached
    obtain ⟨rest, below⟩ := ih fun o member => uncached o (.inr member)
    simp only [Node.assignmentsOf, Node.assignments, definition.assignments_eq, Node.savingsOf,
      Node.savings, held, List.cons_append, List.nil_append, List.mem_cons]
    refine ⟨by omega, ?_⟩
    rintro alternative (rfl | behind) same
    · rw [held] at same
      cases same
      simp only [Computation.price, Step.price, decide_true, Bool.toNat_true]
      omega
    · have := below alternative behind same
      omega
  | assign span free noted later ih =>
    simp only [Node.placeholdersOf, Node.placeholders, List.mem_append] at uncached
    obtain ⟨rest, below⟩ := ih fun o member => uncached o (.inr member)
    have none := Node.credit_eq_zero _ fun o member => uncached o (.inl member)
    simp only [Node.assignmentsOf, Node.assignments,
      Node.Resolved.assignments_eq _ noted.resolved, Node.savingsOf, Node.savings, free, none,
      List.cons_append, List.nil_append, List.mem_cons]
    refine ⟨by omega, ?_⟩
    rintro alternative (rfl | behind) same
    · rw [free] at same
      cases same
    · have := below alternative behind same
      omega
  | write span noted later ih =>
    simp only [Node.placeholdersOf, Node.placeholders, List.mem_append] at uncached
    obtain ⟨rest, below⟩ := ih fun o member => uncached o (.inr member)
    have none := Node.credit_eq_zero _ fun o member => uncached o (.inl member)
    simp only [Node.assignmentsOf, Node.assignments,
      Node.Resolved.assignments_eq _ noted.resolved, Node.savingsOf, Node.savings, none,
      List.nil_append]
    refine ⟨by omega, fun alternative behind same => ?_⟩
    have := below alternative behind same
    omega
  | expression noted later ih =>
    simp only [Node.placeholdersOf, List.mem_append] at uncached
    obtain ⟨rest, below⟩ := ih fun o member => uncached o (.inr member)
    have none := Node.credit_eq_zero _ fun o member => uncached o (.inl member)
    simp only [Node.assignmentsOf, Node.Resolved.assignments_eq _ noted.resolved, Node.savingsOf,
      noted.resolved.savings_eq, none, List.nil_append]
    refine ⟨by omega, fun alternative behind same => ?_⟩
    have := below alternative behind same
    omega
  | branch span noted lists thenSide later thenIH ih =>
    simp only [Node.placeholdersOf, Node.placeholders, List.mem_append] at uncached
    obtain ⟨rest, below⟩ := ih fun o member => uncached o (.inr member)
    obtain ⟨thenRest, thenBelow⟩ := thenIH fun o member => uncached o (.inl (.inr member))
    have none := Node.credit_eq_zero _ fun o member => uncached o (.inl (.inl member))
    simp only [Node.assignmentsOf, Node.assignments,
      Node.Resolved.assignments_eq _ noted.resolved, Node.savingsOf, Node.savings, none,
      List.nil_append, List.mem_append]
    refine ⟨by omega, ?_⟩
    rintro alternative (inThen | behind) same
    · have := thenBelow alternative inThen same
      omega
    · have := below alternative behind same
      omega
  | branches span noted thenLists elseLists thenSide elseSide later thenIH elseIH ih =>
    simp only [Node.placeholdersOf, Node.placeholders, List.mem_append] at uncached
    obtain ⟨rest, below⟩ := ih fun o member => uncached o (.inr member)
    obtain ⟨thenRest, thenBelow⟩ := thenIH fun o member => uncached o (.inl (.inr (.inl member)))
    obtain ⟨elseRest, elseBelow⟩ := elseIH fun o member => uncached o (.inl (.inr (.inr member)))
    have none := Node.credit_eq_zero _ fun o member => uncached o (.inl (.inl member))
    simp only [Node.assignmentsOf, Node.assignments,
      Node.Resolved.assignments_eq _ noted.resolved, Node.savingsOf, Node.savings, none,
      List.nil_append, List.mem_append]
    refine ⟨by omega, ?_⟩
    rintro alternative ((inThen | inElse) | behind) same
    · have := thenBelow alternative inThen same
      omega
    · have := elseBelow alternative inElse same
      omega
    · have := below alternative behind same
      omega
  | function span name constant lists affordable within later insideIH ih =>
    have rest := ih uncached
    simp only [Node.assignmentsOf, Node.assignments, Node.savingsOf, Node.savings,
      List.nil_append, Int.zero_add]
    exact rest

/-- A placeholder whose alias is defined is read from an alias. -/
theorem Optimizes.exists_cached {table : AliasTable} {after : Assigned String}
    {source optimized : Block Node} (h : Optimizes table after source optimized)
    {alternative : String} (defined : alternative ∈ optimized.assignments)
    (held : table alternative = some (.placeholder name)) :
    ∃ o ∈ optimized.placeholders, o.name = name ∧ o.IsCached := by
  by_contra none
  have uncached : ∀ o ∈ Node.placeholdersOf optimized.body, o.name = name → ¬ o.IsCached :=
    fun o member same cached => none ⟨o, member, same, cached⟩
  have short := (h.expanded.savingsOf_le uncached).2 alternative defined held
  have enough := h.affordable (· = .lookup name)
  omega

end Savings

end Stencil
