import Stencil.Proofs.Relocation

/-!
# Aliases are defined before they are used

A use of an alias is a placeholder that is read from it, a filter whose value it keeps, or an
identifier inside the definition of another alias. It comes with the variables that are set in front
of it: by earlier statements of its block, and by statements of the blocks around it that stand
earlier than the one it belongs to.

Main statement: `optimize_alias_uses_defined`.
-/

namespace Stencil

/-- A use of an alias, and the variables that are set in front of it. -/
structure AliasUse where
  name : String
  before : List String

namespace Node

mutual

/-- The uses of aliases at or below a node, outside the functions defined there. An identifier
counts inside a definition only, that is, where one of the given introduced variables is
assigned. -/
def aliasUses (introduced before : List String) (inDefinition : Bool) : Node → List AliasUse
  | .identifier _ name => if inDefinition then [⟨name, before⟩] else []
  | .placeholder _ _ (some ⟨_, .cached source⟩) => [⟨source, before⟩]
  | .placeholder .. | .literal .. => []
  | .binary _ _ left right =>
    left.aliasUses introduced before inDefinition ++ right.aliasUses introduced before inDefinition
  | .filter _ operand _ cachedAs =>
    operand.aliasUses introduced before inDefinition ++ cachedAs.toList.map (⟨·, before⟩)
  | .call _ callee arguments =>
    callee.aliasUses introduced before inDefinition ++
      aliasUsesEach introduced before inDefinition arguments
  | .list _ items => aliasUsesEach introduced before inDefinition items
  | .assign _ target value => value.aliasUses introduced before (target ∈ introduced)
  | .write _ operand => operand.aliasUses introduced before inDefinition
  | .conditional _ condition ⟨thenBody, _⟩ none =>
    condition.aliasUses introduced before inDefinition ++ aliasUsesOf introduced before thenBody
  | .conditional _ condition ⟨thenBody, _⟩ (some ⟨elseBody, _⟩) =>
    condition.aliasUses introduced before inDefinition ++
      (aliasUsesOf introduced before thenBody ++ aliasUsesOf introduced before elseBody)
  | .function .. | .template .. => []
termination_by structural n => n

/-- The uses of aliases in operands. -/
def aliasUsesEach (introduced before : List String) (inDefinition : Bool) :
    List Node → List AliasUse
  | [] => []
  | n :: rest =>
    n.aliasUses introduced before inDefinition ++ aliasUsesEach introduced before inDefinition rest
termination_by structural ns => ns

/-- The uses of aliases in statements, each behind those in front of it. -/
def aliasUsesOf (introduced before : List String) : List Node → List AliasUse
  | [] => []
  | n :: rest =>
    n.aliasUses introduced before false ++ aliasUsesOf introduced (before ++ n.target?.toList) rest
termination_by structural ns => ns

end

end Node

section Uses

variable {table : AliasTable} {assigned after : Assigned String} {defined introduced : List String}
  {source out : List Node}

/-- A use that is fine: the alias belongs to the table and is set in front of it. -/
structure AliasUse.Fine (table : AliasTable) (reachable : List String) (use : AliasUse) : Prop where
  held : (table use.name).isSome
  defined : use.name ∈ use.before
  reachable : use.before ⊆ reachable

theorem AliasUse.Fine.mono {reachable more : List String} {use : AliasUse}
    (h : use.Fine table reachable) (sub : reachable ⊆ more) : use.Fine table more :=
  ⟨h.held, h.defined, fun _ member => sub (h.reachable member)⟩

mutual

theorem Node.Resolved.aliasUses_fine (e : Node) (h : e.Resolved table assigned defined) :
    ∀ use ∈ e.aliasUses introduced defined false, use.Fine table defined := by
  have whole : defined ⊆ defined := fun _ member => member
  cases e with
  | identifier | literal => intro use member; cases member
  | placeholder span name resolution =>
    intro use member
    rcases resolution with _ | ⟨eligible, access⟩
    · cases member
    · cases access with
      | dynamic | direct => cases member
      | cached origin =>
        obtain ⟨there, held⟩ := h _ rfl
        rw [List.mem_singleton.1 member]
        exact ⟨by rw [held]; rfl, there, whole⟩
  | binary span op left right =>
    intro use member
    rcases List.mem_append.1 member with first | second
    · exact Node.Resolved.aliasUses_fine left h.1 use first
    · exact Node.Resolved.aliasUses_fine right h.2 use second
  | filter span operand name cachedAs =>
    intro use member
    rcases List.mem_append.1 member with inner | kept
    · exact Node.Resolved.aliasUses_fine operand h.1 use inner
    · cases cachedAs with
      | none => cases kept
      | some alternative =>
        obtain ⟨there, origin, held, -⟩ := h.2 alternative rfl
        rw [List.mem_singleton.1 kept]
        exact ⟨by rw [held]; rfl, there, whole⟩
  | call span callee arguments =>
    intro use member
    rcases List.mem_append.1 member with first | second
    · exact Node.Resolved.aliasUses_fine callee h.1 use first
    · exact Node.ResolvedEach.aliasUsesEach_fine arguments h.2 use second
  | list span items => exact Node.ResolvedEach.aliasUsesEach_fine items h
  | template | function | conditional | assign | write => exact h.elim
termination_by structural e

theorem Node.ResolvedEach.aliasUsesEach_fine (es : List Node)
    (h : Node.ResolvedEach table assigned defined es) :
    ∀ use ∈ Node.aliasUsesEach introduced defined false es, use.Fine table defined := by
  cases es with
  | nil => intro use member; cases member
  | cons e rest =>
    intro use member
    rcases List.mem_append.1 member with first | second
    · exact Node.Resolved.aliasUses_fine e h.1 use first
    · exact Node.ResolvedEach.aliasUsesEach_fine rest h.2 use second
termination_by structural es

end

theorem Definition.aliasUses_fine {c : Computation} {value : Node}
    (h : Definition table defined c value) (inDefinition : Bool) :
    ∀ use ∈ value.aliasUses introduced defined inDefinition, use.Fine table defined := by
  intro use member
  cases h with
  | lookup => cases member
  | filter span place name ready held =>
    cases inDefinition with
    | false => cases member
    | true =>
      rw [List.mem_singleton.1 member]
      exact ⟨held, ready, fun _ there => there⟩

theorem Node.target_subset_assignments (n : Node) : n.target?.toList ⊆ n.assignments := by
  cases n with
  | assign span target value => exact List.cons_subset_cons target (List.nil_subset _)
  | template | function | conditional | identifier | placeholder | literal | binary | filter | call
  | list | write => exact List.nil_subset _

/-- The uses of a statement, and those of the statements behind it. -/
theorem AliasUse.fine_cons {n : Node} {rest : List Node} {behind : List String}
    (set : defined ++ n.target?.toList = behind)
    (first : ∀ use ∈ n.aliasUses introduced defined false,
      use.Fine table (defined ++ n.assignments))
    (later : ∀ use ∈ Node.aliasUsesOf introduced behind rest,
      use.Fine table (behind ++ Node.assignmentsOf rest)) :
    ∀ use ∈ Node.aliasUsesOf introduced defined (n :: rest),
      use.Fine table (defined ++ Node.assignmentsOf (n :: rest)) := by
  subst set
  have target := n.target_subset_assignments
  intro use member
  simp only [Node.assignmentsOf]
  rcases List.mem_append.1 member with now | afterwards
  · apply (first use now).mono
    grind
  · apply (later use afterwards).mono
    grind

/-- Every use in an optimised form is fine. -/
theorem Expanded.aliasUses_fine (h : Expanded table assigned defined source out after)
    (apart : ∀ target ∈ Node.assignmentsOf source, target ∉ introduced) :
    ∀ use ∈ Node.aliasUsesOf introduced defined out,
      use.Fine table (defined ++ Node.assignmentsOf out) := by
  have here {defined more : List String} : defined ⊆ defined ++ more := List.subset_append_left _ _
  induction h with
  | nil => intro use member; cases member
  | @define table assigned after defined source out alternative c value span held definition later
      ih =>
    refine AliasUse.fine_cons rfl (fun use member => ?_) (ih apart)
    exact (definition.aliasUses_fine _ use member).mono here
  | @assign table assigned after defined source out target value value' span free noted later ih =>
    simp only [Node.assignmentsOf, Node.assignments, List.mem_append, List.mem_cons] at apart
    have user : target ∉ introduced := apart target (.inl (.inl rfl))
    refine AliasUse.fine_cons rfl (fun use member => ?_) (ih fun name there =>
      apart name (.inr there))
    simp only [Node.aliasUses, user, decide_false] at member
    exact (Node.Resolved.aliasUses_fine value' noted.resolved use member).mono here
  | @write table assigned after defined source out operand operand' span noted later ih =>
    refine AliasUse.fine_cons (List.append_nil _) (fun use member => ?_) (ih fun name there =>
      apart name (List.mem_append_right _ there))
    exact (Node.Resolved.aliasUses_fine operand' noted.resolved use member).mono here
  | @expression table assigned after defined source out e e' noted later ih =>
    have unset : defined ++ e'.target?.toList = defined := by
      rw [noted.target_eq]
      exact List.append_nil _
    refine AliasUse.fine_cons unset (fun use member => ?_) (ih fun name there =>
      apart name (List.mem_append_right _ there))
    exact (Node.Resolved.aliasUses_fine e' noted.resolved use member).mono here
  | @branch table assigned inThen after defined source out thenBody thenBody' condition condition'
      thenScope thenScope' span noted lists thenSide later thenIH ih =>
    simp only [Node.assignmentsOf, Node.assignments, List.mem_append] at apart
    refine AliasUse.fine_cons (List.append_nil _) (fun use member => ?_) (ih fun name there =>
      apart name (.inr there))
    rcases List.mem_append.1 member with inCondition | inThen
    · exact (Node.Resolved.aliasUses_fine condition' noted.resolved use inCondition).mono here
    · apply (thenIH (fun name there => apart name (.inl (.inr there))) use inThen).mono
      simp only [Node.assignments]
      grind
  | @branches table assigned inThen inElse after defined source out thenBody thenBody' elseBody
      elseBody' condition condition' thenScope thenScope' elseScope elseScope' span noted thenLists
      elseLists thenSide elseSide later thenIH elseIH ih =>
    simp only [Node.assignmentsOf, Node.assignments, List.mem_append] at apart
    refine AliasUse.fine_cons (List.append_nil _) (fun use member => ?_) (ih fun name there =>
      apart name (.inr there))
    rcases List.mem_append.1 member with inCondition | inBranches
    · exact (Node.Resolved.aliasUses_fine condition' noted.resolved use inCondition).mono here
    · simp only [Node.assignments]
      rcases List.mem_append.1 inBranches with inThen | inElse
      · apply (thenIH (fun name there => apart name (.inl (.inl (.inr there)))) use inThen).mono
        grind
      · apply (elseIH (fun name there => apart name (.inl (.inr there))) use inElse).mono
        grind
  | @function table inner assigned inside after defined source out body body' scope scope' span name
      constant lists affordable within later _ ih =>
    refine AliasUse.fine_cons (List.append_nil _) (fun use member => ?_) (ih fun name there =>
      apart name (List.mem_append_right _ there))
    cases member

end Uses

/-- Every use of an alias in a function of an optimised tree is of an introduced alias, and an
earlier statement of its block or of a block around it defines that alias. -/
theorem optimize_alias_uses_defined (options : Options) (root : Node) (o : Optimization)
    (source : root.isSource) (h : root.optimize options = .ok o) :
    List.Forall₂ (fun f g => ∀ use ∈ Node.aliasUsesOf (f.introduced g) [] g.body,
      use.name ∈ f.introduced g ∧ use.name ∈ use.before) root.functions o.tree.functions := by
  refine (optimize_functions source h).imp ?_
  rintro f g ⟨table, after, optimizes⟩ use member
  have apart : ∀ target ∈ Node.assignmentsOf f.body, target ∉ f.introduced g := by
    intro target assigned introduced
    simp only [Block.introduced, List.mem_filter, decide_eq_true_eq] at introduced
    exact introduced.2 assigned
  have fine := optimizes.expanded.aliasUses_fine apart use member
  refine ⟨?_, fine.defined⟩
  simp only [Block.introduced, List.mem_filter, decide_eq_true_eq]
  constructor
  · exact fine.reachable fine.defined
  · intro assigned
    have none := optimizes.expanded.target_free assigned
    have held := fine.held
    rw [none] at held
    cases held

/-- A function that reads one placeholder in nested branches, filtered in one of them, and again
behind them. -/
def notice : Block Node :=
  let user := Node.placeholder .generated "user" none
  let title := Node.placeholder .generated "title" none
  let inner := Node.conditional .generated user
    (.plain [.write .generated (.filter .generated title none none)])
    (some (.plain [.write .generated title]))
  { body :=
      [.conditional .generated user (.plain [inner]) (some (.plain [.write .generated title])),
        .assign .generated "line" (.identifier .generated "hello"),
        .write .generated (.binary .generated .and title (.placeholder .generated "line" none))]
    scope := { (∅ : Scope) with locals := .ofList ["user"] } }

/-- A template with that function alone. -/
def noticePage : Node := .template .generated "page" ∅ [.function .generated "notice" notice]

/-- The definition of the alias of `title` leaves both conditionals, and that of its filtered value
stays and reads the first alias. -/
theorem noticePage_optimize :
    ∃ o g, noticePage.optimize .caching = .ok o ∧ o.tree.functions = [g] ∧
      (∀ name ∈ notice.mentions, name ∉ notice.introduced g) ∧
      (Node.aliasUsesOf (notice.introduced g) [] g.body).length = 6 :=
  ⟨_, _, rfl, rfl, by decide +kernel, by decide +kernel⟩

theorem notice_alias_uses_defined :
    ∃ o g, noticePage.isSource = true ∧ noticePage.optimize .caching = .ok o ∧
      o.tree.functions = [g] ∧
      (Node.aliasUsesOf (notice.introduced g) [] g.body).length = 6 ∧
      ∀ use ∈ Node.aliasUsesOf (notice.introduced g) [] g.body,
        use.name ∈ notice.introduced g ∧ use.name ∈ use.before := by
  obtain ⟨o, g, optimized, functions, -, uses⟩ := noticePage_optimize
  have all := optimize_alias_uses_defined .caching noticePage o (by decide) optimized
  rw [functions] at all
  exact ⟨o, g, by decide, optimized, functions, uses, (List.forall₂_cons.1 all).1⟩

end Stencil
