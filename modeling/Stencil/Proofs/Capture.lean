import Stencil.Proofs.Registration

/-!
# The names that aliases take

A name is claimed by a function that assigns it or declares it, and by a template to which it is
given from outside. An alias has the first of its candidates that is not claimed and holds no other
computation. Names that a function merely reads are not looked at, so an alias can have such a name,
and what was to read a variable or a placeholder then reads the alias.

* `Statements.assigned_of_held`: every name that is held is assigned.
* `analyze_alias_names_unclaimed`: which names aliases take, and when none of them is mentioned.
* `namesake_captured`: a function of which two aliases have names that it merely reads.
-/

namespace Stencil

/-- Whether a name begins like an alias. -/
def Alias.isMarked (name : String) : Bool :=
  placeholderMark.toList.isPrefixOf name.toList || computationMark.toList.isPrefixOf name.toList

theorem Alias.isMarked_append {name : String} (marked : isMarked name) (rest : String) :
    isMarked (name ++ rest) := by
  simp only [isMarked, Bool.or_eq_true, List.isPrefixOf_iff_prefix, String.toList_append]
    at marked ⊢
  exact marked.imp (List.IsPrefix.trans · (List.prefix_append _ _))
    (List.IsPrefix.trans · (List.prefix_append _ _))

theorem Computation.isMarked_preferredAlias (c : Computation) :
    Alias.isMarked c.preferredAlias := by
  unfold preferredAlias
  split
  · exact Alias.isMarked_append (by decide) _
  · exact Alias.isMarked_append (by decide) _

/-- All names that are tried for an alias begin like one. -/
theorem Computation.isMarked_candidate (c : Computation) (k : Nat) :
    Alias.isMarked (Alias.candidate c.preferredAlias k) := by
  cases k with
  | zero => exact c.isMarked_preferredAlias
  | succ k =>
    rw [Alias.candidate, String.append_assoc]
    exact Alias.isMarked_append c.isMarked_preferredAlias _

/-- A name that a function assigns, that one of its scopes declares, or that is given from
outside. -/
def Block.Claims (globals : OrderedSet String) (f : Block Node) (name : String) : Prop :=
  name ∈ f.assignments ∨ (∃ scope ∈ f.scopes, name ∈ scope.locals) ∨ name ∈ globals

theorem Node.mem_assignmentsOf_append {first second : List Node} {name : String} :
    name ∈ assignmentsOf (first ++ second) ↔
      name ∈ assignmentsOf first ∨ name ∈ assignmentsOf second := by
  induction first with
  | nil => simp [assignmentsOf]
  | cons n rest ih => simp only [List.cons_append, assignmentsOf, List.mem_append, ih, or_assoc]

theorem Node.targets_subset_assignmentsOf (body : List Node) : targets body ⊆ assignmentsOf body := by
  induction body with
  | nil => exact List.nil_subset _
  | cons n rest ih =>
    intro name member
    rw [assignmentsOf, List.mem_append]
    cases n with
    | assign span target value =>
      rcases List.mem_cons.1 member with rfl | behind
      · exact .inl List.mem_cons_self
      · exact .inr (ih behind)
    | template | function | conditional | identifier | placeholder | literal | binary | filter
    | call | list | write => exact .inr (ih member)

namespace Analysis

/-- What an expression leaves alone, and that the names it comes to hold have definitions in front of
the statement. -/
structure Backed (st next : State) : Prop extends Follows st next where
  defined : ∀ name c, next.holders.get? name = some c →
    st.holders.get? name = some c ∨ name ∈ Node.targets next.frame.pending

section Holders

variable {ctx : Context} {st middle next last : State}

theorem Backed.of_alike (same : next.Alike st) : Backed st next :=
  ⟨.of_alike same, fun _ _ held => .inl (same.holders ▸ held)⟩

theorem Backed.trans (first : Backed st middle) (second : Backed middle next) : Backed st next := by
  refine ⟨first.toFollows.trans second.toFollows, fun name c held => ?_⟩
  rcases second.defined name c held with before | now
  · exact (first.defined name c before).imp_right fun pending => second.targets pending
  · exact .inr now

theorem aliasFor_backed {c : Computation} {value : Node} {name : String}
    (made : st.aliasFor ctx c value = (name, next)) : Backed st next := by
  refine ⟨aliasFor_follows made, fun other c' held => ?_⟩
  rcases aliasFor_cases made with ⟨rfl, -⟩ | ⟨rfl, -, -⟩
  · exact .inl held
  · rw [OrderedMap.get?_insert] at held
    by_cases same : name = other
    · right
      change other ∈ Node.targets (st.frame.pending ++ [.assign .generated name value])
      rw [Node.targets_snoc, same]
      exact List.mem_append_right _ List.mem_cons_self
    · rw [if_neg same] at held
      exact .inl held

theorem Operands.backed {es es' : List Node} (h : Operands ctx st es es' last) :
    Backed st last := by
  induction h with
  | nil => exact .of_alike (.refl _)
  | identifier _ _ _ ih | literal _ _ _ ih => exact ih
  | placeholder read _ ih =>
    rcases read_cases read with ⟨-, -, same⟩ | ⟨-, same⟩ | ⟨_, _, -, -, -, -, made, same⟩
    · exact (Backed.of_alike same).trans ih
    · exact (Backed.of_alike same).trans ih
    · exact ((aliasFor_backed made).trans (.of_alike same)).trans ih
  | @binary st middle next _ _ _ _ _ _ _ _ op _ _ _ first second later =>
    have right : Backed middle next := ⟨⟨second.assigned, second.assignedHere, second.targets⟩,
      second.defined⟩
    exact (first.trans right).trans ⟨⟨later.assigned, later.assignedHere, later.targets⟩,
      later.defined⟩
  | filter _ check cache _ inner later =>
    have checked := inner.trans (.of_alike (checkFilter_alike check))
    rcases cacheFilter_cases cache with ⟨-, rfl⟩ | ⟨_, _, -, -, -, -, made⟩
    · exact checked.trans later
    · exact (checked.trans (aliasFor_backed made)).trans later
  | call _ _ _ _ first second later => exact (first.trans second).trans later
  | list _ _ _ inner later => exact inner.trans later

end Holders

/-- A name that a block comes to hold is assigned in what becomes of the block. -/
theorem Statements.assigned_of_held {ctx : Context} {st last : State} {source out : List Node}
    (h : Statements ctx st source out last) {name : String} {c : Computation}
    (held : last.holders.get? name = some c) :
    st.holders.get? name = some c ∨ name ∈ Node.assignmentsOf out := by
  -- what is held in front of a statement and what its own expression comes to hold
  have front {st next : State} {n : Node} {rest : List Node} (backed : Backed st.beginStatement next)
      (held : next.holders.get? name = some c) :
      st.holders.get? name = some c ∨
        name ∈ Node.assignmentsOf (next.frame.pending ++ n :: rest) := by
    apply (backed.defined name c held).imp_right
    intro pending
    rw [Node.mem_assignmentsOf_append]
    exact .inl (Node.targets_subset_assignmentsOf _ pending)
  have behind {pending rest : List Node} {n : Node}
      (h : name ∈ n.assignments ∨ name ∈ Node.assignmentsOf rest) :
      name ∈ Node.assignmentsOf (pending ++ n :: rest) := by
    rw [Node.mem_assignmentsOf_append, Node.assignmentsOf, List.mem_append]
    exact .inr h
  induction h with
  | nil => exact .inl held
  | function _ _ _ _ _ ih => exact (ih held).imp_right fun later => behind (.inr later)
  | branch _ test _ _ thenIH ih =>
    rcases ih held with before | later
    · rcases thenIH before with before | inThen
      · exact front test.backed before
      · exact .inr (behind (.inl (List.mem_append_right _ inThen)))
    · exact .inr (behind (.inr later))
  | branches _ test _ _ _ thenIH elseIH ih =>
    rcases ih held with before | later
    · rcases elseIH before with before | inElse
      · rcases thenIH before with before | inThen
        · exact front test.backed before
        · exact .inr (behind (.inl (List.mem_append_left _ (List.mem_append_right _ inThen))))
      · exact .inr (behind (.inl (List.mem_append_right _ inElse)))
    · exact .inr (behind (.inr later))
  | assign _ _ inner _ ih | write _ inner _ ih | expression _ inner _ ih =>
    rcases ih held with before | later
    · exact front inner.backed before
    · exact .inr (behind (.inr later))

theorem mem_locals_of_mem_plainNames {scope : Scope} {name : String} (plain : scope.isPlain)
    (member : name ∈ scope.plainNames) : name ∈ scope.locals := by
  rw [Scope.plainNames, Scope.aliasNames_of_isPlain plain] at member
  rcases List.mem_append.1 (List.mem_filter.1 member).1 with declared | listed
  · exact declared
  · cases listed

/-- A name that belongs to the template rather than to an alias is claimed. -/
theorem claims_of_isUserName {ctx : Context} {st : State} {body : List Node} {scope : Scope}
    {name : String} (plain : scope.isPlain) (source : Node.areStatements body)
    (h : st.isUserName (ctx.enterFunction ⟨body, scope⟩) name) :
    Block.Claims st.globals ⟨body, scope⟩ name := by
  simp only [State.isUserName, Bool.or_eq_true, decide_eq_true_eq] at h
  rcases h with (assigned | declared) | given
  · exact .inl assigned
  · obtain ⟨inner, among, plainly⟩ := List.mem_flatMap.1 declared
    have plainInner : inner.isPlain := by
      rcases List.mem_cons.1 among with rfl | below
      · exact plain
      · exact Node.isPlain_of_mem_scopesOf body source below
    exact .inr (.inl ⟨inner, among, mem_locals_of_mem_plainNames plainInner plainly⟩)
  · exact .inr (.inr given)

end Analysis

/-- An introduced variable has a definition. -/
theorem Optimizes.exists_definition {table : AliasTable} {after : Assigned String} {f g : Block Node}
    (h : Optimizes table after f g) {name : String} (new : name ∈ f.introduced g) :
    ∃ value c, (name, value) ∈ f.definitions g ∧ value.computation? = some c ∧
      table name = some c := by
  obtain ⟨assigned, own⟩ := List.mem_filter.1 new
  obtain ⟨n, statement, target⟩ := List.mem_filterMap.1 (h.expanded.mem_targets.2 assigned)
  cases n with
  | assign span other value =>
    cases target
    have member : (name, value) ∈ f.definitions g :=
      List.mem_filter.2 ⟨List.mem_filterMap.2 ⟨_, statement, rfl⟩, own⟩
    obtain ⟨c, held, computed⟩ := h.definition member
    exact ⟨value, c, member, computed, held⟩
  | template | function | conditional | identifier | placeholder | literal | binary | filter | call
  | list | write => cases target

/-- An alias that has the first of its candidates which the function does not claim and which no
other alias of the function has. -/
def Block.Named (globals : OrderedSet String) (f g : Block Node) (name : String) : Prop :=
  ∃ value c k, (name, value) ∈ f.definitions g ∧ value.computation? = some c ∧
    name = Alias.candidate c.preferredAlias k ∧
    ∀ j < k, f.Claims globals (Alias.candidate c.preferredAlias j) ∨
      ∃ value', (Alias.candidate c.preferredAlias j, value') ∈ f.definitions g ∧
        value'.computation? ≠ some c

namespace Analysis

section Functions

variable {ctx : Context} {st inner : State} {body walked : List Node} {scope : Scope}

/-- Every name that a function holds is assigned in what becomes of it. -/
theorem enterFunction_assigned (plain : scope.isPlain) (source : Node.areStatements body)
    (h : Statements (ctx.enterFunction ⟨body, scope⟩) (st.enterFunction ⟨body, scope⟩) body walked
      inner) {name : String} {c : Computation} (held : inner.holders.get? name = some c) :
    name ∈ Node.assignmentsOf walked := by
  apply (h.assigned_of_held held).resolve_left
  rw [enterFunction_holders st plain source]
  intro none
  cases none

/-- The aliases of an analysed function are the names that it holds. -/
theorem enterFunction_aliasNames (plain : scope.isPlain) (source : Node.areStatements body)
    (h : Statements (ctx.enterFunction ⟨body, scope⟩) (st.enterFunction ⟨body, scope⟩) body walked
      inner) (name : String) :
    name ∈ Block.aliasNames ⟨walked, inner.frame.commit scope⟩ ↔
      (inner.holders.get? name).isSome := by
  have registers := enterFunction_registers plain source h
  have optimizes := enterFunction_optimizes plain source h
  rw [Block.mem_aliasNames]
  constructor
  · rintro ⟨block, among, listed⟩
    obtain ⟨entry, member, rfl⟩ := List.mem_map.1 listed
    rw [(registers.tidy block among).lists entry member]
    rfl
  · intro some
    obtain ⟨c, held⟩ := Option.isSome_iff_exists.1 some
    have assigned := enterFunction_assigned plain source h held
    obtain ⟨block, among, target⟩ := Block.mem_targets.1 (optimizes.expanded.mem_targets.2 assigned)
    refine ⟨block, among, ?_⟩
    rw [(registers.tidy block among).values]
    exact List.mem_filter.2 ⟨target, some⟩

/-- Every alias that a function holds has a definition. -/
theorem enterFunction_defined (plain : scope.isPlain) (source : Node.areStatements body)
    (h : Statements (ctx.enterFunction ⟨body, scope⟩) (st.enterFunction ⟨body, scope⟩) body walked
      inner) {name : String} {c : Computation} (held : inner.holders.get? name = some c) :
    ∃ value, (name, value) ∈
        Block.definitions ⟨body, scope⟩ ⟨walked, inner.frame.commit scope⟩ ∧
      value.computation? = some c := by
  have optimizes := enterFunction_optimizes plain source h
  have assigned := enterFunction_assigned plain source h held
  have new : name ∈ Block.introduced ⟨body, scope⟩ ⟨walked, inner.frame.commit scope⟩ :=
    optimizes.expanded.mem_introduced.2 ⟨assigned, congrArg Option.isSome held⟩
  obtain ⟨value, c', member, computed, held'⟩ := optimizes.exists_definition new
  rw [held] at held'
  cases held'
  exact ⟨value, member, computed⟩

theorem enterFunction_named (plain : scope.isPlain) (source : Node.areStatements body)
    (h : Statements (ctx.enterFunction ⟨body, scope⟩) (st.enterFunction ⟨body, scope⟩) body walked
      inner) {name : String}
    (new : name ∈ Block.introduced ⟨body, scope⟩ ⟨walked, inner.frame.commit scope⟩) :
    ¬ Block.Claims st.globals ⟨body, scope⟩ name ∧
      Block.Named st.globals ⟨body, scope⟩ ⟨walked, inner.frame.commit scope⟩ name := by
  have optimizes := enterFunction_optimizes plain source h
  have registers := enterFunction_registers plain source h
  obtain ⟨value, c, member, computed, held⟩ := optimizes.exists_definition new
  obtain ⟨k, rfl, -, passed⟩ := enterFunction_chosen plain source h name c held
  constructor
  · rintro (assigned | ⟨scope', among, declared⟩ | global)
    · exact of_decide_eq_true (List.mem_filter.1 new).2 assigned
    · exact registers.undeclared _ c held scope' among declared
    · exact registers.foreign _ c held global
  · refine ⟨value, c, k, member, computed, rfl, fun j below => ?_⟩
    have taken := passed j below
    rw [State.isTaken, Bool.or_eq_true] at taken
    rcases taken with other | user
    · cases holds : inner.holders.get? (Alias.candidate c.preferredAlias j) with
      | none => simp [holds] at other
      | some c' =>
        have different : c' ≠ c := by simpa [holds] using other
        obtain ⟨value', member', computed'⟩ := enterFunction_defined plain source h holds
        refine .inr ⟨value', member', ?_⟩
        rw [computed']
        intro same
        exact different (Option.some.inj same)
    · have claimed := claims_of_isUserName plain source user
      rw [h.globals_eq] at claimed
      exact .inl claimed

end Functions

end Analysis

/-- No introduced alias has a name that its function assigns or declares or that is given from
outside; it has the first of its candidates that is none of these and no other alias. So if a
function claims all names among those it mentions that begin like an alias, then none of its aliases
has a name that it mentions. -/
theorem analyze_alias_names_unclaimed (options : Options) (root : Node) (analysis : Analysis)
    (source : root.isSource) (h : root.analyze options = .ok analysis) :
    List.Forall₂ (fun f g =>
        (∀ name ∈ f.introduced g,
          ¬ f.Claims root.globals name ∧ f.Named root.globals g name) ∧
        ((∀ name ∈ f.mentions, Alias.isMarked name → f.Claims root.globals name) →
          ∀ name ∈ f.introduced g, name ∉ f.mentions))
      root.functions analysis.tree.functions := by
  have all : List.Forall₂ (fun f g => ∀ name ∈ f.introduced g,
      ¬ f.Claims root.globals name ∧ f.Named root.globals g name)
      root.functions analysis.tree.functions := by
    apply Analysis.analyze_forall_functions source h
    intro ctx st inner body walked scope plain source given _ inside name new
    rw [← given]
    exact Analysis.enterFunction_named plain source inside new
  apply all.imp
  intro f g named
  refine ⟨named, fun claimed name new mentioned => ?_⟩
  obtain ⟨unclaimed, value, c, k, -, -, rfl, -⟩ := named name new
  exact unclaimed (claimed _ mentioned (c.isMarked_candidate k))

/-- A function that mentions names which begin like an alias: one that it sets, one that it declares
and one that is given from outside. -/
def wary : Block Node :=
  ⟨[.assign .generated "_rph_foo" (.identifier .generated "hello"),
      .write .generated (.placeholder .generated "foo" none),
      .write .generated (.identifier .generated "_rph_foo"),
      .write .generated (.placeholder .generated "bar" none),
      .write .generated (.placeholder .generated "_rph_bar" none),
      .write .generated (.placeholder .generated "baz" none),
      .write .generated (.identifier .generated "_rph_baz")],
    ⟨.ofList ["_rph_bar"], ∅, ∅⟩⟩

def waryPage : Node :=
  .template .generated "page" (.ofList ["_rph_baz"]) [.function .generated "wary" wary]

theorem waryPage_analyze :
    ∃ analysis g, waryPage.analyze .caching = .ok analysis ∧ analysis.tree.functions = [g] ∧
      wary.introduced g = ["_rph_foo_1", "_rph_bar_1", "_rph_baz_1"] :=
  ⟨_, _, rfl, rfl, by decide +kernel⟩

theorem wary_claims : ∀ name ∈ wary.mentions, Alias.isMarked name →
    wary.Claims waryPage.globals name := by
  unfold Block.Claims
  decide +kernel

theorem wary_alias_names_unclaimed :
    ∃ analysis g, waryPage.isSource = true ∧ waryPage.analyze .caching = .ok analysis ∧
      analysis.tree.functions = [g] ∧
      wary.introduced g = ["_rph_foo_1", "_rph_bar_1", "_rph_baz_1"] ∧
      (∀ name ∈ wary.introduced g, ¬ wary.Claims waryPage.globals name ∧
        wary.Named waryPage.globals g name) ∧
      (∀ name ∈ wary.mentions, Alias.isMarked name → wary.Claims waryPage.globals name) ∧
      ∀ name ∈ wary.introduced g, name ∉ wary.mentions := by
  obtain ⟨analysis, g, analyzed, functions, names⟩ := waryPage_analyze
  have all := analyze_alias_names_unclaimed .caching waryPage analysis (by decide) analyzed
  rw [functions] at all
  obtain ⟨unclaimed, clear⟩ := (List.forall₂_cons.1 all).1
  exact ⟨analysis, g, by decide, analyzed, functions, names, unclaimed, wary_claims,
    clear wary_claims⟩

/-- A function that reads two placeholders, and under the names of their aliases a placeholder and a
variable. -/
def namesake : Block Node :=
  .plain [.write .generated (.placeholder .generated "foo" none),
    .write .generated (.placeholder .generated "_rph_foo" none),
    .write .generated (.placeholder .generated "bar" none),
    .write .generated (.identifier .generated "_rph_bar")]

/-- Both aliases have names that the function mentions. -/
theorem namesake_captured :
    ∃ analysis g, (Node.function .generated "namesake" namesake).isSource = true ∧
      (Node.function .generated "namesake" namesake).analyze { cachePlaceholders := true } =
        .ok analysis ∧
      analysis.tree.functions = [g] ∧
      "_rph_foo" ∈ namesake.introduced g ∧ "_rph_foo" ∈ namesake.mentions ∧
      "_rph_bar" ∈ namesake.introduced g ∧ "_rph_bar" ∈ namesake.mentions :=
  ⟨_, _, by decide, rfl, rfl, by decide +kernel, by decide, by decide +kernel, by decide⟩

end Stencil
