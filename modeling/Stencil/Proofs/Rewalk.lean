import Stencil.Proofs.Placeholders

/-!
# Walking a tree with notes and aliases

What the analysis does to a tree that need not be a source tree: its scopes may list aliases, and
its placeholders may bear notes from an earlier run. Whatever was noted before, a placeholder is
read from an alias only where the function never assigns it (`Apt.cached`), it is looked up by its
name only where it is not assigned for certain (`Apt.dynamic`), and where it could be cached, it is
looked up by its name only if no alias for it is visible (`Apt.unseen`).

Main statement: `analyze_reconciled`.
-/

namespace Stencil

/-- Whether a placeholder of a function is cached wherever it is always read. -/
def Block.Caches (options : Options) (block : Block Node) (name : String) : Prop :=
  options.cachePlaceholders = true ∧ name ∉ block.assignments

namespace Analysis

/-- Whether a placeholder is cached where it is always read. -/
def Context.Caches (ctx : Context) (name : String) : Prop :=
  ctx.options.cachePlaceholders = true ∧ ctx.inFunction = true ∧ name ∉ ctx.assignedAnywhere

theorem Context.caches_enterFunction {ctx : Context} {block : Block Node} {name : String} :
    (ctx.enterFunction block).Caches name ↔ block.Caches ctx.options name := by
  simp [Context.Caches, Context.enterFunction, Block.Caches]

/-- What a note says that is made from a state on. -/
structure Apt (ctx : Context) (st : State) (o : Occurrence) : Prop where
  cached : o.IsCached → ctx.Caches o.name
  dynamic : o.IsDynamic → ctx.options.directAccess = true → o.name ∉ st.frame.assigned
  unseen : o.resolution = some ⟨true, .dynamic⟩ → ctx.Caches o.name →
    st.visibleAlias? ctx (.placeholder o.name) = none

/-- What stays while a block is walked: names that are assigned, computations that have an alias,
and aliases that were introduced. -/
structure Grows (ctx : Context) (st next : State) : Prop where
  assigned : ∀ name ∈ st.frame.assigned, name ∈ next.frame.assigned
  visible : ∀ c, (st.visibleAlias? ctx c).isSome → (next.visibleAlias? ctx c).isSome
  introduced : st.frame.introduced ⊆ next.frame.introduced

/-- The notes of a walk from one state to another, and those on the definitions that it adds. -/
structure Noted (ctx : Context) (st : State) (os : List Occurrence) (next : State) : Prop where
  grows : Grows ctx st next
  apt : ∀ o ∈ os, Apt ctx st o
  pending : ∀ o ∈ Node.placeholdersOf next.frame.pending,
    o ∈ Node.placeholdersOf st.frame.pending ∨ Apt ctx st o
  flat : Node.Flat st.frame.pending → Node.Flat next.frame.pending

section Steps

variable {ctx : Context} {st middle next : State} {os more : List Occurrence}

theorem Grows.of_frame (same : next.frame = st.frame) : Grows ctx st next := by
  constructor
  · rw [same]
    exact fun _ member => member
  · intro c
    rw [State.visibleAlias?, State.visibleAlias?, same]
    exact id
  · rw [same]
    exact List.Subset.refl _

theorem Grows.trans (first : Grows ctx st middle) (second : Grows ctx middle next) :
    Grows ctx st next :=
  ⟨fun name member => second.assigned name (first.assigned name member),
    fun c seen => second.visible c (first.visible c seen),
    List.Subset.trans first.introduced second.introduced⟩

theorem Grows.endStatement (st : State) : Grows ctx st st.endStatement :=
  ⟨fun _ there => there, fun _ seen => seen, fun _ => id⟩

/-- What is noted later was apt before. -/
theorem Apt.of_grows {o : Occurrence} (apt : Apt ctx next o) (grows : Grows ctx st next) :
    Apt ctx st o := by
  refine ⟨apt.cached, fun dynamic direct member =>
    apt.dynamic dynamic direct (grows.assigned _ member), fun dynamic caches => ?_⟩
  rw [← Option.not_isSome_iff_eq_none]
  intro seen
  have later := grows.visible _ seen
  rw [apt.unseen dynamic caches] at later
  cases later

theorem Noted.of_frame (same : next.frame = st.frame) : Noted ctx st [] next := by
  refine ⟨.of_frame same, fun _ member => (by cases member), ?_, ?_⟩
  · rw [same]
    exact fun _ member => .inl member
  · rw [same]
    exact id

theorem Noted.trans (first : Noted ctx st os middle) (second : Noted ctx middle more next) :
    Noted ctx st (os ++ more) next := by
  refine ⟨first.grows.trans second.grows, ?_, ?_, fun flat => second.flat (first.flat flat)⟩
  · intro o member
    rcases List.mem_append.1 member with early | late
    · exact first.apt o early
    · exact (second.apt o late).of_grows first.grows
  · intro o member
    rcases second.pending o member with early | late
    · exact first.pending o early
    · exact .inr (late.of_grows first.grows)

/-- A walk after which nothing more is noted. -/
theorem Noted.onwards (first : Noted ctx st os middle) (second : Noted ctx middle [] next) :
    Noted ctx st os next := by
  have both := first.trans second
  rwa [List.append_nil] at both

/-- A walk before which nothing is noted. -/
theorem Noted.behind (first : Noted ctx st [] middle) (second : Noted ctx middle os next) :
    Noted ctx st os next := first.trans second

/-- A new alias adds its definition. -/
theorem aliasFor_noted {c : Computation} {value : Node} {name : String}
    (made : st.aliasFor ctx c value = (name, next)) (flat : Node.Flat [value])
    (apt : st.visibleAlias? ctx c = none → ∀ o ∈ value.placeholders, Apt ctx st o) :
    Noted ctx st [] next := by
  rcases aliasFor_cases made with ⟨rfl, -⟩ | ⟨rfl, -, unseen⟩
  · exact .of_frame rfl
  · refine ⟨⟨fun _ member => member, fun c' seen => ?_, ?_⟩, fun _ member => (by cases member), ?_,
      ?_⟩
    · exact isSome_findSome_insert (.inr seen)
    · exact List.subset_append_left _ _
    · intro o member
      change o ∈ Node.placeholdersOf (st.frame.pending ++ [.assign .generated name value]) at member
      rw [Node.placeholdersOf_append, List.mem_append] at member
      rcases member with old | new
      · exact .inl old
      · simp only [Node.placeholdersOf, Node.placeholders, List.append_nil] at new
        exact .inr (apt unseen o new)
    · intro before
      exact before.append (.cons flat.head.1 flat.head.2 .nil)

/-- The note on a placeholder that is read. -/
theorem read_noted {span : Span} {name : String} {resolution : Resolution}
    (h : st.read ctx span name = .ok (resolution, next)) :
    Noted ctx st [⟨name, span, some resolution⟩] next := by
  have noted {st next : State} {o : Occurrence} (rest : Noted ctx st [] next)
      (apt : Apt ctx st o) : Noted ctx st [o] next :=
    ⟨rest.grows, fun _ member => List.mem_singleton.1 member ▸ apt, rest.pending, rest.flat⟩
  unfold State.read at h
  split at h
  · cases h
  · simp only [Except.ok.injEq, Prod.mk.injEq] at h
    obtain ⟨rfl, rfl⟩ := h
    unfold State.access
    split
    · refine noted (.of_frame rfl) ⟨?_, ?_, fun dynamic => ?_⟩
      · rintro ⟨_, _, ⟨⟩⟩
      · rintro ⟨_, ⟨⟩⟩
      · cases congrArg Resolution.access (Option.some.inj dynamic)
    · rename_i indirect
      split
      · rename_i caches
        obtain ⟨-, caching, inside, free⟩ := caches
        refine noted (Noted.onwards (aliasFor_noted rfl (.cons rfl rfl .nil) ?_) (.of_frame rfl))
          ⟨fun _ => ⟨caching, inside, free⟩, ?_, fun dynamic => ?_⟩
        · intro unseen o member
          rw [List.mem_singleton.1 member]
          refine ⟨?_, fun _ direct assigned => indirect ⟨assigned, direct⟩, fun _ _ => unseen⟩
          rintro ⟨_, _, ⟨⟩⟩
        · rintro ⟨_, ⟨⟩⟩
        · cases congrArg Resolution.access (Option.some.inj dynamic)
      · rename_i uncached
        refine noted (.of_frame rfl) ⟨?_, fun _ direct assigned => indirect ⟨assigned, direct⟩, ?_⟩
        · rintro ⟨_, _, ⟨⟩⟩
        · intro dynamic caches
          have always := congrArg Resolution.cacheEligible (Option.some.inj dynamic)
          exact absurd ⟨always, caches⟩ uncached

theorem cacheFilter_noted {span : Span} {operand : Node} {name cached : Option String}
    (h : st.cacheFilter ctx span operand name = (cached, next)) : Noted ctx st [] next := by
  rcases cacheFilter_cases h with ⟨-, rfl⟩ | ⟨source, _, -, -, -, -, made⟩
  · exact .of_frame rfl
  · refine aliasFor_noted made (.cons rfl rfl .nil) fun _ o member => ?_
    cases member

theorem assign_noted (target : String) : Noted ctx st [] (st.assign ctx target) := by
  refine ⟨⟨fun _ member => Assigned.mem_insert.2 (.inl member), fun _ seen => seen, fun _ => id⟩,
    fun _ member => (by cases member), fun _ member => .inl member, id⟩

theorem join_noted (outcomes : List (Assigned String)) : Noted ctx st [] (st.join outcomes) := by
  refine ⟨⟨fun _ member => Assigned.mem_join.2 (.inl member), fun _ seen => seen, fun _ => id⟩,
    fun _ member => (by cases member), fun _ member => .inl member, id⟩

end Steps

mutual

theorem walk_operand_noted {ctx : Context} (e : Node) (operand : e.isOperand) {st next : State}
    {e' : Node} (h : walk ctx e st = .ok (e', next)) :
    Noted ctx st e'.placeholders next ∧ e'.isOperand := by
  cases e with
  | identifier span name => cases h; exact ⟨.of_frame rfl, rfl⟩
  | literal span value => cases h; exact ⟨.of_frame rfl, rfl⟩
  | placeholder span name resolution =>
    obtain ⟨resolution, read, rfl⟩ := walk_placeholder_iff.1 h
    exact ⟨read_noted read, rfl⟩
  | binary span op left right =>
    rw [Node.isOperand, Bool.and_eq_true] at operand
    obtain ⟨left', middle, right', next', first, second, rfl, rfl⟩ := walk_binary_iff.1 h
    obtain ⟨one, isLeft⟩ := walk_operand_noted left operand.1 first
    obtain ⟨two, isRight⟩ := walk_operand_noted right operand.2 second
    have turned : Noted ctx middle [] (middle.evaluating (st.evaluation.rightOperand op)) :=
      .of_frame rfl
    have back : Noted ctx next' [] (next'.evaluating st.evaluation) := .of_frame rfl
    refine ⟨one.trans (turned.behind (two.onwards back)), ?_⟩
    rw [Node.isOperand, isLeft, isRight]
    rfl
  | filter span operand' name cachedAs =>
    obtain ⟨inner', middle, checked, cached, inner, check, cache, rfl⟩ := walk_filter_iff.1 h
    obtain ⟨one, isInner⟩ := walk_operand_noted operand' operand inner
    exact ⟨(one.onwards (.of_frame (checkFilter_alike check).frame)).onwards
      (cacheFilter_noted cache), isInner⟩
  | call span callee arguments =>
    rw [Node.isOperand, Bool.and_eq_true] at operand
    obtain ⟨callee', middle, arguments', first, second, rfl⟩ := walk_call_iff.1 h
    obtain ⟨one, isCallee⟩ := walk_operand_noted callee operand.1 first
    obtain ⟨two, areArguments⟩ := walkEach_noted arguments operand.2 second
    refine ⟨one.trans two, ?_⟩
    rw [Node.isOperand, isCallee, areArguments]
    rfl
  | list span items =>
    obtain ⟨items', inner, rfl⟩ := walk_list_iff.1 h
    exact walkEach_noted items operand inner
  | template | function | conditional | assign | write => simp [Node.isOperand] at operand
termination_by structural e

theorem walkEach_noted {ctx : Context} (es : List Node) (operands : Node.areOperands es)
    {st last : State} {es' : List Node} (h : walkEach ctx es st = .ok (es', last)) :
    Noted ctx st (Node.placeholdersOf es') last ∧ Node.areOperands es' := by
  cases es with
  | nil => cases h; exact ⟨.of_frame rfl, rfl⟩
  | cons e rest =>
    rw [Node.areOperands, Bool.and_eq_true] at operands
    obtain ⟨e', next, rest', first, later, rfl⟩ := walkEach_cons_iff.1 h
    obtain ⟨one, isFirst⟩ := walk_operand_noted e operands.1 first
    obtain ⟨two, areLater⟩ := walkEach_noted rest operands.2 later
    refine ⟨one.trans two, ?_⟩
    rw [Node.areOperands, isFirst, areLater]
    rfl
termination_by structural es

end

/-- A block and what a walk makes of it: of the placeholders that could be cached, those that the
scope has an alias for are not looked up by their name where they are always read. -/
def Answers (caches : String → Prop) (block walked : Block Node) : Prop :=
  ∀ o ∈ Node.placeholdersOf walked.body, o.resolution = some ⟨true, .dynamic⟩ → caches o.name →
    block.scope.aliasFor? (.placeholder o.name) = none

/-- A function and what a walk makes of it. -/
structure Reconciled (options : Options) (block walked : Block Node) : Prop where
  cached : ∀ o ∈ walked.placeholders, o.IsCached → block.Caches options o.name
  dynamic : ∀ o ∈ walked.placeholders, o.IsDynamic → options.directAccess = true →
    o.name ∉ block.scope.locals
  blocks : List.Forall₂ (Answers (block.Caches options)) block.blocks walked.blocks

/-- The blocks and functions of statements, and what a walk makes of them. -/
structure Rewalked (ctx : Context) (body out : List Node) : Prop where
  blocks : List.Forall₂ (Answers ctx.Caches) (Node.branchesOf body) (Node.branchesOf out)
  functions : List.Forall₂ (Reconciled ctx.options) (Node.functionsOf body) (Node.functionsOf out)

section Blocks

variable {ctx : Context} {st : State}

theorem Rewalked.of_flat {body out : List Node} (before : Node.Flat body) (after : Node.Flat out) :
    Rewalked ctx body out := by
  constructor
  · rw [before.branches, after.branches]
    exact .nil
  · rw [before.functions, after.functions]
    exact .nil

/-- A statement over an expression. -/
theorem Rewalked.of_operand {e e' n n' : Node} (before : e.isOperand) (after : e'.isOperand)
    (branches : n.branches = e.branches ∧ n'.branches = e'.branches)
    (functions : n.functions = e.functions ∧ n'.functions = e'.functions) :
    Rewalked ctx [n] [n'] := by
  have flat := (Node.flat_of_isOperand e before).head
  have flat' := (Node.flat_of_isOperand e' after).head
  exact .of_flat (.cons (branches.1.trans flat.1) (functions.1.trans flat.2) .nil)
    (.cons (branches.2.trans flat'.1) (functions.2.trans flat'.2) .nil)

theorem Rewalked.append {body out more after : List Node} (first : Rewalked ctx body out)
    (second : Rewalked ctx more after) : Rewalked ctx (body ++ more) (out ++ after) := by
  constructor
  · rw [Node.branchesOf_append, Node.branchesOf_append]
    exact List.rel_append first.blocks second.blocks
  · rw [Node.functionsOf_append, Node.functionsOf_append]
    exact List.rel_append first.functions second.functions

/-- What is apt in a branch is apt in front of the conditional, and the scope of the branch has no
alias for what is looked up. -/
theorem Apt.ofBranch {tested : State} {scope : Scope} {o : Occurrence}
    (apt : Apt (ctx.enterBranch st.frame.aliases) (tested.enterBranch scope) o)
    (same : tested.frame = st.frame) :
    Apt ctx st o ∧ (o.resolution = some ⟨true, .dynamic⟩ → ctx.Caches o.name →
      scope.aliasFor? (.placeholder o.name) = none) := by
  have unseen (dynamic : o.resolution = some ⟨true, .dynamic⟩) (caches : ctx.Caches o.name) :
      scope.aliasFor? (.placeholder o.name) = none ∧
        st.visibleAlias? ctx (.placeholder o.name) = none := by
    have none := apt.unseen dynamic caches
    change (scope.aliases :: st.frame.aliases :: ctx.enclosing).findSome?
      (·.get? (.placeholder o.name)) = Option.none at none
    rw [List.findSome?_eq_none_iff, List.forall_mem_cons] at none
    exact ⟨none.1, List.findSome?_eq_none_iff.2 none.2⟩
  refine ⟨⟨apt.cached, ?_, fun dynamic caches => (unseen dynamic caches).2⟩,
    fun dynamic caches => (unseen dynamic caches).1⟩
  intro dynamic direct member
  refine apt.dynamic dynamic direct ?_
  change o.name ∈ tested.frame.assigned
  rwa [same]

/-- What the walk of a branch makes of it, seen from in front of the conditional. -/
theorem Rewalked.branch {tested : State} {body out : List Node} {scope scope' : Scope}
    (apt : ∀ o ∈ Node.placeholdersOf out,
      Apt (ctx.enterBranch st.frame.aliases) (tested.enterBranch scope) o)
    (below : Rewalked (ctx.enterBranch st.frame.aliases) body out)
    (same : tested.frame = st.frame) :
    Noted ctx st (Node.placeholdersOf out) st ∧
      List.Forall₂ (Answers ctx.Caches) (Block.blocks ⟨body, scope⟩)
        (Block.blocks ⟨out, scope'⟩) := by
  refine ⟨⟨.of_frame rfl, fun o member => ((apt o member).ofBranch same).1,
    fun _ member => .inl member, id⟩, .cons ?_ below.blocks⟩
  intro o member
  exact ((apt o member).ofBranch same).2

end Blocks

mutual

theorem walk_rewalked {ctx : Context} (n : Node) (placed : n.isPlaced) {st next : State}
    {n' : Node} (h : walk ctx n st = .ok (n', next)) :
    Noted ctx st n'.placeholders next ∧ Rewalked ctx [n] [n'] := by
  cases n with
  | function span name block =>
    obtain ⟨body, scope⟩ := block
    obtain ⟨walked, inner, inside, rfl, rfl⟩ := walk_function_iff.1 h
    obtain ⟨apt, below⟩ := walkBlock_rewalked body placed rfl inside
    refine ⟨.of_frame rfl, .nil, ?_⟩
    rw [← Node.functions_eq_functionsOf, ← Node.functions_eq_functionsOf, Node.functions_function,
      Node.functions_function]
    refine .cons ⟨?_, ?_, .cons ?_ ?_⟩ below.functions
    · exact fun o member cached => Context.caches_enterFunction.1 ((apt o member).cached cached)
    · intro o member dynamic direct declared
      refine (apt o member).dynamic dynamic direct ?_
      exact Assigned.mem_ofList.2 declared
    · intro o member dynamic caches
      have none := (apt o member).unseen dynamic (Context.caches_enterFunction.2 caches)
      change [scope.aliases].findSome? (·.get? (.placeholder o.name)) = Option.none at none
      rw [List.findSome?_eq_none_iff, List.forall_mem_cons] at none
      exact none.1
    · refine below.blocks.imp fun block walked answers o member dynamic caches => ?_
      exact answers o member dynamic (Context.caches_enterFunction.2 caches)
  | conditional span condition thenBranch elseBranch =>
    obtain ⟨thenBody, thenScope⟩ := thenBranch
    cases elseBranch with
    | none =>
      simp only [Node.isPlaced, Bool.and_eq_true] at placed
      obtain ⟨condition', tested, thenBody', inThen, test, thenSide, rfl, rfl⟩ :=
        walk_branch_iff.1 h
      obtain ⟨one, isCondition⟩ := walk_operand_noted condition placed.1 test
      obtain ⟨thenApt, thenBelow⟩ := walkBlock_rewalked thenBody placed.2 rfl thenSide
      obtain ⟨two, blocks⟩ := thenBelow.branch thenApt rfl
      have left : Noted ctx tested [] (tested.leaveBranch inThen) := .of_frame rfl
      obtain ⟨branches, functions⟩ := (Node.flat_of_isOperand condition placed.1).head
      obtain ⟨branches', functions'⟩ := (Node.flat_of_isOperand condition' isCondition).head
      refine ⟨((one.trans two).onwards left).onwards (join_noted _), ?_, ?_⟩
      · simp only [Node.branchesOf, Node.branches, branches, branches', List.nil_append,
          List.append_nil]
        exact blocks
      · rw [← Node.functions_eq_functionsOf, ← Node.functions_eq_functionsOf,
          Node.functions_branch, Node.functions_branch, functions, functions']
        exact thenBelow.functions
    | some block =>
      obtain ⟨elseBody, elseScope⟩ := block
      simp only [Node.isPlaced, Bool.and_eq_true] at placed
      obtain ⟨condition', tested, thenBody', inThen, elseBody', inElse, test, thenSide, elseSide,
        rfl, rfl⟩ := walk_branches_iff.1 h
      obtain ⟨one, isCondition⟩ := walk_operand_noted condition placed.1.1 test
      obtain ⟨thenApt, thenBelow⟩ := walkBlock_rewalked thenBody placed.1.2 rfl thenSide
      obtain ⟨elseApt, elseBelow⟩ := walkBlock_rewalked elseBody placed.2 rfl elseSide
      obtain ⟨two, thenBlocks⟩ := thenBelow.branch thenApt rfl
      obtain ⟨three, elseBlocks⟩ := elseBelow.branch elseApt rfl
      have left : Noted ctx tested [] ((tested.leaveBranch inThen).leaveBranch inElse) :=
        .of_frame rfl
      obtain ⟨branches, functions⟩ := (Node.flat_of_isOperand condition placed.1.1).head
      obtain ⟨branches', functions'⟩ := (Node.flat_of_isOperand condition' isCondition).head
      refine ⟨((one.trans (two.trans three)).onwards left).onwards (join_noted _), ?_, ?_⟩
      · simp only [Node.branchesOf, Node.branches, branches, branches', List.nil_append,
          List.append_nil]
        exact List.rel_append thenBlocks elseBlocks
      · rw [← Node.functions_eq_functionsOf, ← Node.functions_eq_functionsOf,
          Node.functions_branches, Node.functions_branches, functions, functions']
        exact List.rel_append thenBelow.functions elseBelow.functions
  | assign span target value =>
    obtain ⟨value', next', inner, rfl, rfl⟩ := walk_assign_iff.1 h
    obtain ⟨one, isValue⟩ := walk_operand_noted value placed inner
    refine ⟨one.onwards (assign_noted target), ?_⟩
    exact .of_operand placed isValue ⟨rfl, rfl⟩ ⟨rfl, rfl⟩
  | write span operand =>
    obtain ⟨operand', inner, rfl⟩ := walk_write_iff.1 h
    obtain ⟨one, isOperand⟩ := walk_operand_noted operand placed inner
    exact ⟨one, .of_operand placed isOperand ⟨rfl, rfl⟩ ⟨rfl, rfl⟩⟩
  | template => simp [Node.isPlaced] at placed
  | identifier | placeholder | literal | binary | filter | call | list =>
    obtain ⟨one, isOperand⟩ := walk_operand_noted _ placed h
    exact ⟨one, .of_operand placed isOperand ⟨rfl, rfl⟩ ⟨rfl, rfl⟩⟩
termination_by structural n

theorem walkBlock_rewalked {ctx : Context} (body : List Node) (placed : Node.arePlaced body)
    {st last : State} {out : List Node} (empty : st.frame.pending = [])
    (h : walkBlock ctx body st = .ok (out, last)) :
    (∀ o ∈ Node.placeholdersOf out, Apt ctx st o) ∧ Rewalked ctx body out := by
  cases body with
  | nil =>
    cases h
    exact ⟨fun o member => (by cases member), .of_flat .nil .nil⟩
  | cons n rest =>
    rw [Node.arePlaced, Bool.and_eq_true] at placed
    obtain ⟨n', next, rest', first, later, rfl⟩ := walkBlock_cons_iff.1 h
    obtain ⟨walked, here⟩ := walk_rewalked n placed.1 first
    obtain ⟨laterApt, behind⟩ := walkBlock_rewalked rest placed.2 rfl later
    have begun : Noted ctx st [] st.beginStatement := .of_frame rfl
    have one := begun.behind walked
    have flat : Node.Flat next.frame.pending := one.flat (by rw [empty]; exact .nil)
    constructor
    · intro o member
      rw [Node.placeholdersOf_append, Node.placeholdersOf, List.mem_append,
        List.mem_append] at member
      rcases member with new | own | late
      · rcases one.pending o new with old | apt
        · rw [empty] at old
          cases old
        · exact apt
      · exact one.apt o own
      · exact (laterApt o late).of_grows (one.grows.trans (.endStatement next))
    · exact (Rewalked.of_flat .nil flat).append (here.append behind)
termination_by structural body

end

theorem walkTemplate_reconciled {ctx : Context} (body : List Node) (placed : Node.arePlaced body)
    {st last : State} {out : List Node} (h : walkTemplate ctx body st = .ok (out, last)) :
    List.Forall₂ (Reconciled ctx.options) (Node.functionsOf body) (Node.functionsOf out) := by
  induction body generalizing st out with
  | nil => cases h; exact .nil
  | cons n rest ih =>
    rw [Node.arePlaced, Bool.and_eq_true] at placed
    obtain ⟨n', next, rest', first, later, rfl⟩ := walkTemplate_cons_iff.1 h
    obtain ⟨-, here⟩ := walk_rewalked n placed.1 first
    have own := here.functions
    rw [← Node.functions_eq_functionsOf, ← Node.functions_eq_functionsOf] at own
    rw [Node.functionsOf_cons, Node.functionsOf_cons]
    exact List.rel_append own (ih placed.2 later)

/-- Every function of a tree, and what the analysis makes of it. -/
theorem analyze_reconciled {options : Options} {root : Node} {analysis : Analysis}
    (placed : Node.arePlaced root.top) (h : root.analyze options = .ok analysis) :
    List.Forall₂ (Reconciled options) root.functions analysis.tree.functions := by
  unfold Node.analyze at h
  rw [bind_eq_ok] at h
  obtain ⟨⟨tree, last⟩, walked, h⟩ := h
  cases h
  have alone (n : Node) (placed : n.isPlaced)
      (walked : walk (.top options) n .start = .ok (tree, last)) :
      List.Forall₂ (Reconciled options) n.functions tree.functions := by
    have own := (walk_rewalked n placed walked).2.functions
    rwa [← Node.functions_eq_functionsOf, ← Node.functions_eq_functionsOf] at own
  cases root with
  | template span name globals body =>
    obtain ⟨body', inside, rfl⟩ := walk_template_iff.1 walked
    exact walkTemplate_reconciled body placed inside
  | function | conditional | assign | identifier | placeholder | literal | binary | filter | call
  | list | write =>
    simp only [Node.top, Node.arePlaced, Bool.and_true] at placed
    exact alone _ placed walked

end Analysis

end Stencil
