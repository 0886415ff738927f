import Stencil.Proofs.Registration
import Stencil.Proofs.Rewalk

/-!
# Walking a tree without aliases again

When the walk of a source tree introduces no alias, a second walk goes over what the first one made
of it, in step with the first: each state of the second walk is an `Echo` of one of the first, with
the same ledger, no alias in sight, and in a function also assigned what its scope declares by now.
The second walk differs only where that makes a variable one to be read directly, so it has to be
ruled out for the placeholders that the first walk looks up (`Block.Settled`).

One lemma for each step of the analysis says that it is echoed; `walk_operand_echo` and `walk_echo`
put them together along a tree.

Main statement: `analyze_echo`.
-/

namespace Stencil

/-- Whether a scope lists no alias. -/
def Scope.Unlisted (scope : Scope) : Prop := ∀ c, scope.aliasFor? c = none

/-- A function that another walk takes as it is: it has no aliases, and it looks no placeholder up
by its name that it could read directly. -/
structure Block.Settled (options : Options) (block : Block Node) : Prop where
  unlisted : ∀ inner ∈ block.blocks, inner.scope.Unlisted
  reads : options.directAccess = true → ∀ o ∈ block.placeholders, o.IsDynamic →
    o.name ∉ block.scope.locals

/-- Statements that another walk takes as they are, in a function that declares the given names. -/
structure Settles (options : Options) (names : OrderedSet String) (out : List Node) : Prop where
  reads : options.directAccess = true → ∀ o ∈ Node.placeholdersOf out, o.IsDynamic → o.name ∉ names
  branches : ∀ block ∈ Node.branchesOf out, block.scope.Unlisted
  functions : ∀ g ∈ Node.functionsOf out, g.Settled options

section Settles

variable {options : Options} {names : OrderedSet String} {span : Span} {condition : Node}

theorem Settles.of_append {first second : List Node}
    (h : Settles options names (first ++ second)) :
    Settles options names first ∧ Settles options names second := by
  obtain ⟨reads, branches, functions⟩ := h
  simp only [Node.placeholdersOf_append, Node.branchesOf_append, Node.functionsOf_append,
    List.forall_mem_append] at reads branches functions
  exact ⟨⟨fun direct => (reads direct).1, branches.1, functions.1⟩,
    fun direct => (reads direct).2, branches.2, functions.2⟩

theorem Settles.own {n : Node} (h : Settles options names [n])
    (direct : options.directAccess = true) : ∀ o ∈ n.placeholders, o.IsDynamic → o.name ∉ names :=
  fun o member => h.reads direct o (List.mem_append_left _ member)

theorem Settles.function {name : String} {body : List Node} {scope : Scope}
    (h : Settles options names [.function span name ⟨body, scope⟩]) :
    (∀ block ∈ Block.blocks ⟨body, scope⟩, block.scope.Unlisted) ∧
      Settles options scope.locals body := by
  have functions := h.functions
  rw [← Node.functions_eq_functionsOf, Node.functions_function, List.forall_mem_cons] at functions
  obtain ⟨settled, inside⟩ := functions
  exact ⟨settled.unlisted, settled.reads,
    fun block member => settled.unlisted block (List.mem_cons_of_mem _ member), inside⟩

theorem Settles.oneBranch {thenBody : List Node} {thenScope : Scope}
    (h : Settles options names [.conditional span condition ⟨thenBody, thenScope⟩ none]) :
    thenScope.Unlisted ∧ Settles options names thenBody := by
  obtain ⟨reads, branches, functions⟩ := h
  rw [← Node.functions_eq_functionsOf, Node.functions_branch] at functions
  simp only [Node.placeholdersOf, Node.placeholders, Node.branchesOf, Node.branches,
    List.append_nil, List.forall_mem_append, List.forall_mem_cons] at reads branches functions
  exact ⟨branches.2.1, fun direct => (reads direct).2, branches.2.2, functions.2⟩

theorem Settles.twoBranches {thenBody elseBody : List Node} {thenScope elseScope : Scope}
    (h : Settles options names
      [.conditional span condition ⟨thenBody, thenScope⟩ (some ⟨elseBody, elseScope⟩)]) :
    (thenScope.Unlisted ∧ Settles options names thenBody) ∧
      elseScope.Unlisted ∧ Settles options names elseBody := by
  obtain ⟨reads, branches, functions⟩ := h
  rw [← Node.functions_eq_functionsOf, Node.functions_branches] at functions
  simp only [Node.placeholdersOf, Node.placeholders, Node.branchesOf, Node.branches,
    List.append_nil, List.forall_mem_append, List.forall_mem_cons] at reads branches functions
  exact ⟨⟨branches.1.2.1, fun direct => (reads direct).2.1, branches.1.2.2, functions.1.2⟩,
    branches.2.1, fun direct => (reads direct).2.2, branches.2.2, functions.2⟩

end Settles

namespace Analysis

/-- A frame without aliases. -/
structure Frame.Idle (frame : Frame) : Prop where
  aliases : ∀ c, frame.aliases.get? c = none
  introduced : frame.introduced = []
  pending : frame.pending = []

/-- Contexts of two walks. -/
structure Context.Echoes (ctx ctx' : Context) : Prop where
  options : ctx'.options = ctx.options
  inFunction : ctx'.inFunction = ctx.inFunction
  assigned : ctx'.assignedAnywhere = ctx.assignedAnywhere
  clear : ∀ aliases ∈ ctx.enclosing, ∀ c, aliases.get? c = none
  clear' : ∀ aliases ∈ ctx'.enclosing, ∀ c, aliases.get? c = none

/-- States of two walks, of which the second one has the given names assigned from the start. -/
structure Echo (names : OrderedSet String) (st st' : State) : Prop where
  globals : st'.globals = st.globals
  evaluation : st'.evaluation = st.evaluation
  ledger : st'.ledger = st.ledger
  assigned : ∀ name, name ∈ st'.frame.assigned ↔ name ∈ st.frame.assigned ∨ name ∈ names
  assignedHere : st'.frame.assignedHere = st.frame.assignedHere
  idle : st.frame.Idle
  idle' : st'.frame.Idle

section Steps

variable {names : OrderedSet String} {ctx ctx' : Context} {st st' next : State}

theorem Frame.Idle.visibleAlias? (idle : st.frame.Idle)
    (clear : ∀ aliases ∈ ctx.enclosing, ∀ c, aliases.get? c = none) (c : Computation) :
    st.visibleAlias? ctx c = none := by
  refine List.findSome?_eq_none_iff.2 (List.forall_mem_cons.2 ⟨idle.aliases c, ?_⟩)
  exact fun aliases member => clear aliases member c

theorem Frame.Idle.isVisibleAlias (idle : st.frame.Idle)
    (clear : ∀ aliases ∈ ctx.enclosing, ∀ c, aliases.get? c = none) (name : String) :
    st.isVisibleAlias ctx name = false := by
  have absent {aliases : AliasMap} (none : ∀ c, aliases.get? c = none) :
      name ∉ aliases.values := by
    intro member
    obtain ⟨c, found⟩ := OrderedMap.mem_values_iff.1 member
    rw [none c] at found
    cases found
  rw [State.isVisibleAlias, List.any_eq_false]
  intro aliases member
  rw [decide_eq_true_eq]
  rcases List.mem_cons.1 member with rfl | around
  · exact absent idle.aliases
  · exact absent (clear aliases around)

/-- A walk that introduces no alias asks for none. -/
theorem aliasFor_introduced {c : Computation} {value : Node} {name : String}
    (unseen : st.visibleAlias? ctx c = none) (made : st.aliasFor ctx c value = (name, next)) :
    next.frame.introduced ≠ [] := by
  rcases aliasFor_cases made with ⟨-, found⟩ | ⟨rfl, -⟩
  · rw [unseen] at found
    cases found
  · exact List.append_ne_nil_of_right_ne_nil _ (by simp)

theorem access_echo {span : Span} {name : String} {access : Access} (contexts : ctx.Echoes ctx')
    (echo : Echo names st st') (made : st.access ctx span name = (access, next))
    (quiet : ctx.inFunction = true → next.frame.introduced = [])
    (kept : ctx.options.directAccess = true → access = .dynamic → name ∉ names) :
    next = st ∧ st'.access ctx' span name = (access, st') := by
  unfold State.access at made ⊢
  rw [contexts.options, contexts.inFunction, contexts.assigned, echo.evaluation]
  simp only [echo.assigned]
  split at made
  · rename_i direct
    cases made
    exact ⟨rfl, if_pos ⟨.inl direct.1, direct.2⟩⟩
  · rename_i indirect
    split at made
    · rename_i cached
      cases made
      exact absurd (quiet cached.2.2.1)
        (aliasFor_introduced (echo.idle.visibleAlias? contexts.clear _) rfl)
    · rename_i uncached
      cases made
      refine ⟨rfl, ?_⟩
      rw [if_neg, if_neg uncached]
      rintro ⟨assigned | declared, direct⟩
      · exact indirect ⟨assigned, direct⟩
      · exact kept direct rfl declared

theorem read_echo {span : Span} {name : String} {resolution : Resolution}
    (contexts : ctx.Echoes ctx') (echo : Echo names st st')
    (h : st.read ctx span name = .ok (resolution, next))
    (quiet : ctx.inFunction = true → next.frame.introduced = [])
    (kept : ctx.options.directAccess = true → resolution.access = .dynamic → name ∉ names) :
    ∃ next', st'.read ctx' span name = .ok (resolution, next') ∧ Echo names next next' := by
  unfold State.read at h ⊢
  split at h
  · cases h
  · rename_i passes
    rcases made : st.access ctx span name with ⟨access, middle⟩
    simp only [made, Except.ok.injEq, Prod.mk.injEq] at h
    obtain ⟨rfl, rfl⟩ := h
    obtain ⟨rfl, again⟩ := access_echo contexts echo made quiet kept
    rw [if_neg]
    · simp only [again, echo.evaluation]
      exact ⟨_, rfl, ⟨echo.globals, rfl, echo.ledger, echo.assigned, echo.assignedHere, echo.idle,
        echo.idle'⟩⟩
    · rintro ⟨check, unassigned, foreign⟩
      rw [contexts.options] at check
      rw [echo.globals] at foreign
      exact passes ⟨check, fun member => unassigned ((echo.assigned name).2 (.inl member)), foreign⟩

theorem filteredVariable?_echo (contexts : ctx.Echoes ctx') (operand : Node) :
    State.filteredVariable? ctx' operand = State.filteredVariable? ctx operand := by
  unfold State.filteredVariable?
  rw [contexts.assigned]

theorem warn_echo {warning : Warning} (contexts : ctx.Echoes ctx') (echo : Echo names st st')
    (h : st.warn ctx warning = .ok next) :
    ∃ next', st'.warn ctx' warning = .ok next' ∧ Echo names next next' := by
  unfold State.warn at h ⊢
  rw [contexts.options]
  split at h
  · cases h
  · rename_i accepts
    rw [if_neg accepts]
    split at h
    · rename_i reports
      cases h
      rw [if_pos reports]
      exact ⟨_, rfl, ⟨echo.globals, echo.evaluation, echo.ledger, echo.assigned, echo.assignedHere,
        echo.idle, echo.idle'⟩⟩
    · rename_i drops
      cases h
      rw [if_neg drops]
      exact ⟨_, rfl, echo⟩

theorem recordFilter_echo {span : Span} {name : String} (contexts : ctx.Echoes ctx')
    (echo : Echo names st st') (h : st.recordFilter ctx span name = .ok next) :
    ∃ next', st'.recordFilter ctx' span name = .ok next' ∧ Echo names next next' := by
  unfold State.recordFilter at h ⊢
  rw [echo.ledger]
  generalize st.ledger.filter name = recorded at h ⊢
  obtain ⟨ledger, use⟩ := recorded
  have recorded : Echo names { st with ledger } { st' with ledger } :=
    ⟨echo.globals, echo.evaluation, rfl, echo.assigned, echo.assignedHere, echo.idle, echo.idle'⟩
  cases use with
  | stale previous epoch => exact warn_echo contexts recorded h
  | fresh | again =>
    cases h
    exact ⟨_, rfl, recorded⟩

theorem checkFilter_echo {span : Span} {operand : Node} (contexts : ctx.Echoes ctx')
    (echo : Echo names st st') (h : st.checkFilter ctx span operand = .ok next) :
    ∃ next', st'.checkFilter ctx' span operand = .ok next' ∧ Echo names next next' := by
  unfold State.checkFilter at h ⊢
  rw [contexts.options, filteredVariable?_echo contexts]
  split at h
  · exact recordFilter_echo contexts echo h
  · cases h
    exact ⟨_, rfl, echo⟩

theorem aliasedOperand?_echo (contexts : ctx.Echoes ctx') (echo : Echo names st st')
    (operand : Node) : st'.aliasedOperand? ctx' operand = st.aliasedOperand? ctx operand := by
  unfold State.aliasedOperand?
  simp only [echo.idle.isVisibleAlias contexts.clear, echo.idle'.isVisibleAlias contexts.clear']

theorem cacheFilter_echo {span : Span} {operand : Node} {name cached : Option String}
    (contexts : ctx.Echoes ctx') (echo : Echo names st st')
    (h : st.cacheFilter ctx span operand name = (cached, next))
    (quiet : ctx.inFunction = true → next.frame.introduced = []) :
    cached = none ∧ next = st ∧ st'.cacheFilter ctx' span operand name = (none, st') := by
  rcases cacheFilter_cases h with ⟨rfl, rfl⟩ | ⟨_, _, -, -, inside, -, made⟩
  · refine ⟨rfl, rfl, ?_⟩
    unfold State.cacheFilter at h ⊢
    rw [contexts.options, contexts.inFunction, echo.evaluation, aliasedOperand?_echo contexts echo]
    split at h
    · rename_i keeps
      rw [if_pos keeps]
      cases found : next.aliasedOperand? ctx operand with
      | none => rfl
      | some source =>
        rw [found] at h
        cases h
    · rename_i drops
      rw [if_neg drops]
  · exact absurd (quiet inside)
      (aliasFor_introduced (echo.idle.visibleAlias? contexts.clear _) made)

theorem Echo.evaluating (echo : Echo names st st') (mode : Evaluation) :
    Echo names (st.evaluating mode) (st'.evaluating mode) :=
  ⟨echo.globals, rfl, echo.ledger, echo.assigned, echo.assignedHere, echo.idle, echo.idle'⟩

theorem Echo.endStatement (echo : Echo names st st') :
    Echo names st.endStatement st'.endStatement :=
  ⟨echo.globals, echo.evaluation, echo.ledger, echo.assigned, echo.assignedHere,
    ⟨echo.idle.aliases, echo.idle.introduced, rfl⟩, echo.idle'.aliases, echo.idle'.introduced, rfl⟩

theorem Echo.assign (contexts : ctx.Echoes ctx') (echo : Echo names st st') (target : String) :
    Echo names (st.assign ctx target) (st'.assign ctx' target) := by
  refine ⟨echo.globals, echo.evaluation, ?_, fun name => ?_, ?_,
    ⟨echo.idle.aliases, echo.idle.introduced, echo.idle.pending⟩, echo.idle'.aliases,
    echo.idle'.introduced, echo.idle'.pending⟩
  · rw [State.assign, State.assign, contexts.options, echo.ledger]
  · change name ∈ st'.frame.assigned.insert target ↔ name ∈ st.frame.assigned.insert target ∨ _
    rw [Assigned.mem_insert, Assigned.mem_insert, echo.assigned name]
    exact or_right_comm
  · change st'.frame.assignedHere.insert target = st.frame.assignedHere.insert target
    rw [echo.assignedHere]

/-- The second walk joins what the first one joins. -/
theorem Echo.join {first first' second second' : State} (echo : Echo names st st')
    (one : Echo names first first') (two : Echo names second second') :
    Echo names (st.join [first.frame.assigned, second.frame.assigned])
      (st'.join [first'.frame.assigned, second'.frame.assigned]) := by
  refine ⟨echo.globals, echo.evaluation, echo.ledger, fun name => ?_, echo.assignedHere,
    ⟨echo.idle.aliases, echo.idle.introduced, echo.idle.pending⟩, echo.idle'.aliases,
    echo.idle'.introduced, echo.idle'.pending⟩
  change name ∈ st'.frame.assigned.join [first'.frame.assigned, second'.frame.assigned] ↔
    name ∈ st.frame.assigned.join [first.frame.assigned, second.frame.assigned] ∨ _
  simp only [Assigned.mem_join, echo.assigned, one.assigned, two.assigned, List.forall_mem_cons]
  grind

/-- A block that is entered with nothing new, and scopes without aliases. -/
theorem Echo.enterBranch {scope scope' : Scope} (echo : Echo names st st')
    (unlisted : scope.Unlisted) (unlisted' : scope'.Unlisted) :
    Echo names (st.enterBranch scope) (st'.enterBranch scope') :=
  ⟨echo.globals, echo.evaluation, echo.ledger, echo.assigned, rfl, ⟨unlisted, rfl, rfl⟩,
    unlisted', rfl, rfl⟩

theorem Echo.leaveBranch {inner inner' : State} (echo : Echo names st st')
    (inside : Echo names inner inner') :
    Echo names (st.leaveBranch inner) (st'.leaveBranch inner') :=
  ⟨inside.globals, inside.evaluation, inside.ledger, echo.assigned, echo.assignedHere, echo.idle,
    echo.idle'⟩

/-- What the scope declares by now is assigned from the start. -/
theorem Echo.enterFunction {scope scope' : Scope} (echo : Echo names st st')
    (body walked : List Node) (unlisted : scope.Unlisted) (unlisted' : scope'.Unlisted)
    (sub : ∀ name, name ∈ scope.locals → name ∈ scope'.locals) :
    Echo scope'.locals (st.enterFunction ⟨body, scope⟩) (st'.enterFunction ⟨walked, scope'⟩) := by
  refine ⟨echo.globals, echo.evaluation, rfl, fun name => ?_, rfl, ⟨unlisted, rfl, rfl⟩,
    unlisted', rfl, rfl⟩
  change name ∈ Assigned.ofList scope'.locals.toList ↔
    name ∈ Assigned.ofList scope.locals.toList ∨ name ∈ scope'.locals
  rw [Assigned.mem_ofList, Assigned.mem_ofList]
  exact ⟨.inr, fun declared => declared.elim (sub name) id⟩

theorem Echo.leaveFunction {locals : OrderedSet String} {inner inner' : State}
    (echo : Echo names st st') (inside : Echo locals inner inner') :
    Echo names (st.leaveFunction inner) (st'.leaveFunction inner') :=
  ⟨inside.globals, echo.evaluation, echo.ledger, echo.assigned, echo.assignedHere, echo.idle,
    echo.idle'⟩

theorem Context.Echoes.enterBranch {aliases aliases' : AliasMap} (contexts : ctx.Echoes ctx')
    (clear : ∀ c, aliases.get? c = none) (clear' : ∀ c, aliases'.get? c = none) :
    (ctx.enterBranch aliases).Echoes (ctx'.enterBranch aliases') :=
  ⟨contexts.options, contexts.inFunction, contexts.assigned,
    List.forall_mem_cons.2 ⟨clear, contexts.clear⟩,
    List.forall_mem_cons.2 ⟨clear', contexts.clear'⟩⟩

theorem Context.Echoes.enterFunction {body walked : List Node} (contexts : ctx.Echoes ctx')
    (scope scope' : Scope) (same : Node.assignmentsOf walked = Node.assignmentsOf body) :
    (ctx.enterFunction ⟨body, scope⟩).Echoes (ctx'.enterFunction ⟨walked, scope'⟩) :=
  ⟨contexts.options, rfl, same, fun _ member => (by cases member),
    fun _ member => (by cases member)⟩

end Steps

section Scopes

variable {frame : Frame} {scope : Scope}

theorem foldl_insertIfNew_unlisted {entries : List (Computation × String)} {aliases : AliasMap}
    (h : ∀ c,
      (entries.foldl (fun m entry => m.insertIfNew entry.1 entry.2) aliases).get? c = none) :
    entries = [] ∧ ∀ c, aliases.get? c = none := by
  induction entries generalizing aliases with
  | nil => exact ⟨rfl, h⟩
  | cons entry rest ih =>
    have listed := (ih h).2 entry.1
    rw [OrderedMap.get?_insertIfNew, if_pos rfl] at listed
    cases listed

/-- A block whose scope lists no alias in the end had none before, and introduced none. -/
theorem Frame.commit_unlisted (h : (frame.commit scope).Unlisted) :
    frame.introduced = [] ∧ scope.Unlisted := by
  unfold Scope.Unlisted Scope.aliasFor? at h ⊢
  rw [Frame.commit, foldl_register] at h
  exact foldl_insertIfNew_unlisted h

theorem Frame.mem_commit {name : String} (declared : name ∈ scope.locals) :
    name ∈ (frame.commit scope).locals := by
  rw [Frame.commit, foldl_register, OrderedSet.mem_extend, OrderedSet.mem_extend]
  exact .inl (.inl declared)

/-- The scope of a walked block declares what another walk assigns. -/
theorem Echo.commit_commit {names : OrderedSet String} {st st' : State} (echo : Echo names st st')
    (scope : Scope) : st'.frame.commit (st.frame.commit scope) = st.frame.commit scope := by
  rw [Frame.commit, echo.idle'.introduced, echo.assignedHere, Frame.commit, echo.idle.introduced]
  simp only [List.foldl_nil]
  rw [OrderedSet.extend_of_subset]
  exact fun name member => OrderedSet.mem_extend.2 (.inr member)

end Scopes

/-- Where aliases can be introduced, none was. -/
def Silent (ctx : Context) (st : State) : Prop :=
  ctx.inFunction = true → st.frame.introduced = []

theorem Silent.of_grows {ctx : Context} {st next : State} (silent : Silent ctx next)
    (grows : Grows ctx st next) : Silent ctx st := by
  intro inside
  rw [← List.subset_nil, ← silent inside]
  exact grows.introduced

mutual

/-- A second walk goes over what the first one made of an expression, and changes nothing. -/
theorem walk_operand_echo {names : OrderedSet String} {ctx ctx' : Context} (e : Node)
    (plain : e.isExpression) (contexts : ctx.Echoes ctx') {st st' next : State} {e' : Node}
    (echo : Echo names st st') (h : walk ctx e st = .ok (e', next)) (silent : Silent ctx next)
    (reads : ctx.options.directAccess = true → ∀ o ∈ e'.placeholders, o.IsDynamic →
      o.name ∉ names) :
    ∃ next', walk ctx' e' st' = .ok (e', next') ∧ Echo names next next' := by
  cases e with
  | identifier span name => cases h; exact ⟨_, rfl, echo⟩
  | literal span value => cases h; exact ⟨_, rfl, echo⟩
  | placeholder span name resolution =>
    obtain ⟨resolution, read, rfl⟩ := walk_placeholder_iff.1 h
    obtain ⟨last', again, after⟩ := read_echo contexts echo read silent fun direct dynamic =>
      reads direct ⟨name, span, some resolution⟩ List.mem_cons_self
        ⟨resolution.cacheEligible, by rw [← dynamic]⟩
    exact ⟨last', walk_placeholder_iff.2 ⟨_, again, rfl⟩, after⟩
  | binary span op left right =>
    rw [Node.isExpression, Bool.and_eq_true] at plain
    obtain ⟨left', middle, right', last, first, second, rfl, rfl⟩ := walk_binary_iff.1 h
    simp only [Node.placeholders, List.forall_mem_append] at reads
    have after : Silent ctx last := silent
    have turned := after.of_grows (walk_operand_noted right
      (Node.isOperand_of_isExpression right plain.2) second).1.grows
    obtain ⟨middle', first', one⟩ := walk_operand_echo left plain.1 contexts echo first turned
      fun direct => (reads direct).1
    obtain ⟨last', second', two⟩ := walk_operand_echo right plain.2 contexts
      (one.evaluating (st.evaluation.rightOperand op)) second silent fun direct => (reads direct).2
    rw [← echo.evaluation] at second'
    refine ⟨last'.evaluating st'.evaluation,
      walk_binary_iff.2 ⟨_, _, _, _, first', second', rfl, rfl⟩, ?_⟩
    rw [echo.evaluation]
    exact two.evaluating st.evaluation
  | filter span operand name cachedAs =>
    rw [Node.isExpression, Bool.and_eq_true, decide_eq_true_eq] at plain
    obtain ⟨inside, rfl⟩ := plain
    obtain ⟨operand', middle, checked, cached, inner, check, cache, rfl⟩ := walk_filter_iff.1 h
    have grows := (cacheFilter_noted cache).grows
    have same : Grows ctx middle checked := .of_frame (checkFilter_alike check).frame
    obtain ⟨middle', inner', one⟩ := walk_operand_echo operand inside contexts echo inner
      (silent.of_grows (same.trans grows)) reads
    obtain ⟨checked', check', two⟩ := checkFilter_echo contexts one check
    obtain ⟨rfl, rfl, cache'⟩ := cacheFilter_echo contexts two cache silent
    exact ⟨checked', walk_filter_iff.2 ⟨_, _, _, _, inner', check', cache', rfl⟩, two⟩
  | call span callee arguments =>
    rw [Node.isExpression, Bool.and_eq_true] at plain
    obtain ⟨callee', middle, arguments', first, second, rfl⟩ := walk_call_iff.1 h
    simp only [Node.placeholders, List.forall_mem_append] at reads
    have grows := (walkEach_noted arguments
      (Node.areOperands_of_areExpressions arguments plain.2) second).1.grows
    obtain ⟨middle', first', one⟩ := walk_operand_echo callee plain.1 contexts echo first
      (silent.of_grows grows) fun direct => (reads direct).1
    obtain ⟨last', second', two⟩ := walkEach_echo arguments plain.2 contexts one second silent
      fun direct => (reads direct).2
    exact ⟨last', walk_call_iff.2 ⟨_, _, _, first', second', rfl⟩, two⟩
  | list span items =>
    obtain ⟨items', inner, rfl⟩ := walk_list_iff.1 h
    obtain ⟨last', inner', one⟩ := walkEach_echo items plain contexts echo inner silent reads
    exact ⟨last', walk_list_iff.2 ⟨_, inner', rfl⟩, one⟩
  | template | function | conditional | assign | write => simp [Node.isExpression] at plain
termination_by structural e

theorem walkEach_echo {names : OrderedSet String} {ctx ctx' : Context} (es : List Node)
    (plain : Node.areExpressions es) (contexts : ctx.Echoes ctx') {st st' last : State}
    {es' : List Node} (echo : Echo names st st') (h : walkEach ctx es st = .ok (es', last))
    (silent : Silent ctx last)
    (reads : ctx.options.directAccess = true → ∀ o ∈ Node.placeholdersOf es', o.IsDynamic →
      o.name ∉ names) :
    ∃ last', walkEach ctx' es' st' = .ok (es', last') ∧ Echo names last last' := by
  cases es with
  | nil => cases h; exact ⟨_, rfl, echo⟩
  | cons e rest =>
    rw [Node.areExpressions, Bool.and_eq_true] at plain
    obtain ⟨e', next, rest', first, later, rfl⟩ := walkEach_cons_iff.1 h
    simp only [Node.placeholdersOf, List.forall_mem_append] at reads
    have grows := (walkEach_noted rest
      (Node.areOperands_of_areExpressions rest plain.2) later).1.grows
    obtain ⟨next', first', one⟩ := walk_operand_echo e plain.1 contexts echo first
      (silent.of_grows grows) fun direct => (reads direct).1
    obtain ⟨last', later', two⟩ := walkEach_echo rest plain.2 contexts one later silent
      fun direct => (reads direct).2
    exact ⟨last', walkEach_cons_iff.2 ⟨_, _, _, first', later', rfl⟩, two⟩
termination_by structural es

end

/-- A function without aliases assigns what its source assigns. -/
theorem assignments_of_unlisted {ctx : Context} {st inner : State} {body walked : List Node}
    {scope : Scope} (plain : scope.isPlain) (source : Node.areStatements body)
    (h : Statements (ctx.enterFunction ⟨body, scope⟩) (st.enterFunction ⟨body, scope⟩) body walked
      inner)
    (unlisted : ∀ block ∈ Block.blocks ⟨walked, inner.frame.commit scope⟩, block.scope.Unlisted) :
    Node.assignmentsOf walked = Node.assignmentsOf body := by
  have expanded := (enterFunction_optimizes plain source h).expanded
  have tidy := (enterFunction_registers plain source h).tidy
  rw [← expanded.assignments_filter, List.filter_eq_self.2]
  intro name assigned
  obtain ⟨block, member, target⟩ := Block.mem_targets.1
    (expanded.mem_targets.2 assigned :
      name ∈ Node.targets (Node.statementsOf (Block.mk walked (inner.frame.commit scope)).body))
  by_contra held
  have listed : name ∈ block.scope.aliases.values := by
    rw [(tidy block member).values]
    exact List.mem_filter.2 ⟨target, by simpa [Option.isSome_iff_ne_none] using held⟩
  obtain ⟨c, found⟩ := OrderedMap.mem_values_iff.1 listed
  rw [show block.scope.aliases.get? c = none from unlisted block member c] at found
  cases found

theorem walkBlock_grows {ctx : Context} (body : List Node) (plain : Node.areStatements body)
    {st last : State} {out : List Node} (h : walkBlock ctx body st = .ok (out, last)) :
    Grows ctx st last := by
  induction body generalizing st out with
  | nil => cases h; exact .of_frame rfl
  | cons n rest ih =>
    rw [Node.areStatements, Bool.and_eq_true] at plain
    obtain ⟨n', next, rest', first, later, rfl⟩ := walkBlock_cons_iff.1 h
    have begun : Grows ctx st st.beginStatement := .of_frame rfl
    have walked := (walk_rewalked n (Node.isPlaced_of_isStatement n plain.1) first).1.grows
    exact begun.trans (walked.trans ((Grows.endStatement next).trans (ih plain.2 later)))

mutual

/-- A second walk goes over what the first one made of a statement, and changes nothing. -/
theorem walk_echo {names : OrderedSet String} {ctx ctx' : Context} (n : Node)
    (plain : n.isStatement) (contexts : ctx.Echoes ctx') {st st' next : State} {n' : Node}
    (echo : Echo names st st') (h : walk ctx n st = .ok (n', next)) (silent : Silent ctx next)
    (settled : Settles ctx.options names [n']) :
    ∃ next', walk ctx' n' st' = .ok (n', next') ∧ Echo names next next' := by
  cases n with
  | function span name block =>
    obtain ⟨body, scope⟩ := block
    rw [Node.isStatement, Bool.and_eq_true] at plain
    obtain ⟨walked, inner, inside, rfl, rfl⟩ := walk_function_iff.1 h
    -- the scope lists no alias in the end, so the walk of the body has introduced none
    obtain ⟨unlisted, within⟩ := settled.function
    obtain ⟨introduced, before⟩ := Frame.commit_unlisted (unlisted _ List.mem_cons_self)
    have same := assignments_of_unlisted plain.1 plain.2
      (walkBlock_statements body plain.2 inside) unlisted
    have entered := echo.enterFunction body walked before (unlisted _ List.mem_cons_self)
      fun _ => Frame.mem_commit
    obtain ⟨inner', inside', after⟩ := walkBlock_echo body plain.2
      (contexts.enterFunction scope _ same) entered inside (fun _ => introduced) within
    refine ⟨st'.leaveFunction inner', walk_function_iff.2 ⟨_, _, inside', ?_, rfl⟩,
      echo.leaveFunction after⟩
    rw [after.commit_commit]
  | conditional span condition thenBranch elseBranch =>
    obtain ⟨thenBody, thenScope⟩ := thenBranch
    cases elseBranch with
    | none =>
      simp only [Node.isStatement, Bool.and_eq_true] at plain
      obtain ⟨condition', tested, thenBody', inThen, test, thenSide, rfl, rfl⟩ :=
        walk_branch_iff.1 h
      obtain ⟨unlisted, within⟩ := settled.oneBranch
      obtain ⟨introduced, before⟩ := Frame.commit_unlisted unlisted
      obtain ⟨tested', test', one⟩ := walk_operand_echo condition plain.1.1 contexts echo test
        silent fun direct o member => settled.own direct o (List.mem_append_left _ member)
      obtain ⟨inThen', thenSide', two⟩ := walkBlock_echo thenBody plain.2
        (contexts.enterBranch one.idle.aliases one.idle'.aliases) (one.enterBranch before unlisted)
        thenSide (fun _ => introduced) within
      refine ⟨_, walk_branch_iff.2 ⟨_, _, _, _, test', thenSide', ?_, rfl⟩,
        (one.leaveBranch two).join two one⟩
      rw [two.commit_commit]
    | some block =>
      obtain ⟨elseBody, elseScope⟩ := block
      simp only [Node.isStatement, Bool.and_eq_true] at plain
      obtain ⟨condition', tested, thenBody', inThen, elseBody', inElse, test, thenSide, elseSide,
        rfl, rfl⟩ := walk_branches_iff.1 h
      obtain ⟨⟨unlistedThen, withinThen⟩, unlistedElse, withinElse⟩ := settled.twoBranches
      obtain ⟨introducedThen, beforeThen⟩ := Frame.commit_unlisted unlistedThen
      obtain ⟨introducedElse, beforeElse⟩ := Frame.commit_unlisted unlistedElse
      obtain ⟨tested', test', one⟩ := walk_operand_echo condition plain.1.1.1.1 contexts echo test
        silent fun direct o member => settled.own direct o (List.mem_append_left _ member)
      have inside := contexts.enterBranch one.idle.aliases one.idle'.aliases
      obtain ⟨inThen', thenSide', two⟩ := walkBlock_echo thenBody plain.1.1.2 inside
        (one.enterBranch beforeThen unlistedThen) thenSide (fun _ => introducedThen) withinThen
      obtain ⟨inElse', elseSide', three⟩ := walkBlock_echo elseBody plain.2 inside
        ((one.leaveBranch two).enterBranch beforeElse unlistedElse) elseSide
        (fun _ => introducedElse) withinElse
      refine ⟨_, walk_branches_iff.2 ⟨_, _, _, _, _, _, test', thenSide', elseSide', ?_, rfl⟩,
        ((one.leaveBranch two).leaveBranch three).join two three⟩
      rw [two.commit_commit, three.commit_commit]
  | assign span target value =>
    obtain ⟨value', next', inner, rfl, rfl⟩ := walk_assign_iff.1 h
    obtain ⟨next', inner', one⟩ := walk_operand_echo value plain contexts echo inner silent
      settled.own
    exact ⟨_, walk_assign_iff.2 ⟨_, _, inner', rfl, rfl⟩, one.assign contexts target⟩
  | write span operand =>
    obtain ⟨operand', inner, rfl⟩ := walk_write_iff.1 h
    obtain ⟨next', inner', one⟩ := walk_operand_echo operand plain contexts echo inner silent
      settled.own
    exact ⟨_, walk_write_iff.2 ⟨_, inner', rfl⟩, one⟩
  | template => simp [Node.isStatement] at plain
  | identifier | placeholder | literal | binary | filter | call | list =>
    exact walk_operand_echo _ plain contexts echo h silent settled.own
termination_by structural n

theorem walkBlock_echo {names : OrderedSet String} {ctx ctx' : Context} (body : List Node)
    (plain : Node.areStatements body) (contexts : ctx.Echoes ctx') {st st' last : State}
    {out : List Node} (echo : Echo names st st') (h : walkBlock ctx body st = .ok (out, last))
    (silent : Silent ctx last) (settled : Settles ctx.options names out) :
    ∃ last', walkBlock ctx' out st' = .ok (out, last') ∧ Echo names last last' := by
  cases body with
  | nil => cases h; exact ⟨_, rfl, echo⟩
  | cons n rest =>
    rw [Node.areStatements, Bool.and_eq_true] at plain
    obtain ⟨n', next, rest', first, later, rfl⟩ := walkBlock_cons_iff.1 h
    obtain ⟨-, both⟩ := settled.of_append
    rw [← List.singleton_append] at both
    obtain ⟨here, behind⟩ := both.of_append
    have reached := silent.of_grows (walkBlock_grows rest plain.2 later)
    obtain ⟨next', first', one⟩ := walk_echo n plain.1 contexts (echo.evaluating _) first reached
      here
    obtain ⟨last', later', two⟩ := walkBlock_echo rest plain.2 contexts one.endStatement later
      silent behind
    refine ⟨last', ?_, two⟩
    rw [one.idle.pending]
    exact walkBlock_cons_iff.2 ⟨_, _, _, first', later', by rw [one.idle'.pending]⟩
termination_by structural body

end

theorem walkTemplate_echo {names : OrderedSet String} {ctx ctx' : Context}
    (outside : ctx.inFunction = false) (contexts : ctx.Echoes ctx') (body : List Node)
    (plain : Node.areStatements body) {st st' last : State} {out : List Node}
    (echo : Echo names st st') (h : walkTemplate ctx body st = .ok (out, last))
    (settled : Settles ctx.options names out) :
    ∃ last', walkTemplate ctx' out st' = .ok (out, last') := by
  induction body generalizing st st' out with
  | nil => cases h; exact ⟨_, rfl⟩
  | cons n rest ih =>
    rw [Node.areStatements, Bool.and_eq_true] at plain
    obtain ⟨n', next, rest', first, later, rfl⟩ := walkTemplate_cons_iff.1 h
    rw [← List.singleton_append] at settled
    obtain ⟨here, behind⟩ := settled.of_append
    have silent : Silent ctx next := by
      intro inside
      rw [outside] at inside
      cases inside
    obtain ⟨next', first', one⟩ := walk_echo n plain.1 contexts (echo.evaluating _) first silent
      here
    obtain ⟨last', later'⟩ := ih plain.2 one later behind
    exact ⟨last', walkTemplate_cons_iff.2 ⟨_, _, _, first', later', rfl⟩⟩

/-- Another analysis of a settled tree changes nothing. -/
theorem analyze_echo {options : Options} {root : Node} {analysis : Analysis}
    (source : root.isSource) (h : root.analyze options = .ok analysis)
    (branches : ∀ block ∈ analysis.tree.branches, block.scope.Unlisted)
    (functions : ∀ g ∈ analysis.tree.functions, g.Settled options) :
    ∃ again, analysis.tree.analyze options = .ok again ∧ again.tree = analysis.tree := by
  have nowhere {name : String} : name ∉ (∅ : OrderedSet String) := fun member => (by cases member)
  have top : (Context.top options).Echoes (.top options) :=
    ⟨rfl, rfl, rfl, fun _ member => (by cases member), fun _ member => (by cases member)⟩
  have start (globals : OrderedSet String) :
      Echo ∅ { State.start with globals } { State.start with globals } :=
    ⟨rfl, rfl, rfl, fun name => ⟨.inl, fun assigned => assigned.resolve_right nowhere⟩, rfl,
      ⟨fun _ => rfl, rfl, rfl⟩, fun _ => rfl, rfl, rfl⟩
  unfold Node.analyze at h
  rw [bind_eq_ok] at h
  obtain ⟨⟨tree, last⟩, walked, h⟩ := h
  cases h
  have alone (n : Node) (plain : n.isStatement)
      (walked : walk (.top options) n .start = .ok (tree, last)) :
      ∃ last', walk (.top options) tree .start = .ok (tree, last') := by
    have settled : Settles options ∅ [tree] := by
      refine ⟨fun _ _ _ _ => nowhere, ?_, Node.functions_eq_functionsOf tree ▸ functions⟩
      rw [Node.branchesOf, Node.branchesOf, List.append_nil]
      exact branches
    obtain ⟨last', again, -⟩ := walk_echo n plain top (start ∅) walked
      (fun inside => by cases inside) settled
    exact ⟨last', again⟩
  suffices ∃ last', walk (.top options) tree .start = .ok (tree, last') by
    obtain ⟨last', again⟩ := this
    exact ⟨⟨tree, last'.warnings, last'.reads⟩, bind_eq_ok.2 ⟨_, again, rfl⟩, rfl⟩
  cases root with
  | template span name globals body =>
    obtain ⟨body', inside, rfl⟩ := walk_template_iff.1 walked
    have settled : Settles options ∅ body' := ⟨fun _ _ _ _ => nowhere, branches, functions⟩
    obtain ⟨last', again⟩ := walkTemplate_echo rfl top body source (start globals) inside settled
    exact ⟨last', walk_template_iff.2 ⟨_, again, rfl⟩⟩
  | function | conditional | assign | identifier | placeholder | literal | binary | filter | call
  | list | write =>
    simp only [Node.isSource, Node.top, Node.areStatements, Bool.and_true] at source
    exact alone _ source walked

end Analysis

end Stencil
