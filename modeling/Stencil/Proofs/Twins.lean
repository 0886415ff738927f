import Stencil.Proofs.Naming

/-!
# Walks that differ in their reports

What the analysis makes of a tree does not depend on the report of what was walked before. A
function starts with a knowledge of its own, and leaves behind nothing but what it adds to the
report, so it is made into the same function at every place of a tree.

* `walk_twin`: walks from states that differ in their reports at most do the same.
* `walk_alone`: a function is walked at its place as it is where nothing else is.
* `walk_function_twin`: all functions leave the same behind them.
-/

namespace Stencil

namespace Analysis

/-- Two states that differ in their reports at most. -/
structure State.Twin (st st' : State) : Prop where
  globals : st'.globals = st.globals
  evaluation : st'.evaluation = st.evaluation
  frame : st'.frame = st.frame
  holders : st'.holders = st.holders
  ledger : st'.ledger = st.ledger

section Twins

variable {ctx : Context} {st st' next inner inner' : State}

theorem State.Twin.refl (st : State) : st.Twin st := ⟨rfl, rfl, rfl, rfl, rfl⟩

theorem State.Twin.evaluating (twin : st.Twin st') (mode : Evaluation) :
    (st.evaluating mode).Twin (st'.evaluating mode) :=
  ⟨twin.globals, rfl, twin.frame, twin.holders, twin.ledger⟩

theorem State.Twin.endStatement (twin : st.Twin st') : st.endStatement.Twin st'.endStatement := by
  refine ⟨twin.globals, twin.evaluation, ?_, twin.holders, twin.ledger⟩
  rw [State.endStatement, State.endStatement, twin.frame]

theorem State.Twin.assign (twin : st.Twin st') (target : String) :
    (st.assign ctx target).Twin (st'.assign ctx target) := by
  refine ⟨twin.globals, twin.evaluation, ?_, twin.holders, ?_⟩
  · rw [State.assign, State.assign, twin.frame]
  · rw [State.assign, State.assign, twin.ledger]

theorem State.Twin.join (twin : st.Twin st') (outcomes : List (Assigned String)) :
    (st.join outcomes).Twin (st'.join outcomes) := by
  refine ⟨twin.globals, twin.evaluation, ?_, twin.holders, twin.ledger⟩
  rw [State.join, State.join, twin.frame]

theorem State.Twin.enterBranch (twin : st.Twin st') (scope : Scope) :
    (st.enterBranch scope).Twin (st'.enterBranch scope) := by
  refine ⟨twin.globals, twin.evaluation, ?_, twin.holders, twin.ledger⟩
  rw [State.enterBranch, State.enterBranch, twin.frame]

theorem State.Twin.leaveBranch (twin : st.Twin st') (inside : inner.Twin inner') :
    (st.leaveBranch inner).Twin (st'.leaveBranch inner') :=
  ⟨inside.globals, inside.evaluation, twin.frame, inside.holders, inside.ledger⟩

theorem State.Twin.enterFunction (twin : st.Twin st') (body : Block Node) :
    (st.enterFunction body).Twin (st'.enterFunction body) :=
  ⟨twin.globals, twin.evaluation, rfl, rfl, rfl⟩

/-- A function leaves behind nothing but its report and what it knows to be given from outside. -/
theorem State.Twin.leaveFunction (twin : st.Twin st') (given : inner'.globals = inner.globals) :
    (st.leaveFunction inner).Twin (st'.leaveFunction inner') :=
  ⟨given, twin.evaluation, twin.frame, twin.holders, twin.ledger⟩

theorem visibleAlias?_twin (twin : st.Twin st') (c : Computation) :
    st'.visibleAlias? ctx c = st.visibleAlias? ctx c := by
  rw [State.visibleAlias?, State.visibleAlias?, twin.frame]

theorem freshAlias_twin (twin : st.Twin st') (c : Computation) :
    st'.freshAlias ctx c = st.freshAlias ctx c := by
  have taken : st'.isTaken ctx c = st.isTaken ctx c := by
    funext name
    simp only [State.isTaken, State.isUserName, twin.holders, twin.globals]
  have bound : st'.takenBound ctx = st.takenBound ctx := by
    rw [State.takenBound, State.takenBound, twin.holders, twin.globals]
  rw [State.freshAlias, State.freshAlias, taken, bound]

theorem aliasFor_twin {c : Computation} {value : Node} {name : String} (twin : st.Twin st')
    (h : st.aliasFor ctx c value = (name, next)) :
    ∃ next', st'.aliasFor ctx c value = (name, next') ∧ next.Twin next' := by
  unfold State.aliasFor at h ⊢
  rw [visibleAlias?_twin twin]
  split at h
  · cases h
    exact ⟨st', rfl, twin⟩
  · cases h
    rw [freshAlias_twin twin, twin.holders, twin.frame]
    exact ⟨_, rfl, twin.globals, twin.evaluation, rfl, rfl, twin.ledger⟩

theorem access_twin {span : Span} {name : String} {access : Access} (twin : st.Twin st')
    (h : st.access ctx span name = (access, next)) :
    ∃ next', st'.access ctx span name = (access, next') ∧ next.Twin next' := by
  unfold State.access at h ⊢
  rw [twin.frame, twin.evaluation]
  split at h
  · rename_i direct
    cases h
    rw [if_pos direct]
    exact ⟨st', rfl, twin⟩
  · rename_i indirect
    rw [if_neg indirect]
    split at h
    · rename_i aliased
      cases h
      rw [if_pos aliased]
      obtain ⟨next', made, alike⟩ := aliasFor_twin twin rfl
      rw [made]
      exact ⟨next', rfl, alike⟩
    · rename_i unaliased
      cases h
      rw [if_neg unaliased]
      exact ⟨st', rfl, twin⟩

theorem read_twin {span : Span} {name : String} {resolution : Resolution} (twin : st.Twin st')
    (h : st.read ctx span name = .ok (resolution, next)) :
    ∃ next', st'.read ctx span name = .ok (resolution, next') ∧ next.Twin next' := by
  unfold State.read at h ⊢
  rw [twin.frame, twin.globals, twin.evaluation]
  split at h
  · cases h
  · rename_i passes
    cases h
    obtain ⟨after, accessed, alike⟩ := access_twin twin rfl
    rw [if_neg passes, accessed]
    exact ⟨_, rfl, alike.globals, alike.evaluation, alike.frame, alike.holders, alike.ledger⟩

theorem warn_twin {warning : Warning} (twin : st.Twin st') (h : st.warn ctx warning = .ok next) :
    ∃ next', st'.warn ctx warning = .ok next' ∧ next.Twin next' := by
  unfold State.warn at h ⊢
  split at h
  · cases h
  · rename_i accepts
    rw [if_neg accepts]
    split at h
    · rename_i reports
      cases h
      rw [if_pos reports]
      exact ⟨_, rfl, twin.globals, twin.evaluation, twin.frame, twin.holders, twin.ledger⟩
    · rename_i drops
      cases h
      rw [if_neg drops]
      exact ⟨st', rfl, twin⟩

theorem recordFilter_twin {span : Span} {name : String} (twin : st.Twin st')
    (h : st.recordFilter ctx span name = .ok next) :
    ∃ next', st'.recordFilter ctx span name = .ok next' ∧ next.Twin next' := by
  unfold State.recordFilter at h ⊢
  rw [twin.ledger]
  generalize st.ledger.filter name = recorded at h ⊢
  obtain ⟨ledger, use⟩ := recorded
  have recorded : State.Twin { st with ledger } { st' with ledger } :=
    ⟨twin.globals, twin.evaluation, twin.frame, twin.holders, rfl⟩
  cases use with
  | stale previous epoch => exact warn_twin recorded h
  | fresh | again =>
    cases h
    exact ⟨_, rfl, recorded⟩

theorem checkFilter_twin {span : Span} {operand : Node} (twin : st.Twin st')
    (h : st.checkFilter ctx span operand = .ok next) :
    ∃ next', st'.checkFilter ctx span operand = .ok next' ∧ next.Twin next' := by
  unfold State.checkFilter at h ⊢
  split at h
  · exact recordFilter_twin twin h
  · cases h
    exact ⟨st', rfl, twin⟩

theorem cacheFilter_twin {span : Span} {operand : Node} {name cached : Option String}
    (twin : st.Twin st') (h : st.cacheFilter ctx span operand name = (cached, next)) :
    ∃ next', st'.cacheFilter ctx span operand name = (cached, next') ∧ next.Twin next' := by
  have visible : st'.isVisibleAlias ctx = st.isVisibleAlias ctx := by
    funext name
    rw [State.isVisibleAlias, State.isVisibleAlias, twin.frame]
  have same : st'.aliasedOperand? ctx operand = st.aliasedOperand? ctx operand := by
    unfold State.aliasedOperand?
    rw [visible]
  unfold State.cacheFilter at h ⊢
  rw [twin.evaluation, same]
  split at h
  · rename_i kept
    rw [if_pos kept]
    cases found : st.aliasedOperand? ctx operand with
    | none =>
      rw [found] at h
      cases h
      exact ⟨st', rfl, twin⟩
    | some source =>
      rw [found] at h
      cases h
      obtain ⟨next', made, alike⟩ := aliasFor_twin twin rfl
      dsimp only
      rw [made]
      exact ⟨next', rfl, alike⟩
  · rename_i left
    cases h
    rw [if_neg left]
    exact ⟨st', rfl, twin⟩

end Twins

mutual

/-- The walk of a node does not look at the report. -/
theorem walk_twin {ctx : Context} (n : Node) {st st' next : State} {n' : Node} (twin : st.Twin st')
    (h : walk ctx n st = .ok (n', next)) :
    ∃ next', walk ctx n st' = .ok (n', next') ∧ next.Twin next' := by
  cases n with
  | template span name globals body =>
    obtain ⟨body', inside, rfl⟩ := walk_template_iff.1 h
    have given : State.Twin { st with globals } { st' with globals } :=
      ⟨rfl, twin.evaluation, twin.frame, twin.holders, twin.ledger⟩
    obtain ⟨next', inside', alike⟩ := walkTemplate_twin body given inside
    exact ⟨next', walk_template_iff.2 ⟨_, inside', rfl⟩, alike⟩
  | function span name block =>
    obtain ⟨body, scope⟩ := block
    obtain ⟨walked, inner, inside, rfl, rfl⟩ := walk_function_iff.1 h
    obtain ⟨inner', inside', alike⟩ := walkBlock_twin body (twin.enterFunction _) inside
    rw [← alike.frame]
    exact ⟨_, walk_function_iff.2 ⟨_, _, inside', rfl, rfl⟩, twin.leaveFunction alike.globals⟩
  | conditional span condition thenBranch elseBranch =>
    obtain ⟨thenBody, thenScope⟩ := thenBranch
    cases elseBranch with
    | none =>
      obtain ⟨condition', tested, thenBody', inThen, test, thenSide, rfl, rfl⟩ :=
        walk_branch_iff.1 h
      obtain ⟨tested', test', one⟩ := walk_twin condition twin test
      rw [← one.frame] at thenSide
      obtain ⟨inThen', thenSide', two⟩ := walkBlock_twin thenBody (one.enterBranch _) thenSide
      refine ⟨_, walk_branch_iff.2 ⟨_, _, _, _, test', thenSide', ?_, rfl⟩, ?_⟩
      · rw [two.frame]
      · rw [two.frame, one.frame]
        exact (one.leaveBranch two).join _
    | some block =>
      obtain ⟨elseBody, elseScope⟩ := block
      obtain ⟨condition', tested, thenBody', inThen, elseBody', inElse, test, thenSide, elseSide,
        rfl, rfl⟩ := walk_branches_iff.1 h
      obtain ⟨tested', test', one⟩ := walk_twin condition twin test
      rw [← one.frame] at thenSide elseSide
      obtain ⟨inThen', thenSide', two⟩ := walkBlock_twin thenBody (one.enterBranch _) thenSide
      obtain ⟨inElse', elseSide', three⟩ :=
        walkBlock_twin elseBody ((one.leaveBranch two).enterBranch _) elseSide
      refine ⟨_, walk_branches_iff.2 ⟨_, _, _, _, _, _, test', thenSide', elseSide', ?_, rfl⟩, ?_⟩
      · rw [two.frame, three.frame]
      · rw [two.frame, three.frame]
        exact ((one.leaveBranch two).leaveBranch three).join _
  | assign span target value =>
    obtain ⟨value', last, inner, rfl, rfl⟩ := walk_assign_iff.1 h
    obtain ⟨last', inner', alike⟩ := walk_twin value twin inner
    exact ⟨_, walk_assign_iff.2 ⟨_, _, inner', rfl, rfl⟩, alike.assign target⟩
  | identifier span name =>
    cases h
    exact ⟨st', rfl, twin⟩
  | placeholder span name resolution =>
    obtain ⟨noted, read, rfl⟩ := walk_placeholder_iff.1 h
    obtain ⟨next', read', alike⟩ := read_twin twin read
    exact ⟨next', walk_placeholder_iff.2 ⟨_, read', rfl⟩, alike⟩
  | literal span value =>
    cases h
    exact ⟨st', rfl, twin⟩
  | binary span op left right =>
    obtain ⟨left', middle, right', last, first, second, rfl, rfl⟩ := walk_binary_iff.1 h
    obtain ⟨middle', first', one⟩ := walk_twin left twin first
    rw [← twin.evaluation] at second ⊢
    obtain ⟨last', second', two⟩ := walk_twin right (one.evaluating _) second
    exact ⟨_, walk_binary_iff.2 ⟨_, _, _, _, first', second', rfl, rfl⟩, two.evaluating _⟩
  | filter span operand name cachedAs =>
    obtain ⟨operand', middle, checked, cached, inner, check, cache, rfl⟩ := walk_filter_iff.1 h
    obtain ⟨middle', inner', one⟩ := walk_twin operand twin inner
    obtain ⟨checked', check', two⟩ := checkFilter_twin one check
    obtain ⟨next', cache', three⟩ := cacheFilter_twin two cache
    exact ⟨next', walk_filter_iff.2 ⟨_, _, _, _, inner', check', cache', rfl⟩, three⟩
  | call span callee arguments =>
    obtain ⟨callee', middle, arguments', first, second, rfl⟩ := walk_call_iff.1 h
    obtain ⟨middle', first', one⟩ := walk_twin callee twin first
    obtain ⟨next', second', two⟩ := walkEach_twin arguments one second
    exact ⟨next', walk_call_iff.2 ⟨_, _, _, first', second', rfl⟩, two⟩
  | list span items =>
    obtain ⟨items', inner, rfl⟩ := walk_list_iff.1 h
    obtain ⟨next', inner', alike⟩ := walkEach_twin items twin inner
    exact ⟨next', walk_list_iff.2 ⟨_, inner', rfl⟩, alike⟩
  | write span operand =>
    obtain ⟨operand', inner, rfl⟩ := walk_write_iff.1 h
    obtain ⟨next', inner', alike⟩ := walk_twin operand twin inner
    exact ⟨next', walk_write_iff.2 ⟨_, inner', rfl⟩, alike⟩
termination_by structural n

theorem walkEach_twin {ctx : Context} (es : List Node) {st st' last : State} {es' : List Node}
    (twin : st.Twin st') (h : walkEach ctx es st = .ok (es', last)) :
    ∃ last', walkEach ctx es st' = .ok (es', last') ∧ last.Twin last' := by
  cases es with
  | nil =>
    cases h
    exact ⟨st', rfl, twin⟩
  | cons e rest =>
    obtain ⟨e', middle, rest', first, later, rfl⟩ := walkEach_cons_iff.1 h
    obtain ⟨middle', first', one⟩ := walk_twin e twin first
    obtain ⟨last', later', two⟩ := walkEach_twin rest one later
    exact ⟨last', walkEach_cons_iff.2 ⟨_, _, _, first', later', rfl⟩, two⟩
termination_by structural es

theorem walkTemplate_twin {ctx : Context} (body : List Node) {st st' last : State}
    {out : List Node} (twin : st.Twin st') (h : walkTemplate ctx body st = .ok (out, last)) :
    ∃ last', walkTemplate ctx body st' = .ok (out, last') ∧ last.Twin last' := by
  cases body with
  | nil =>
    cases h
    exact ⟨st', rfl, twin⟩
  | cons n rest =>
    obtain ⟨n', middle, rest', first, later, rfl⟩ := walkTemplate_cons_iff.1 h
    obtain ⟨middle', first', one⟩ := walk_twin n (twin.evaluating _) first
    obtain ⟨last', later', two⟩ := walkTemplate_twin rest one later
    exact ⟨last', walkTemplate_cons_iff.2 ⟨_, _, _, first', later', rfl⟩, two⟩
termination_by structural body

/-- The walk of a block does not look at the report. -/
theorem walkBlock_twin {ctx : Context} (body : List Node) {st st' last : State} {out : List Node}
    (twin : st.Twin st') (h : walkBlock ctx body st = .ok (out, last)) :
    ∃ last', walkBlock ctx body st' = .ok (out, last') ∧ last.Twin last' := by
  cases body with
  | nil =>
    cases h
    exact ⟨st', rfl, twin⟩
  | cons n rest =>
    obtain ⟨n', middle, rest', first, later, rfl⟩ := walkBlock_cons_iff.1 h
    obtain ⟨middle', first', one⟩ := walk_twin n (twin.evaluating _) first
    obtain ⟨last', later', two⟩ := walkBlock_twin rest one.endStatement later
    rw [← one.frame]
    exact ⟨last', walkBlock_cons_iff.2 ⟨_, _, _, first', later', rfl⟩, two⟩
termination_by structural body

end

section Runs

variable {ctx : Context} {st st' : State}

/-- Two walks of one node from twins. -/
theorem State.Twin.walk_eq {n m m' : Node} {next next' : State} (twin : st.Twin st')
    (h : walk ctx n st = .ok (m, next)) (h' : walk ctx n st' = .ok (m', next')) :
    m' = m ∧ next.Twin next' := by
  obtain ⟨_, again, alike⟩ := walk_twin n twin h
  rw [h'] at again
  cases again
  exact ⟨rfl, alike⟩

/-- Two walks of one block from twins. -/
theorem State.Twin.walkBlock_eq {body out out' : List Node} {last last' : State}
    (twin : st.Twin st') (h : walkBlock ctx body st = .ok (out, last))
    (h' : walkBlock ctx body st' = .ok (out', last')) : out' = out ∧ last.Twin last' := by
  obtain ⟨_, again, alike⟩ := walkBlock_twin body twin h
  rw [h'] at again
  cases again
  exact ⟨rfl, alike⟩

end Runs

end Analysis

namespace Node

/-- Whether the node is a function. -/
def isFunction : Node → Bool
  | .function .. => true
  | _ => false

theorem exists_of_isFunction {f : Node} (h : f.isFunction) :
    ∃ span name body scope, f = .function span name ⟨body, scope⟩ := by
  cases f with
  | function span name block => exact ⟨span, name, block.body, block.scope, rfl⟩
  | _ => cases h

end Node

namespace Analysis

section Functions

variable {ctx : Context} {st st' next next' : State} {f f' k k' : Node}

theorem walk_isFunction (function : f.isFunction) (h : walk ctx f st = .ok (k, next)) :
    k.isFunction := by
  obtain ⟨_, _, _, _, rfl⟩ := Node.exists_of_isFunction function
  obtain ⟨_, _, -, rfl, -⟩ := walk_function_iff.1 h
  rfl

/-- A function and what the analysis makes of it where nothing else is. -/
def Alone (options : Options) (globals : OrderedSet String) (f k : Node) : Prop :=
  ∃ last, walk (.top options) f (State.beginStatement { State.start with globals }) = .ok (k, last)

/-- A function is walked at its place as it is where nothing else is. -/
theorem walk_alone (function : f.isFunction) (h : walk ctx f st.beginStatement = .ok (k, next)) :
    Alone ctx.options st.globals f k := by
  obtain ⟨span, name, body, scope, rfl⟩ := Node.exists_of_isFunction function
  obtain ⟨walked, inner, inside, rfl, -⟩ := walk_function_iff.1 h
  have twin : (st.beginStatement.enterFunction ⟨body, scope⟩).Twin
      ((State.beginStatement { State.start with globals := st.globals }).enterFunction
        ⟨body, scope⟩) := ⟨rfl, rfl, rfl, rfl, rfl⟩
  obtain ⟨inner', inside', alike⟩ := walkBlock_twin body twin inside
  rw [← alike.frame]
  exact ⟨_, walk_function_iff.2 ⟨_, _, inside', rfl, rfl⟩⟩

/-- A statement sets for itself how it is evaluated. -/
theorem walkBlock_evaluating {body out : List Node} {last : State} (mode : Evaluation)
    (h : walkBlock ctx body st = .ok (out, last)) :
    ∃ last', walkBlock ctx body (st.evaluating mode) = .ok (out, last') ∧
      last'.frame = last.frame := by
  cases body with
  | nil =>
    cases h
    exact ⟨_, rfl, rfl⟩
  | cons n rest =>
    obtain ⟨n', middle, rest', first, later, rfl⟩ := walkBlock_cons_iff.1 h
    exact ⟨last, walkBlock_cons_iff.2 ⟨_, _, _, first, later, rfl⟩, rfl⟩

theorem walk_globals {n n' : Node} (plain : n.isStatement)
    (h : walk ctx n st.beginStatement = .ok (n', next)) : next.globals = st.globals :=
  (walk_statement n plain h (.nil ctx _)).globals_eq

/-- All functions leave the same behind them. -/
theorem walk_function_twin (old : f.isFunction) (new : f'.isFunction) (plain : f.isStatement)
    (plain' : f'.isStatement) (twin : st.Twin st')
    (h : walk ctx f st.beginStatement = .ok (k, next))
    (h' : walk ctx f' st'.beginStatement = .ok (k', next')) : next.Twin next' := by
  have given := walk_globals plain h
  have given' := walk_globals plain' h'
  obtain ⟨_, _, _, _, rfl⟩ := Node.exists_of_isFunction old
  obtain ⟨_, _, _, _, rfl⟩ := Node.exists_of_isFunction new
  obtain ⟨_, _, -, -, rfl⟩ := walk_function_iff.1 h
  obtain ⟨_, _, -, -, rfl⟩ := walk_function_iff.1 h'
  exact (twin.evaluating _).leaveFunction (given'.trans (twin.globals.trans given.symm))

end Functions

end Analysis

end Stencil
