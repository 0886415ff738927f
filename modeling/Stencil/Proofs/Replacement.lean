import Stencil.Proofs.Moves
import Stencil.Proofs.Twins

/-!
# Replacing one function by another

Two lists of statements that differ in one function, at whatever depth, are walked alike, and the
hoisting pass moves the same definitions in both: neither looks into the functions that stand inside
of others. So what comes out differs in what becomes of that function, and in nothing else.

* `walkBlock_replaced`: the walk of statements in which one function was replaced.
* `hoistEach_replaced`: the hoisting pass over them.
-/

namespace Stencil

namespace Node

/-- Statements in which one function, at any depth, is replaced by another. -/
inductive Replaced (f f' : Node) : List Node → List Node → Prop
  | here (old : f.isFunction) (new : f'.isFunction) (rest : List Node) :
      Replaced f f' (f :: rest) (f' :: rest)
  | behind {rest rest' : List Node} (n : Node) (later : Replaced f f' rest rest') :
      Replaced f f' (n :: rest) (n :: rest')
  | inFunction {body body' : List Node} (span : Span) (name : String) (scope : Scope)
      (rest : List Node) (inside : Replaced f f' body body') :
      Replaced f f' (.function span name ⟨body, scope⟩ :: rest)
        (.function span name ⟨body', scope⟩ :: rest)
  | inThen {body body' : List Node} (span : Span) (condition : Node) (scope : Scope)
      (elseBranch : Option (Block Node)) (rest : List Node) (inside : Replaced f f' body body') :
      Replaced f f' (.conditional span condition ⟨body, scope⟩ elseBranch :: rest)
        (.conditional span condition ⟨body', scope⟩ elseBranch :: rest)
  | inElse {body body' : List Node} (span : Span) (condition : Node) (thenBranch : Block Node)
      (scope : Scope) (rest : List Node) (inside : Replaced f f' body body') :
      Replaced f f' (.conditional span condition thenBranch (some ⟨body, scope⟩) :: rest)
        (.conditional span condition thenBranch (some ⟨body', scope⟩) :: rest)

section Replaced

variable {f f' : Node} {body body' : List Node}

theorem Replaced.append (h : Replaced f f' body body') (front : List Node) :
    Replaced f f' (front ++ body) (front ++ body') := by
  induction front with
  | nil => exact h
  | cons n front ih => exact .behind n ih

/-- What belongs to a function does not depend on the functions inside. -/
theorem Replaced.assignmentsOf_eq (h : Replaced f f' body body') :
    assignmentsOf body' = assignmentsOf body := by
  induction h with
  | here old new rest =>
    obtain ⟨_, _, _, _, rfl⟩ := exists_of_isFunction old
    obtain ⟨_, _, _, _, rfl⟩ := exists_of_isFunction new
    rfl
  | behind n _ ih => rw [assignmentsOf, assignmentsOf, ih]
  | inFunction => rfl
  | inThen _ _ _ elseBranch _ _ ih =>
    cases elseBranch with
    | none => simp only [assignmentsOf, assignments, ih]
    | some block => simp only [assignmentsOf, assignments, ih]
  | inElse _ _ thenBranch _ _ _ ih => simp only [assignmentsOf, assignments, ih]

theorem Replaced.scopesOf_eq (h : Replaced f f' body body') : scopesOf body' = scopesOf body := by
  induction h with
  | here old new rest =>
    obtain ⟨_, _, _, _, rfl⟩ := exists_of_isFunction old
    obtain ⟨_, _, _, _, rfl⟩ := exists_of_isFunction new
    rfl
  | behind n _ ih => rw [scopesOf, scopesOf, ih]
  | inFunction => rfl
  | inThen _ _ _ elseBranch _ _ ih =>
    cases elseBranch with
    | none => simp only [scopesOf, scopes, ih]
    | some block => simp only [scopesOf, scopes, ih]
  | inElse _ _ thenBranch _ _ _ ih => simp only [scopesOf, scopes, ih]

theorem Replaced.enterFunction_eq (h : Replaced f f' body body') (ctx : Analysis.Context)
    (st : Analysis.State) (scope : Scope) :
    ctx.enterFunction ⟨body', scope⟩ = ctx.enterFunction ⟨body, scope⟩ ∧
      st.enterFunction ⟨body', scope⟩ = st.enterFunction ⟨body, scope⟩ := by
  simp only [Analysis.Context.enterFunction, Analysis.State.enterFunction, Block.assignments,
    Block.declaredNames, Block.declaredAliases, Block.scopes, h.assignmentsOf_eq, h.scopesOf_eq,
    and_self]

end Replaced

end Node

namespace Analysis

section Walks

variable {ctx : Context} {st st' : State} {f f' : Node}

/-- Walked statements that differ in what became of one of two functions. -/
def Carried (options : Options) (globals : OrderedSet String) (f f' : Node) (out out' : List Node) :
    Prop :=
  ∃ k k', Alone options globals f k ∧ Alone options globals f' k' ∧ Node.Replaced k k' out out'

theorem Carried.lift {options : Options} {globals globals' : OrderedSet String}
    {inner inner' out out' : List Node} (carried : Carried options globals f f' inner inner')
    (given : globals = globals')
    (around : ∀ k k', Node.Replaced k k' inner inner' → Node.Replaced k k' out out') :
    Carried options globals' f f' out out' := by
  obtain ⟨k, k', alone, alone', replaced⟩ := carried
  subst given
  exact ⟨k, k', alone, alone', around k k' replaced⟩

/-- Statements of which the first was changed, the others behind it being the same. -/
theorem walkBlock_changed {n n' : Node} {rest out out' : List Node} {last last' : State}
    (walked : walkBlock ctx (n :: rest) st = .ok (out, last))
    (walked' : walkBlock ctx (n' :: rest) st' = .ok (out', last'))
    (head : ∀ {m m' next next'}, walk ctx n st.beginStatement = .ok (m, next) →
      walk ctx n' st'.beginStatement = .ok (m', next') → next.Twin next' ∧
        ∀ rest, Carried ctx.options st.globals f f' (m :: rest) (m' :: rest)) :
    last.Twin last' ∧ Carried ctx.options st.globals f f' out out' := by
  obtain ⟨m, next, out, first, later, rfl⟩ := walkBlock_cons_iff.1 walked
  obtain ⟨m', next', out', first', later', rfl⟩ := walkBlock_cons_iff.1 walked'
  obtain ⟨twin, changed⟩ := head first first'
  obtain ⟨rfl, alike⟩ := twin.endStatement.walkBlock_eq later later'
  rw [twin.frame]
  exact ⟨alike, (changed _).lift rfl fun _ _ replaced => replaced.append _⟩

/-- If one function is replaced by another, then what becomes of the one is replaced by what becomes
of the other, and nothing else changes. -/
theorem walkBlock_replaced {body body' out out' : List Node} {last last' : State}
    (h : Node.Replaced f f' body body') (plain : Node.areStatements body)
    (plain' : Node.areStatements body') (twin : st.Twin st')
    (walked : walkBlock ctx body st = .ok (out, last))
    (walked' : walkBlock ctx body' st' = .ok (out', last')) :
    last.Twin last' ∧ Carried ctx.options st.globals f f' out out' := by
  induction h generalizing ctx st st' out out' last last' with
  | here old new rest =>
    rw [Node.areStatements, Bool.and_eq_true] at plain plain'
    apply walkBlock_changed walked walked'
    intro k k' next next' first first'
    have alone' := walk_alone new first'
    rw [twin.globals] at alone'
    exact ⟨walk_function_twin old new plain.1 plain'.1 twin first first', fun rest =>
      ⟨k, k', walk_alone old first, alone',
        .here (walk_isFunction old first) (walk_isFunction new first') rest⟩⟩
  | behind n _ ih =>
    rw [Node.areStatements, Bool.and_eq_true] at plain plain'
    obtain ⟨n', next, out, first, later, rfl⟩ := walkBlock_cons_iff.1 walked
    obtain ⟨_, next', out', first', later', rfl⟩ := walkBlock_cons_iff.1 walked'
    obtain ⟨rfl, alike⟩ := (twin.evaluating _).walk_eq first first'
    obtain ⟨behind, carried⟩ := ih plain.2 plain'.2 alike.endStatement later later'
    have given : next.globals = st.globals := walk_globals plain.1 first
    rw [alike.frame]
    exact ⟨behind, carried.lift given fun _ _ replaced => (replaced.behind _).append _⟩
  | inFunction span name scope rest inside ih =>
    rw [Node.areStatements, Bool.and_eq_true] at plain plain'
    apply walkBlock_changed walked walked'
    intro m m' next next' first first'
    have alike := walk_function_twin rfl rfl plain.1 plain'.1 twin first first'
    simp only [Node.isStatement, Bool.and_eq_true] at plain plain'
    obtain ⟨_, inner, within, rfl, -⟩ := walk_function_iff.1 first
    obtain ⟨_, inner', within', rfl, -⟩ := walk_function_iff.1 first'
    obtain ⟨sameContext, sameState⟩ := inside.enterFunction_eq ctx st'.beginStatement scope
    rw [sameContext, sameState] at within'
    obtain ⟨inside, carried⟩ :=
      ih plain.1.2 plain'.1.2 ((twin.evaluating _).enterFunction _) within within'
    rw [inside.frame]
    exact ⟨alike, fun rest => carried.lift rfl fun _ _ => .inFunction span name _ rest⟩
  | inThen span condition scope elseBranch rest inside ih =>
    rw [Node.areStatements, Bool.and_eq_true] at plain plain'
    apply walkBlock_changed walked walked'
    intro m m' next next' first first'
    cases elseBranch with
    | none =>
      simp only [Node.isStatement, Bool.and_eq_true] at plain plain'
      obtain ⟨condition', tested, _, inThen, test, thenSide, rfl, rfl⟩ := walk_branch_iff.1 first
      obtain ⟨_, tested', _, inThen', test', thenSide', rfl, rfl⟩ := walk_branch_iff.1 first'
      obtain ⟨rfl, one⟩ := (twin.evaluating _).walk_eq test test'
      rw [one.frame] at thenSide'
      obtain ⟨two, carried⟩ := ih plain.1.2 plain'.1.2 (one.enterBranch _) thenSide thenSide'
      have given : tested.globals = st.globals := (walk_operands plain.1.1.1 test).globals_eq
      rw [two.frame, one.frame]
      exact ⟨(one.leaveBranch two).join _, fun rest =>
        carried.lift given fun _ _ => .inThen span _ _ none rest⟩
    | some block =>
      obtain ⟨elseBody, elseScope⟩ := block
      simp only [Node.isStatement, Bool.and_eq_true] at plain plain'
      obtain ⟨condition', tested, _, inThen, _, inElse, test, thenSide, elseSide, rfl, rfl⟩ :=
        walk_branches_iff.1 first
      obtain ⟨_, tested', _, inThen', _, inElse', test', thenSide', elseSide', rfl, rfl⟩ :=
        walk_branches_iff.1 first'
      obtain ⟨rfl, one⟩ := (twin.evaluating _).walk_eq test test'
      rw [one.frame] at thenSide' elseSide'
      obtain ⟨two, carried⟩ :=
        ih plain.1.1.1.2 plain'.1.1.1.2 (one.enterBranch _) thenSide thenSide'
      obtain ⟨rfl, three⟩ := ((one.leaveBranch two).enterBranch _).walkBlock_eq elseSide elseSide'
      have given : tested.globals = st.globals :=
        (walk_operands plain.1.1.1.1.1 test).globals_eq
      rw [two.frame, three.frame]
      exact ⟨((one.leaveBranch two).leaveBranch three).join _, fun rest =>
        carried.lift given fun _ _ => .inThen span _ _ _ rest⟩
  | inElse span condition thenBranch scope rest inside ih =>
    obtain ⟨thenBody, thenScope⟩ := thenBranch
    rw [Node.areStatements, Bool.and_eq_true] at plain plain'
    apply walkBlock_changed walked walked'
    intro m m' next next' first first'
    simp only [Node.isStatement, Bool.and_eq_true] at plain plain'
    obtain ⟨condition', tested, _, inThen, _, inElse, test, thenSide, elseSide, rfl, rfl⟩ :=
      walk_branches_iff.1 first
    obtain ⟨_, tested', _, inThen', _, inElse', test', thenSide', elseSide', rfl, rfl⟩ :=
      walk_branches_iff.1 first'
    obtain ⟨rfl, one⟩ := (twin.evaluating _).walk_eq test test'
    rw [one.frame] at thenSide' elseSide'
    obtain ⟨rfl, two⟩ := (one.enterBranch _).walkBlock_eq thenSide thenSide'
    obtain ⟨three, carried⟩ :=
      ih plain.1.2 plain'.1.2 ((one.leaveBranch two).enterBranch _) elseSide elseSide'
    have given : inThen.globals = st.globals :=
      (walkBlock_statements thenBody plain.1.1.1.2 thenSide).globals_eq.trans
        (walk_operands plain.1.1.1.1.1 test).globals_eq
    rw [two.frame, three.frame]
    exact ⟨((one.leaveBranch two).leaveBranch three).join _, fun rest =>
      carried.lift given fun _ _ => .inElse span _ _ _ rest⟩

end Walks

end Analysis

/-- Blocks with the same scope, in one of which a function is replaced by another. -/
structure Block.Replaced (f f' : Node) (block block' : Block Node) : Prop where
  scope : block'.scope = block.scope
  body : Node.Replaced f f' block.body block'.body

section Branches

variable {f f' : Node} {block block' : Block Node}

theorem Block.Replaced.inThen (h : block.Replaced f f' block') (span : Span) (condition : Node)
    (elseBranch : Option (Block Node)) (rest : List Node) :
    Node.Replaced f f' (.conditional span condition block elseBranch :: rest)
      (.conditional span condition block' elseBranch :: rest) := by
  obtain ⟨body, scope⟩ := block
  obtain ⟨body', scope'⟩ := block'
  cases h.scope
  exact .inThen span condition scope elseBranch rest h.body

theorem Block.Replaced.inElse (h : block.Replaced f f' block') (span : Span) (condition : Node)
    (thenBranch : Block Node) (rest : List Node) :
    Node.Replaced f f' (.conditional span condition thenBranch (some block) :: rest)
      (.conditional span condition thenBranch (some block') :: rest) := by
  obtain ⟨body, scope⟩ := block
  obtain ⟨body', scope'⟩ := block'
  cases h.scope
  exact .inElse span condition thenBranch scope rest h.body

theorem Block.Replaced.inFunction (h : block.Replaced f f' block') (span : Span) (name : String)
    (rest : List Node) :
    Node.Replaced f f' (.function span name block :: rest)
      (.function span name block' :: rest) := by
  obtain ⟨body, scope⟩ := block
  obtain ⟨body', scope'⟩ := block'
  cases h.scope
  exact .inFunction span name scope rest h.body

end Branches

namespace Hoisting

section Bodies

variable {f f' : Node} {body body' : List Node}

theorem assigns_replaced (h : Node.Replaced f f' body body') : assigns body' = assigns body := by
  funext name
  unfold assigns
  induction h with
  | here old new rest =>
    obtain ⟨_, _, _, _, rfl⟩ := Node.exists_of_isFunction old
    obtain ⟨_, _, _, _, rfl⟩ := Node.exists_of_isFunction new
    rfl
  | behind n _ ih => rw [List.any_cons, List.any_cons, ih]
  | inFunction | inThen | inElse => rfl

/-- An assignment that is taken out of two bodies alike. -/
def TakenAlike (f f' : Node) (name : String) (body body' : List Node) : Prop :=
  Option.Rel (fun a b => b.1 = a.1 ∧ b.2.1 = a.2.1 ∧ Node.Replaced f f' a.2.2 b.2.2)
    (takeAssignment? name body) (takeAssignment? name body')

theorem takenAlike_changed {n n' : Node} (unset : n.target? = none) (unset' : n'.target? = none)
    (head : ∀ rest, Node.Replaced f f' (n :: rest) (n' :: rest)) (name : String)
    (rest : List Node) : TakenAlike f f' name (n :: rest) (n' :: rest) := by
  unfold TakenAlike
  rw [takeAssignment?_cons_of_ne (by simp [unset]), takeAssignment?_cons_of_ne (by simp [unset'])]
  cases takeAssignment? name rest with
  | none => exact .none
  | some taken => exact .some ⟨rfl, rfl, head _⟩

theorem takenAlike_replaced (h : Node.Replaced f f' body body') (name : String) :
    TakenAlike f f' name body body' := by
  induction h with
  | here old new rest =>
    have unset : f.target? = none := by
      obtain ⟨_, _, _, _, rfl⟩ := Node.exists_of_isFunction old
      rfl
    have unset' : f'.target? = none := by
      obtain ⟨_, _, _, _, rfl⟩ := Node.exists_of_isFunction new
      rfl
    exact takenAlike_changed unset unset' (.here old new) name rest
  | @behind rest rest' n later ih =>
    by_cases same : n.target? = some name
    · cases n with
      | assign span target value =>
        cases same
        unfold TakenAlike
        rw [takeAssignment?, takeAssignment?, if_pos rfl, if_pos rfl]
        exact .some ⟨rfl, rfl, later⟩
      | template | function | conditional | identifier | placeholder | literal | binary | filter
      | call | list | write => cases same
    · unfold TakenAlike at ih ⊢
      rw [takeAssignment?_cons_of_ne same, takeAssignment?_cons_of_ne same]
      generalize takeAssignment? name rest = before at ih ⊢
      generalize takeAssignment? name rest' = behind at ih ⊢
      cases ih with
      | none => exact .none
      | some taken => exact .some ⟨taken.1, taken.2.1, taken.2.2.behind n⟩
  | inFunction span name' scope rest inside =>
    exact takenAlike_changed rfl rfl (fun rest => .inFunction span name' scope rest inside) name
      rest
  | inThen span condition scope elseBranch rest inside =>
    exact takenAlike_changed rfl rfl
      (fun rest => .inThen span condition scope elseBranch rest inside) name rest
  | inElse span condition thenBranch scope rest inside =>
    exact takenAlike_changed rfl rfl
      (fun rest => .inElse span condition thenBranch scope rest inside) name rest

/-- Whether a definition may leave a body, and which, does not depend on the functions inside. -/
theorem definition?_replaced (h : Node.Replaced f f' body body') (name : String) :
    Option.Rel (fun a b => b.1 = a.1 ∧ Node.Replaced f f' a.2 b.2) (definition? name body)
      (definition? name body') := by
  have taken := takenAlike_replaced h name
  unfold TakenAlike at taken
  unfold definition?
  rw [assigns_replaced h]
  generalize takeAssignment? name body = before at taken ⊢
  generalize takeAssignment? name body' = behind at taken ⊢
  cases taken with
  | none => exact .none
  | @some first second same =>
    obtain ⟨value, assignment, rest⟩ := first
    obtain ⟨value', assignment', rest'⟩ := second
    obtain ⟨rfl, rfl, replaced⟩ := same
    simp only [Option.bind_eq_bind, Option.bind_some]
    cases value'.computation? with
    | none => exact .none
    | some c =>
      simp only [Option.bind_some]
      split
      · exact .none
      · exact .some ⟨rfl, replaced⟩

end Bodies

/-- A relation between blocks that hold the same aliases, which is kept when the definition of an
alias leaves both. -/
def Steady (R : Block Node → Block Node → Prop) : Prop :=
  ∀ block block', R block block' → block'.scope = block.scope ∧
    ∀ name, Option.Rel (fun a b => b.1 = a.1 ∧ ∀ scope, R ⟨a.2, scope⟩ ⟨b.2, scope⟩)
      (definition? name block.body) (definition? name block'.body)

theorem steady_eq : Steady Eq := by
  rintro block _ rfl
  refine ⟨rfl, fun name => ?_⟩
  cases definition? name block.body with
  | none => exact .none
  | some taken => exact .some ⟨rfl, fun _ => rfl⟩

theorem steady_replaced (f f' : Node) : Steady (Block.Replaced f f') := by
  intro block block' h
  refine ⟨h.scope, fun name => ?_⟩
  have alike := definition?_replaced h.body name
  generalize definition? name block.body = before at alike ⊢
  generalize definition? name block'.body = behind at alike ⊢
  cases alike with
  | none => exact .none
  | some same => exact .some ⟨same.1, fun _ => ⟨rfl, same.2⟩⟩

/-- Two exchanges with the same definitions on the move. -/
structure Exchange.Parallel (R S : Block Node → Block Node → Prop) (x y : Exchange) : Prop where
  thenBranch : R x.thenBranch y.thenBranch
  elseBranch : S x.elseBranch y.elseBranch
  enclosing : y.enclosing = x.enclosing
  moved : y.moved = x.moved

section Exchanges

variable {R S : Block Node → Block Node → Prop}

theorem Exchange.Parallel.move {x y : Exchange} (first : Steady R) (second : Steady S)
    (h : Exchange.Parallel R S x y) (span : Span) (entry : Computation × String) :
    Exchange.Parallel R S (x.move span entry) (y.move span entry) := by
  obtain ⟨c, name⟩ := entry
  obtain ⟨thenScope, thenLeaves⟩ := first _ _ h.thenBranch
  obtain ⟨elseScope, elseLeaves⟩ := second _ _ h.elseBranch
  have inThen := thenLeaves name
  have inElse := elseLeaves name
  simp only [Exchange.move]
  generalize definition? name x.thenBranch.body = a at inThen ⊢
  generalize definition? name y.thenBranch.body = a' at inThen ⊢
  generalize definition? name x.elseBranch.body = b at inElse ⊢
  generalize definition? name y.elseBranch.body = b' at inElse ⊢
  cases inThen with
  | none => exact h
  | @some moved moved' sameThen =>
    obtain ⟨definition, thenBody⟩ := moved
    obtain ⟨definition', thenBody'⟩ := moved'
    obtain ⟨rfl, thenRest⟩ := sameThen
    cases inElse with
    | none => exact h
    | @some dropped dropped' sameElse =>
      obtain ⟨-, elseRest⟩ := sameElse
      simp only [thenScope, elseScope, h.enclosing, h.moved]
      exact ⟨thenRest _, elseRest _, rfl, rfl⟩

theorem exchange_parallel {a a' b b' : Block Node} (first : Steady R) (second : Steady S)
    (inThen : R a a') (inElse : S b b') (span : Span) (enclosing : Scope) :
    Exchange.Parallel R S (exchange span a b enclosing) (exchange span a' b' enclosing) := by
  have run (entries : List (Computation × String)) {x y : Exchange}
      (h : Exchange.Parallel R S x y) :
      Exchange.Parallel R S (entries.foldl (Exchange.move span) x)
        (entries.foldl (Exchange.move span) y) := by
    induction entries generalizing x y with
    | nil => exact h
    | cons entry rest ih => exact ih (h.move first second span entry)
  have same : shared a'.scope b'.scope = shared a.scope b.scope := by
    rw [(first _ _ inThen).1, (second _ _ inElse).1]
  unfold exchange
  rw [same]
  exact run _ ⟨inThen, inElse, rfl, rfl⟩

end Exchanges

section Trees

variable {f f' : Node} {body body' : List Node}

theorem lift_replaced (h : Node.Replaced f f' body body') (scope : Scope) :
    Block.Replaced f f' ⟨(lift body scope).1, (lift body scope).2.1⟩
      ⟨(lift body' scope).1, (lift body' scope).2.1⟩ := by
  induction h generalizing scope with
  | here old new rest =>
    obtain ⟨_, _, _, _, rfl⟩ := Node.exists_of_isFunction old
    obtain ⟨_, _, _, _, rfl⟩ := Node.exists_of_isFunction new
    exact ⟨rfl, .here rfl rfl _⟩
  | behind n _ ih =>
    cases n with
    | conditional span condition thenBranch elseBranch =>
      cases elseBranch with
      | none => exact ⟨(ih scope).scope, (ih scope).body.behind _⟩
      | some elseBranch =>
        have behind := ih (exchange span thenBranch elseBranch scope).enclosing
        exact ⟨behind.scope, (behind.body.behind _).append _⟩
    | template | function | assign | identifier | placeholder | literal | binary | filter | call
    | list | write => exact ⟨(ih scope).scope, (ih scope).body.behind _⟩
  | inFunction span name inner rest inside => exact ⟨rfl, .inFunction span name inner _ inside⟩
  | @inThen body body' span condition inner elseBranch rest inside =>
    cases elseBranch with
    | none => exact ⟨rfl, .inThen span condition inner none _ inside⟩
    | some elseBranch =>
      have branch : Block.Replaced f f' ⟨body, inner⟩ ⟨body', inner⟩ := ⟨rfl, inside⟩
      obtain ⟨inThen, same, enclosing, moved⟩ := exchange_parallel (steady_replaced f f') steady_eq
        branch (Eq.refl elseBranch) span scope
      simp only [lift, enclosing, moved, ← same]
      exact ⟨rfl, (inThen.inThen span condition _ _).append _⟩
  | @inElse body body' span condition thenBranch inner rest inside =>
    have branch : Block.Replaced f f' ⟨body, inner⟩ ⟨body', inner⟩ := ⟨rfl, inside⟩
    obtain ⟨same, inElse, enclosing, moved⟩ := exchange_parallel steady_eq (steady_replaced f f')
      (Eq.refl thenBranch) branch span scope
    simp only [lift, enclosing, moved, ← same]
    exact ⟨rfl, (inElse.inElse span condition _ _).append _⟩

theorem isFunction_hoist (function : f.isFunction) : (hoist f).1.isFunction := by
  obtain ⟨_, _, _, _, rfl⟩ := Node.exists_of_isFunction function
  rfl

/-- The hoisting pass treats the functions inside others by themselves. -/
theorem hoistEach_replaced (h : Node.Replaced f f' body body') :
    Node.Replaced (hoist f).1 (hoist f').1 (hoistEach body).1 (hoistEach body').1 := by
  induction h with
  | here old new rest => exact .here (isFunction_hoist old) (isFunction_hoist new) _
  | behind n _ ih => exact .behind _ ih
  | inFunction span name scope rest _ ih => exact (lift_replaced ih scope).inFunction span name _
  | inThen span condition scope elseBranch rest _ ih =>
    have inner := lift_replaced ih scope
    cases elseBranch with
    | none => exact inner.inThen span _ none _
    | some block => exact inner.inThen span _ (some block.hoisted) _
  | inElse span condition thenBranch scope rest _ ih =>
    exact (lift_replaced ih scope).inElse span _ thenBranch.hoisted _

end Trees

end Hoisting

end Stencil
