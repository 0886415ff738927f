import Stencil.Proofs.Source

/-!
# What a successful walk does

`Operands` and `Statements` say step by step what the analysis does to the expressions of a
statement and to the statements of a block, when the tree is a source tree and nothing fails. What
is proved about the analysed form of a source tree is proved by induction on these two relations.

A lemma such as `walk_branch_iff` for each kind of node says what a successful walk of it has done,
whatever the tree. Walks of other trees are taken apart, and put together, by these.

Main statements: `walkBlock_statements` and `Statements.walkBlock_eq` for blocks, and
`analyze_statements` for whole trees.
-/

namespace Stencil.Analysis

/-- Walking expressions from left to right turns one state into another. -/
inductive Operands (ctx : Context) : State → List Node → List Node → State → Prop
  | nil (st : State) : Operands ctx st [] [] st
  | identifier {st last : State} {rest rest' : List Node} (span : Span) (name : String)
      (later : Operands ctx st rest rest' last) :
      Operands ctx st (.identifier span name :: rest) (.identifier span name :: rest') last
  | literal {st last : State} {rest rest' : List Node} (span : Span) (value : Literal)
      (later : Operands ctx st rest rest' last) :
      Operands ctx st (.literal span value :: rest) (.literal span value :: rest') last
  | placeholder {st next last : State} {rest rest' : List Node} {span : Span} {name : String}
      {resolution : Resolution} (read : st.read ctx span name = .ok (resolution, next))
      (later : Operands ctx next rest rest' last) :
      Operands ctx st (.placeholder span name none :: rest)
        (.placeholder span name (some resolution) :: rest') last
  | binary {st middle next last : State} {left left' right right' : Node} {rest rest' : List Node}
      (span : Span) (op : Operator) (first : Operands ctx st [left] [left'] middle)
      (second : Operands ctx (middle.evaluating (st.evaluation.rightOperand op)) [right] [right']
        next)
      (later : Operands ctx (next.evaluating st.evaluation) rest rest' last) :
      Operands ctx st (.binary span op left right :: rest) (.binary span op left' right' :: rest')
        last
  | filter {st middle checked next last : State} {operand operand' : Node} {rest rest' : List Node}
      {span : Span} {name cached : Option String}
      (inner : Operands ctx st [operand] [operand'] middle)
      (check : middle.checkFilter ctx span operand' = .ok checked)
      (cache : checked.cacheFilter ctx span operand' name = (cached, next))
      (later : Operands ctx next rest rest' last) :
      Operands ctx st (.filter span operand name none :: rest)
        (.filter span operand' name cached :: rest') last
  | call {st middle next last : State} {callee callee' : Node}
      {arguments arguments' rest rest' : List Node} (span : Span)
      (first : Operands ctx st [callee] [callee'] middle)
      (second : Operands ctx middle arguments arguments' next)
      (later : Operands ctx next rest rest' last) :
      Operands ctx st (.call span callee arguments :: rest)
        (.call span callee' arguments' :: rest') last
  | list {st next last : State} {items items' rest rest' : List Node} (span : Span)
      (inner : Operands ctx st items items' next) (later : Operands ctx next rest rest' last) :
      Operands ctx st (.list span items :: rest) (.list span items' :: rest') last

/-- Walking the statements of a block turns one state into another, and puts in front of each
statement the definitions it needs. -/
inductive Statements : Context → State → List Node → List Node → State → Prop
  | nil (ctx : Context) (st : State) : Statements ctx st [] [] st
  | function {ctx : Context} {st inner last : State} {body walked rest rest' : List Node}
      {scope : Scope} (span : Span) (name : String)
      (inside : Statements (ctx.enterFunction ⟨body, scope⟩)
        (st.beginStatement.enterFunction ⟨body, scope⟩) body walked inner)
      (later : Statements ctx (st.beginStatement.leaveFunction inner).endStatement rest rest'
        last) :
      Statements ctx st (.function span name ⟨body, scope⟩ :: rest)
        (st.frame.pending ++ .function span name ⟨walked, inner.frame.commit scope⟩ :: rest') last
  | branch {ctx : Context} {st tested inThen last : State} {condition condition' : Node}
      {thenBody thenBody' rest rest' : List Node} {thenScope : Scope} (span : Span)
      (test : Operands ctx st.beginStatement [condition] [condition'] tested)
      (thenSide : Statements (ctx.enterBranch tested.frame.aliases) (tested.enterBranch thenScope)
        thenBody thenBody' inThen)
      (later : Statements ctx
        ((tested.leaveBranch inThen).join
          [inThen.frame.assigned, tested.frame.assigned]).endStatement
        rest rest' last) :
      Statements ctx st (.conditional span condition ⟨thenBody, thenScope⟩ none :: rest)
        (tested.frame.pending ++
          .conditional span condition' ⟨thenBody', inThen.frame.commit thenScope⟩ none :: rest')
        last
  | branches {ctx : Context} {st tested inThen inElse last : State} {condition condition' : Node}
      {thenBody thenBody' elseBody elseBody' rest rest' : List Node} {thenScope elseScope : Scope}
      (span : Span) (test : Operands ctx st.beginStatement [condition] [condition'] tested)
      (thenSide : Statements (ctx.enterBranch tested.frame.aliases) (tested.enterBranch thenScope)
        thenBody thenBody' inThen)
      (elseSide : Statements (ctx.enterBranch tested.frame.aliases)
        ((tested.leaveBranch inThen).enterBranch elseScope) elseBody elseBody' inElse)
      (later : Statements ctx
        (((tested.leaveBranch inThen).leaveBranch inElse).join
          [inThen.frame.assigned, inElse.frame.assigned]).endStatement
        rest rest' last) :
      Statements ctx st
        (.conditional span condition ⟨thenBody, thenScope⟩ (some ⟨elseBody, elseScope⟩) :: rest)
        (tested.frame.pending ++
          .conditional span condition' ⟨thenBody', inThen.frame.commit thenScope⟩
            (some ⟨elseBody', inElse.frame.commit elseScope⟩) :: rest') last
  | assign {ctx : Context} {st next last : State} {value value' : Node} {rest rest' : List Node}
      (span : Span) (target : String)
      (inner : Operands ctx st.beginStatement [value] [value'] next)
      (later : Statements ctx (next.assign ctx target).endStatement rest rest' last) :
      Statements ctx st (.assign span target value :: rest)
        (next.frame.pending ++ .assign span target value' :: rest') last
  | write {ctx : Context} {st next last : State} {operand operand' : Node} {rest rest' : List Node}
      (span : Span) (inner : Operands ctx st.beginStatement [operand] [operand'] next)
      (later : Statements ctx next.endStatement rest rest' last) :
      Statements ctx st (.write span operand :: rest)
        (next.frame.pending ++ .write span operand' :: rest') last
  | expression {ctx : Context} {st next last : State} {e e' : Node} {rest rest' : List Node}
      (plain : e.isExpression) (inner : Operands ctx st.beginStatement [e] [e'] next)
      (later : Statements ctx next.endStatement rest rest' last) :
      Statements ctx st (e :: rest) (next.frame.pending ++ e' :: rest') last

theorem bind_eq_ok {ε α β : Type} {x : Except ε α} {f : α → Except ε β} {b : β} :
    x >>= f = .ok b ↔ ∃ a, x = .ok a ∧ f a = .ok b := by
  cases x with
  | error e =>
    constructor
    · intro h; cases h
    · rintro ⟨a, h, _⟩; cases h
  | ok a =>
    constructor
    · intro h; exact ⟨a, rfl, h⟩
    · rintro ⟨a, h, k⟩; cases h; exact k

/-! ### What a successful walk of one node has done -/

section Inversion

-- Makes the equations of the walk here, once, and not in all of the proofs below at the same time.
attribute [local simp] walk walkEach walkTemplate walkBlock

variable {ctx : Context} {st next : State} {n : Node} {ns : List Node} {span : Span}

theorem walk_placeholder_iff {name : String} {resolution : Option Resolution} :
    walk ctx (.placeholder span name resolution) st = .ok (n, next) ↔
      ∃ noted, st.read ctx span name = .ok (noted, next) ∧
        n = .placeholder span name (some noted) := by
  rw [walk, bind_eq_ok]
  constructor
  · rintro ⟨⟨noted, _⟩, read, h⟩
    cases h
    exact ⟨noted, read, rfl⟩
  · rintro ⟨noted, read, rfl⟩
    exact ⟨_, read, rfl⟩

theorem walk_binary_iff {op : Operator} {left right : Node} :
    walk ctx (.binary span op left right) st = .ok (n, next) ↔
      ∃ left' middle right' last, walk ctx left st = .ok (left', middle) ∧
        walk ctx right (middle.evaluating (st.evaluation.rightOperand op)) = .ok (right', last) ∧
        n = .binary span op left' right' ∧ next = last.evaluating st.evaluation := by
  simp only [walk, bind_eq_ok]
  constructor
  · rintro ⟨⟨left', middle⟩, first, ⟨right', last⟩, second, h⟩
    cases h
    exact ⟨left', middle, right', last, first, second, rfl, rfl⟩
  · rintro ⟨left', middle, right', last, first, second, rfl, rfl⟩
    exact ⟨_, first, _, second, rfl⟩

theorem walk_filter_iff {operand : Node} {name cachedAs : Option String} :
    walk ctx (.filter span operand name cachedAs) st = .ok (n, next) ↔
      ∃ operand' middle checked cached, walk ctx operand st = .ok (operand', middle) ∧
        middle.checkFilter ctx span operand' = .ok checked ∧
        checked.cacheFilter ctx span operand' name = (cached, next) ∧
        n = .filter span operand' name (cached.or cachedAs) := by
  simp only [walk, bind_eq_ok]
  constructor
  · rintro ⟨⟨operand', middle⟩, inner, checked, check, h⟩
    cases h
    exact ⟨operand', middle, checked, _, inner, check, rfl, rfl⟩
  · rintro ⟨operand', middle, checked, cached, inner, check, cache, rfl⟩
    refine ⟨_, inner, checked, check, ?_⟩
    simp only [cache]
    rfl

theorem walk_call_iff {callee : Node} {arguments : List Node} :
    walk ctx (.call span callee arguments) st = .ok (n, next) ↔
      ∃ callee' middle arguments', walk ctx callee st = .ok (callee', middle) ∧
        walkEach ctx arguments middle = .ok (arguments', next) ∧
        n = .call span callee' arguments' := by
  simp only [walk, bind_eq_ok]
  constructor
  · rintro ⟨⟨callee', middle⟩, first, ⟨arguments', _⟩, second, h⟩
    cases h
    exact ⟨callee', middle, arguments', first, second, rfl⟩
  · rintro ⟨callee', middle, arguments', first, second, rfl⟩
    exact ⟨_, first, _, second, rfl⟩

theorem walk_list_iff {items : List Node} :
    walk ctx (.list span items) st = .ok (n, next) ↔
      ∃ items', walkEach ctx items st = .ok (items', next) ∧ n = .list span items' := by
  rw [walk, bind_eq_ok]
  constructor
  · rintro ⟨⟨items', _⟩, inner, h⟩
    cases h
    exact ⟨items', inner, rfl⟩
  · rintro ⟨items', inner, rfl⟩
    exact ⟨_, inner, rfl⟩

theorem walk_write_iff {operand : Node} :
    walk ctx (.write span operand) st = .ok (n, next) ↔
      ∃ operand', walk ctx operand st = .ok (operand', next) ∧ n = .write span operand' := by
  rw [walk, bind_eq_ok]
  constructor
  · rintro ⟨⟨operand', _⟩, inner, h⟩
    cases h
    exact ⟨operand', inner, rfl⟩
  · rintro ⟨operand', inner, rfl⟩
    exact ⟨_, inner, rfl⟩

theorem walk_assign_iff {target : String} {value : Node} :
    walk ctx (.assign span target value) st = .ok (n, next) ↔
      ∃ value' last, walk ctx value st = .ok (value', last) ∧ n = .assign span target value' ∧
        next = last.assign ctx target := by
  rw [walk, bind_eq_ok]
  constructor
  · rintro ⟨⟨value', last⟩, inner, h⟩
    cases h
    exact ⟨value', last, inner, rfl, rfl⟩
  · rintro ⟨value', last, inner, rfl, rfl⟩
    exact ⟨_, inner, rfl⟩

theorem walk_function_iff {name : String} {body : List Node} {scope : Scope} :
    walk ctx (.function span name ⟨body, scope⟩) st = .ok (n, next) ↔
      ∃ walked inner,
        walkBlock (ctx.enterFunction ⟨body, scope⟩) body (st.enterFunction ⟨body, scope⟩) =
          .ok (walked, inner) ∧
        n = .function span name ⟨walked, inner.frame.commit scope⟩ ∧
        next = st.leaveFunction inner := by
  rw [walk, bind_eq_ok]
  constructor
  · rintro ⟨⟨walked, inner⟩, inside, h⟩
    cases h
    exact ⟨walked, inner, inside, rfl, rfl⟩
  · rintro ⟨walked, inner, inside, rfl, rfl⟩
    exact ⟨_, inside, rfl⟩

theorem walk_branch_iff {condition : Node} {thenBody : List Node} {thenScope : Scope} :
    walk ctx (.conditional span condition ⟨thenBody, thenScope⟩ none) st = .ok (n, next) ↔
      ∃ condition' tested thenBody' inThen, walk ctx condition st = .ok (condition', tested) ∧
        walkBlock (ctx.enterBranch tested.frame.aliases) thenBody (tested.enterBranch thenScope) =
          .ok (thenBody', inThen) ∧
        n = .conditional span condition' ⟨thenBody', inThen.frame.commit thenScope⟩ none ∧
        next = (tested.leaveBranch inThen).join
          [inThen.frame.assigned, tested.frame.assigned] := by
  simp only [walk, bind_eq_ok]
  constructor
  · rintro ⟨⟨condition', tested⟩, test, ⟨thenBody', inThen⟩, thenSide, h⟩
    cases h
    exact ⟨condition', tested, thenBody', inThen, test, thenSide, rfl, rfl⟩
  · rintro ⟨condition', tested, thenBody', inThen, test, thenSide, rfl, rfl⟩
    exact ⟨_, test, _, thenSide, rfl⟩

theorem walk_branches_iff {condition : Node} {thenBody elseBody : List Node}
    {thenScope elseScope : Scope} :
    walk ctx (.conditional span condition ⟨thenBody, thenScope⟩ (some ⟨elseBody, elseScope⟩)) st =
        .ok (n, next) ↔
      ∃ condition' tested thenBody' inThen elseBody' inElse,
        walk ctx condition st = .ok (condition', tested) ∧
        walkBlock (ctx.enterBranch tested.frame.aliases) thenBody (tested.enterBranch thenScope) =
          .ok (thenBody', inThen) ∧
        walkBlock (ctx.enterBranch tested.frame.aliases) elseBody
          ((tested.leaveBranch inThen).enterBranch elseScope) = .ok (elseBody', inElse) ∧
        n = .conditional span condition' ⟨thenBody', inThen.frame.commit thenScope⟩
          (some ⟨elseBody', inElse.frame.commit elseScope⟩) ∧
        next = ((tested.leaveBranch inThen).leaveBranch inElse).join
          [inThen.frame.assigned, inElse.frame.assigned] := by
  simp only [walk, bind_eq_ok]
  constructor
  · rintro ⟨⟨condition', tested⟩, test, ⟨thenBody', inThen⟩, thenSide, ⟨elseBody', inElse⟩,
      elseSide, h⟩
    cases h
    exact ⟨condition', tested, thenBody', inThen, elseBody', inElse, test, thenSide, elseSide, rfl,
      rfl⟩
  · rintro ⟨condition', tested, thenBody', inThen, elseBody', inElse, test, thenSide, elseSide, rfl,
      rfl⟩
    exact ⟨_, test, _, thenSide, _, elseSide, rfl⟩

theorem walk_template_iff {name : String} {globals : OrderedSet String} {body : List Node} :
    walk ctx (.template span name globals body) st = .ok (n, next) ↔
      ∃ body', walkTemplate ctx body { st with globals } = .ok (body', next) ∧
        n = .template span name globals body' := by
  rw [walk, bind_eq_ok]
  constructor
  · rintro ⟨⟨body', _⟩, inside, h⟩
    cases h
    exact ⟨body', inside, rfl⟩
  · rintro ⟨body', inside, rfl⟩
    exact ⟨_, inside, rfl⟩

theorem walkEach_cons_iff {e : Node} {rest : List Node} :
    walkEach ctx (e :: rest) st = .ok (ns, next) ↔
      ∃ e' middle rest', walk ctx e st = .ok (e', middle) ∧
        walkEach ctx rest middle = .ok (rest', next) ∧ ns = e' :: rest' := by
  simp only [walkEach, bind_eq_ok]
  constructor
  · rintro ⟨⟨e', middle⟩, first, ⟨rest', _⟩, later, h⟩
    cases h
    exact ⟨e', middle, rest', first, later, rfl⟩
  · rintro ⟨e', middle, rest', first, later, rfl⟩
    exact ⟨_, first, _, later, rfl⟩

theorem walkTemplate_cons_iff {e : Node} {rest : List Node} :
    walkTemplate ctx (e :: rest) st = .ok (ns, next) ↔
      ∃ e' middle rest', walk ctx e st.beginStatement = .ok (e', middle) ∧
        walkTemplate ctx rest middle = .ok (rest', next) ∧ ns = e' :: rest' := by
  simp only [walkTemplate, bind_eq_ok]
  constructor
  · rintro ⟨⟨e', middle⟩, first, ⟨rest', _⟩, later, h⟩
    cases h
    exact ⟨e', middle, rest', first, later, rfl⟩
  · rintro ⟨e', middle, rest', first, later, rfl⟩
    exact ⟨_, first, _, later, rfl⟩

theorem walkBlock_cons_iff {e : Node} {rest : List Node} :
    walkBlock ctx (e :: rest) st = .ok (ns, next) ↔
      ∃ e' middle rest', walk ctx e st.beginStatement = .ok (e', middle) ∧
        walkBlock ctx rest middle.endStatement = .ok (rest', next) ∧
        ns = middle.frame.pending ++ e' :: rest' := by
  simp only [walkBlock, bind_eq_ok]
  constructor
  · rintro ⟨⟨e', middle⟩, first, ⟨rest', _⟩, later, h⟩
    cases h
    exact ⟨e', middle, rest', first, later, rfl⟩
  · rintro ⟨e', middle, rest', first, later, rfl⟩
    exact ⟨_, first, _, later, rfl⟩

end Inversion

variable {ctx : Context}

mutual

/-- Walking one expression, followed by others. -/
theorem walk_operand (e : Node) {st next last : State} {e' : Node} {rest rest' : List Node}
    (plain : e.isExpression) (h : walk ctx e st = .ok (e', next))
    (later : Operands ctx next rest rest' last) :
    Operands ctx st (e :: rest) (e' :: rest') last := by
  cases e with
  | identifier span name => cases h; exact .identifier span name later
  | literal span value => cases h; exact .literal span value later
  | placeholder span name resolution =>
    have none : resolution = none := by simpa [Node.isExpression] using plain
    subst none
    obtain ⟨resolution, read, rfl⟩ := walk_placeholder_iff.1 h
    exact .placeholder read later
  | binary span op left right =>
    rw [Node.isExpression, Bool.and_eq_true] at plain
    obtain ⟨left', middle, right', last', first, second, rfl, rfl⟩ := walk_binary_iff.1 h
    exact .binary span op (walk_operand left plain.1 first (.nil _))
      (walk_operand right plain.2 second (.nil _)) later
  | filter span operand name cachedAs =>
    rw [Node.isExpression, Bool.and_eq_true, decide_eq_true_eq] at plain
    obtain ⟨inside, rfl⟩ := plain
    obtain ⟨operand', middle, checked, cached, inner, check, cache, rfl⟩ := walk_filter_iff.1 h
    rw [Option.or_none]
    exact .filter (walk_operand operand inside inner (.nil _)) check cache later
  | call span callee arguments =>
    rw [Node.isExpression, Bool.and_eq_true] at plain
    obtain ⟨callee', middle, arguments', first, second, rfl⟩ := walk_call_iff.1 h
    exact .call span (walk_operand callee plain.1 first (.nil _))
      (walkEach_operands arguments plain.2 second) later
  | list span items =>
    obtain ⟨items', inner, rfl⟩ := walk_list_iff.1 h
    exact .list span (walkEach_operands items plain inner) later
  | template | function | conditional | assign | write => simp [Node.isExpression] at plain
termination_by structural e

theorem walkEach_operands (es : List Node) {st last : State} {es' : List Node}
    (plain : Node.areExpressions es) (h : walkEach ctx es st = .ok (es', last)) :
    Operands ctx st es es' last := by
  cases es with
  | nil => cases h; exact .nil st
  | cons e rest =>
    rw [Node.areExpressions, Bool.and_eq_true] at plain
    obtain ⟨e', next, rest', first, later, rfl⟩ := walkEach_cons_iff.1 h
    exact walk_operand e plain.1 first (walkEach_operands rest plain.2 later)
termination_by structural es

end

theorem walk_operands {e e' : Node} {st next : State} (plain : e.isExpression)
    (h : walk ctx e st = .ok (e', next)) : Operands ctx st [e] [e'] next :=
  walk_operand e plain h (.nil next)

mutual

/-- Walking one statement, followed by others. -/
theorem walk_statement {ctx : Context} (n : Node) {st next last : State} {n' : Node}
    {rest rest' : List Node} (plain : n.isStatement)
    (h : walk ctx n st.beginStatement = .ok (n', next))
    (later : Statements ctx next.endStatement rest rest' last) :
    Statements ctx st (n :: rest) (next.frame.pending ++ n' :: rest') last := by
  cases n with
  | function span name block =>
    obtain ⟨body, scope⟩ := block
    rw [Node.isStatement, Bool.and_eq_true] at plain
    obtain ⟨walked, inner, inside, rfl, rfl⟩ := walk_function_iff.1 h
    exact .function span name (walkBlock_statements body plain.2 inside) later
  | conditional span condition thenBranch elseBranch =>
    obtain ⟨thenBody, thenScope⟩ := thenBranch
    cases elseBranch with
    | none =>
      simp only [Node.isStatement, Bool.and_eq_true] at plain
      obtain ⟨condition', tested, thenBody', inThen, test, thenSide, rfl, rfl⟩ :=
        walk_branch_iff.1 h
      have step := Statements.branch span (walk_operands plain.1.1 test)
        (walkBlock_statements thenBody plain.2 thenSide) later
      exact step
    | some block =>
      obtain ⟨elseBody, elseScope⟩ := block
      simp only [Node.isStatement, Bool.and_eq_true] at plain
      obtain ⟨condition', tested, thenBody', inThen, elseBody', inElse, test, thenSide, elseSide,
        rfl, rfl⟩ := walk_branches_iff.1 h
      have step := Statements.branches span (walk_operands plain.1.1.1.1 test)
        (walkBlock_statements thenBody plain.1.1.2 thenSide)
        (walkBlock_statements elseBody plain.2 elseSide) later
      exact step
  | assign span target value =>
    obtain ⟨value', next', inner, rfl, rfl⟩ := walk_assign_iff.1 h
    have step := Statements.assign span target (walk_operands plain inner) later
    exact step
  | write span operand =>
    obtain ⟨operand', inner, rfl⟩ := walk_write_iff.1 h
    exact .write span (walk_operands plain inner) later
  | template => simp [Node.isStatement] at plain
  | identifier | placeholder | literal | binary | filter | call | list =>
    exact .expression plain (walk_operands plain h) later
termination_by structural n

/-- A successful walk of a block of a source tree. -/
theorem walkBlock_statements {ctx : Context} (body : List Node) {st last : State}
    {out : List Node} (plain : Node.areStatements body)
    (h : walkBlock ctx body st = .ok (out, last)) : Statements ctx st body out last := by
  cases body with
  | nil => cases h; exact .nil ctx st
  | cons n rest =>
    rw [Node.areStatements, Bool.and_eq_true] at plain
    obtain ⟨n', next, rest', first, later, rfl⟩ := walkBlock_cons_iff.1 h
    exact walk_statement n plain.1 first (walkBlock_statements rest plain.2 later)
termination_by structural body

end

/-- Walking one expression is walking a list that has no other. -/
theorem walkEach_singleton_iff {e e' : Node} {st next : State} :
    walkEach ctx [e] st = .ok ([e'], next) ↔ walk ctx e st = .ok (e', next) := by
  rw [walkEach_cons_iff]
  constructor
  · rintro ⟨_, _, _, first, later, same⟩
    cases later
    cases same
    exact first
  · intro first
    exact ⟨_, _, _, first, rfl, rfl⟩

/-- The relation between expressions holds of nothing but their walk. -/
theorem Operands.walkEach_eq {st last : State} {es es' : List Node}
    (h : Operands ctx st es es' last) : walkEach ctx es st = .ok (es', last) := by
  induction h with
  | nil => rfl
  | identifier _ _ _ ih | literal _ _ _ ih => exact walkEach_cons_iff.2 ⟨_, _, _, rfl, ih, rfl⟩
  | placeholder read _ ih =>
    exact walkEach_cons_iff.2 ⟨_, _, _, walk_placeholder_iff.2 ⟨_, read, rfl⟩, ih, rfl⟩
  | binary _ _ _ _ _ first second ih =>
    rw [walkEach_singleton_iff] at first second
    exact walkEach_cons_iff.2 ⟨_, _, _, walk_binary_iff.2 ⟨_, _, _, _, first, second, rfl, rfl⟩, ih,
      rfl⟩
  | filter _ check cache _ inner ih =>
    rw [walkEach_singleton_iff] at inner
    refine walkEach_cons_iff.2 ⟨_, _, _, walk_filter_iff.2 ⟨_, _, _, _, inner, check, cache, ?_⟩,
      ih, rfl⟩
    rw [Option.or_none]
  | call _ _ _ _ first second ih =>
    rw [walkEach_singleton_iff] at first
    exact walkEach_cons_iff.2 ⟨_, _, _, walk_call_iff.2 ⟨_, _, _, first, second, rfl⟩, ih, rfl⟩
  | list _ _ _ inner ih =>
    exact walkEach_cons_iff.2 ⟨_, _, _, walk_list_iff.2 ⟨_, inner, rfl⟩, ih, rfl⟩

theorem Operands.walk_eq {st next : State} {e e' : Node} (h : Operands ctx st [e] [e'] next) :
    walk ctx e st = .ok (e', next) :=
  walkEach_singleton_iff.1 h.walkEach_eq

/-- The relation between statements holds of nothing but their walk. -/
theorem Statements.walkBlock_eq {ctx : Context} {st last : State} {source out : List Node}
    (h : Statements ctx st source out last) : walkBlock ctx source st = .ok (out, last) := by
  induction h with
  | nil => rfl
  | function _ _ _ _ inside ih =>
    exact walkBlock_cons_iff.2 ⟨_, _, _, walk_function_iff.2 ⟨_, _, inside, rfl, rfl⟩, ih, rfl⟩
  | branch _ test _ _ thenSide ih =>
    exact walkBlock_cons_iff.2 ⟨_, _, _,
      walk_branch_iff.2 ⟨_, _, _, _, test.walk_eq, thenSide, rfl, rfl⟩, ih, rfl⟩
  | branches _ test _ _ _ thenSide elseSide ih =>
    exact walkBlock_cons_iff.2 ⟨_, _, _,
      walk_branches_iff.2 ⟨_, _, _, _, _, _, test.walk_eq, thenSide, elseSide, rfl, rfl⟩, ih, rfl⟩
  | assign _ _ inner _ ih =>
    exact walkBlock_cons_iff.2 ⟨_, _, _, walk_assign_iff.2 ⟨_, _, inner.walk_eq, rfl, rfl⟩, ih, rfl⟩
  | write _ inner _ ih =>
    exact walkBlock_cons_iff.2 ⟨_, _, _, walk_write_iff.2 ⟨_, inner.walk_eq, rfl⟩, ih, rfl⟩
  | expression _ inner _ ih => exact walkBlock_cons_iff.2 ⟨_, _, _, inner.walk_eq, ih, rfl⟩

/-- Agreement on all that the rest of a walk depends on, the ledger of filters apart. -/
structure State.Alike (a b : State) : Prop where
  globals : a.globals = b.globals
  evaluation : a.evaluation = b.evaluation
  frame : a.frame = b.frame
  holders : a.holders = b.holders

theorem State.Alike.refl (st : State) : st.Alike st := ⟨rfl, rfl, rfl, rfl⟩

theorem recordFilter_alike {st next : State} {span : Span} {name : String}
    (h : st.recordFilter ctx span name = .ok next) : next.Alike st := by
  unfold State.recordFilter at h
  simp only at h
  split at h
  · unfold State.warn at h
    split at h
    · cases h
    · split at h <;> cases h <;> exact ⟨rfl, rfl, rfl, rfl⟩
  · cases h; exact ⟨rfl, rfl, rfl, rfl⟩
  · cases h; exact ⟨rfl, rfl, rfl, rfl⟩

theorem checkFilter_alike {st next : State} {span : Span} {operand : Node}
    (h : st.checkFilter ctx span operand = .ok next) : next.Alike st := by
  unfold State.checkFilter at h
  split at h
  · exact recordFilter_alike h
  · cases h; exact .refl st

/-- The three ways in which a placeholder is read. -/
theorem read_cases {st next : State} {span : Span} {name : String} {resolution : Resolution}
    (h : st.read ctx span name = .ok (resolution, next)) :
    (resolution.access = .direct name ∧ name ∈ st.frame.assigned ∧ next.Alike st) ∨
    (resolution.access = .dynamic ∧ next.Alike st) ∨
    ∃ alternative middle, resolution.access = .cached alternative ∧
      st.evaluation = .unconditional ∧ ctx.inFunction = true ∧ name ∉ ctx.assignedAnywhere ∧
      st.aliasFor ctx (.placeholder name) (State.lookupOf span name) = (alternative, middle) ∧
      next.Alike middle := by
  unfold State.read at h
  split at h
  · cases h
  · simp only [Except.ok.injEq, Prod.mk.injEq] at h
    obtain ⟨rfl, rfl⟩ := h
    unfold State.access
    split
    · rename_i direct
      exact .inl ⟨rfl, direct.1, ⟨rfl, rfl, rfl, rfl⟩⟩
    · split
      · rename_i aliased
        obtain ⟨mode, -, inside, free⟩ := aliased
        refine .inr (.inr ⟨_, _, rfl, ?_, inside, free, rfl, ⟨rfl, rfl, rfl, rfl⟩⟩)
        simpa [Evaluation.isUnconditional] using mode
      · exact .inr (.inl ⟨rfl, ⟨rfl, rfl, rfl, rfl⟩⟩)

/-- A filter is left as it is, or kept in an alias. -/
theorem cacheFilter_cases {st next : State} {span : Span} {operand : Node}
    {name cached : Option String} (h : st.cacheFilter ctx span operand name = (cached, next)) :
    (cached = none ∧ next = st) ∨
    ∃ source alternative, cached = some alternative ∧ st.evaluation = .unconditional ∧
      ctx.inFunction = true ∧ st.aliasedOperand? ctx operand = some source ∧
      st.aliasFor ctx (.filter name (.identifier source))
        (.filter span (.identifier .generated source) name none) = (alternative, next) := by
  unfold State.cacheFilter at h
  split at h
  · rename_i kept
    obtain ⟨-, mode, inside⟩ := kept
    split at h
    · cases h; exact .inl ⟨rfl, rfl⟩
    · rename_i source found
      cases h
      refine .inr ⟨source, _, rfl, ?_, inside, found, rfl⟩
      simpa [Evaluation.isUnconditional] using mode
  · cases h; exact .inl ⟨rfl, rfl⟩

/-- The alias of a computation is a visible one, or a new one whose name is free if none is
visible. -/
theorem aliasFor_cases {st next : State} {c : Computation} {value : Node} {name : String}
    (h : st.aliasFor ctx c value = (name, next)) :
    (next = st ∧ st.visibleAlias? ctx c = some name) ∨
    (next = { st with
        holders := st.holders.insert name c
        frame := st.frame.define c name value } ∧
      name = st.freshAlias ctx c ∧ st.visibleAlias? ctx c = none) := by
  unfold State.aliasFor at h
  split at h
  · rename_i found
    cases h
    exact .inl ⟨rfl, found⟩
  · rename_i unseen
    cases h
    exact .inr ⟨rfl, rfl, unseen⟩

/-- A computation that gets an alias is in sight, and what was in sight stays so. -/
theorem isSome_findSome_insert {maps : List AliasMap} {aliases : AliasMap} {c c' : Computation}
    {name : String} (h : c' = c ∨ ((aliases :: maps).findSome? (·.get? c')).isSome) :
    ((aliases.insert c name :: maps).findSome? (·.get? c')).isSome := by
  rw [List.findSome?_cons, OrderedMap.get?_insert]
  by_cases same : c = c'
  · rw [if_pos same]
    rfl
  · rw [if_neg same]
    rcases h with here | there
    · exact absurd here.symm same
    · rw [List.findSome?_cons] at there
      exact there

theorem aliasFor_evaluation {st next : State} {c : Computation} {value : Node} {name : String}
    (h : st.aliasFor ctx c value = (name, next)) : next.evaluation = st.evaluation := by
  rcases aliasFor_cases h with ⟨rfl, -⟩ | ⟨rfl, -⟩ <;> rfl

/-- An expression leaves the mode of evaluation as it was. -/
theorem Operands.evaluation_eq {st last : State} {es es' : List Node}
    (h : Operands ctx st es es' last) : last.evaluation = st.evaluation := by
  induction h with
  | nil => rfl
  | identifier _ _ _ ih | literal _ _ _ ih => exact ih
  | placeholder read _ ih =>
    rcases read_cases read with ⟨-, -, same⟩ | ⟨-, same⟩ | ⟨_, _, -, -, -, -, made, same⟩
    · exact ih.trans same.evaluation
    · exact ih.trans same.evaluation
    · exact ih.trans (same.evaluation.trans (aliasFor_evaluation made))
  | binary _ _ _ _ _ _ _ later => exact later
  | filter _ check cache _ inner later =>
    have before := (checkFilter_alike check).evaluation.trans inner
    rcases cacheFilter_cases cache with ⟨-, rfl⟩ | ⟨_, _, -, -, -, -, made⟩
    · exact later.trans before
    · exact later.trans ((aliasFor_evaluation made).trans before)
  | call _ _ _ _ first second later => exact later.trans (second.trans first)
  | list _ _ _ inner later => exact later.trans inner

/-- Outside functions, and where it may be left out, an expression introduces no alias. -/
theorem Operands.idle {st last : State} {es es' : List Node} (h : Operands ctx st es es' last)
    (quiet : ctx.inFunction = false ∨ st.evaluation = .conditional) :
    last.frame = st.frame ∧ last.holders = st.holders := by
  have impossible {mode : Evaluation}
      (quiet : ctx.inFunction = false ∨ mode = .conditional) (inside : ctx.inFunction = true)
      (always : mode = .unconditional) : False := by
    rcases quiet with outside | skipped
    · rw [outside] at inside; cases inside
    · rw [skipped] at always; cases always
  induction h with
  | nil => exact ⟨rfl, rfl⟩
  | identifier _ _ _ ih | literal _ _ _ ih => exact ih quiet
  | placeholder read _ ih =>
    rcases read_cases read with ⟨-, -, same⟩ | ⟨-, same⟩ | ⟨_, _, -, always, inside, -⟩
    · rw [← same.frame, ← same.holders]
      exact ih (same.evaluation ▸ quiet)
    · rw [← same.frame, ← same.holders]
      exact ih (same.evaluation ▸ quiet)
    · exact (impossible quiet inside always).elim
  | @binary st _ _ _ _ _ _ _ _ _ _ op _ _ _ first second later =>
    obtain ⟨frame₁, holders₁⟩ := first quiet
    have right : ctx.inFunction = false ∨ st.evaluation.rightOperand op = .conditional := by
      rcases quiet with outside | skipped
      · exact .inl outside
      · rw [skipped]
        cases op <;> exact .inr rfl
    obtain ⟨frame₂, holders₂⟩ := second right
    obtain ⟨frame₃, holders₃⟩ := later quiet
    exact ⟨frame₃.trans (frame₂.trans frame₁), holders₃.trans (holders₂.trans holders₁)⟩
  | filter inside check cache _ inner later =>
    obtain ⟨frame₁, holders₁⟩ := inner quiet
    have same := checkFilter_alike check
    have mode := same.evaluation.trans inside.evaluation_eq
    rcases cacheFilter_cases cache with ⟨-, rfl⟩ | ⟨_, _, -, always, inFunction, -⟩
    · obtain ⟨frame₂, holders₂⟩ := later (mode ▸ quiet)
      exact ⟨frame₂.trans (same.frame.trans frame₁), holders₂.trans (same.holders.trans holders₁)⟩
    · exact (impossible quiet inFunction (mode ▸ always)).elim
  | call _ firstWalk secondWalk _ first second later =>
    obtain ⟨frame₁, holders₁⟩ := first quiet
    obtain ⟨frame₂, holders₂⟩ := second (firstWalk.evaluation_eq ▸ quiet)
    obtain ⟨frame₃, holders₃⟩ :=
      later (secondWalk.evaluation_eq ▸ firstWalk.evaluation_eq ▸ quiet)
    exact ⟨frame₃.trans (frame₂.trans frame₁), holders₃.trans (holders₂.trans holders₁)⟩
  | list _ innerWalk _ inner later =>
    obtain ⟨frame₁, holders₁⟩ := inner quiet
    obtain ⟨frame₂, holders₂⟩ := later (innerWalk.evaluation_eq ▸ quiet)
    exact ⟨frame₂.trans frame₁, holders₂.trans holders₁⟩

/-- Outside functions an expression leaves the frame as it is. -/
theorem Operands.frame_outside {st last : State} {es es' : List Node}
    (h : Operands ctx st es es' last) (outside : ctx.inFunction = false) :
    last.frame = st.frame := (h.idle (.inl outside)).1

/-- Outside functions nothing has to be put in front of a statement. -/
theorem walk_pending_outside {n n' : Node} {st next : State} (plain : n.isStatement)
    (outside : ctx.inFunction = false) (h : walk ctx n st = .ok (n', next)) :
    next.frame.pending = st.frame.pending := by
  cases n with
  | function span name block =>
    obtain ⟨body, scope⟩ := block
    obtain ⟨walked, inner, -, -, rfl⟩ := walk_function_iff.1 h
    rfl
  | conditional span condition thenBranch elseBranch =>
    obtain ⟨thenBody, thenScope⟩ := thenBranch
    cases elseBranch with
    | none =>
      simp only [Node.isStatement, Bool.and_eq_true] at plain
      obtain ⟨condition', tested, thenBody', inThen, test, -, -, rfl⟩ := walk_branch_iff.1 h
      change tested.frame.pending = _
      rw [(walk_operands plain.1.1 test).frame_outside outside]
    | some block =>
      obtain ⟨elseBody, elseScope⟩ := block
      simp only [Node.isStatement, Bool.and_eq_true] at plain
      obtain ⟨condition', tested, thenBody', inThen, elseBody', inElse, test, -, -, -, rfl⟩ :=
        walk_branches_iff.1 h
      change tested.frame.pending = _
      rw [(walk_operands plain.1.1.1.1 test).frame_outside outside]
  | assign span target value =>
    obtain ⟨value', next', inner, rfl, rfl⟩ := walk_assign_iff.1 h
    change next'.frame.pending = _
    rw [(walk_operands plain inner).frame_outside outside]
  | write span operand =>
    obtain ⟨operand', inner, rfl⟩ := walk_write_iff.1 h
    rw [(walk_operands plain inner).frame_outside outside]
  | template => simp [Node.isStatement] at plain
  | identifier | placeholder | literal | binary | filter | call | list =>
    rw [(walk_operands plain h).frame_outside outside]

theorem endStatement_of_pending {st : State} (h : st.frame.pending = []) :
    st.endStatement = st := by
  cases st with
  | mk _ _ frame _ _ _ _ =>
    cases frame with
    | mk => simp only [State.endStatement] at h ⊢; rw [h]

/-- The body of a template is walked like a block of which nothing is cached. -/
theorem walkTemplate_statements (outside : ctx.inFunction = false) (body : List Node)
    {st last : State} {out : List Node} (plain : Node.areStatements body)
    (empty : st.frame.pending = []) (h : walkTemplate ctx body st = .ok (out, last)) :
    Statements ctx st body out last := by
  induction body generalizing st out with
  | nil => cases h; exact .nil ctx last
  | cons n rest ih =>
    rw [Node.areStatements, Bool.and_eq_true] at plain
    obtain ⟨n', next, rest', first, later, rfl⟩ := walkTemplate_cons_iff.1 h
    have still : next.frame.pending = [] := (walk_pending_outside plain.1 outside first).trans empty
    have step := walk_statement n plain.1 first
      ((endStatement_of_pending still).symm ▸ ih plain.2 still later)
    rwa [still, List.nil_append] at step

/-- A successful analysis of a source tree, from its start on to the report. -/
theorem analyze_started {options : Options} {root : Node} {analysis : Analysis}
    (source : root.isSource) (h : root.analyze options = .ok analysis) :
    ∃ out last,
      Statements (.top options) { State.start with globals := root.globals } root.top out last ∧
      root.Retopped out analysis.tree ∧ last.warnings = analysis.warnings ∧
      last.reads = analysis.reads := by
  unfold Node.analyze at h
  rw [bind_eq_ok] at h
  obtain ⟨⟨tree, last⟩, walked, h⟩ := h
  cases h
  have alone (n : Node) (plain : n.isStatement)
      (walked : walk (.top options) n State.start.beginStatement = .ok (tree, last)) :
      Statements (.top options) State.start [n] [tree] last.endStatement := by
    have step := walk_statement n plain walked (.nil _ _)
    have empty : last.frame.pending = [] := walk_pending_outside plain rfl walked
    rwa [empty] at step
  cases root with
  | template span name globals body =>
    obtain ⟨body', inside, rfl⟩ := walk_template_iff.1 walked
    have statements := walkTemplate_statements rfl body source rfl inside
    exact ⟨body', _, statements, .template span name globals body body', rfl, rfl⟩
  | function | conditional | assign | identifier | placeholder | literal | binary | filter | call
  | list | write =>
    simp only [Node.isSource, Node.top, Node.areStatements, Bool.and_true] at source
    exact ⟨_, _, alone _ source walked, .alone rfl tree, rfl, rfl⟩

/-- The same, from what is known at the top on. -/
theorem analyze_walked {options : Options} {root : Node} {analysis : Analysis}
    (source : root.isSource) (h : root.analyze options = .ok analysis) :
    ∃ first out last, Statements (.top options) first root.top out last ∧
      first.frame = State.start.frame ∧ first.holders = ∅ ∧ first.globals = root.globals ∧
      root.Retopped out analysis.tree ∧ last.warnings = analysis.warnings := by
  obtain ⟨out, last, statements, tree, warnings, -⟩ := analyze_started source h
  exact ⟨_, out, last, statements, rfl, rfl, rfl, tree, warnings⟩

/-- The same without the report. -/
theorem analyze_statements {options : Options} {root : Node} {analysis : Analysis}
    (source : root.isSource) (h : root.analyze options = .ok analysis) :
    ∃ first out last, Statements (.top options) first root.top out last ∧
      first.frame = State.start.frame ∧ first.holders = ∅ ∧ first.globals = root.globals ∧
      root.Retopped out analysis.tree := by
  obtain ⟨first, out, last, statements, frame, holders, globals, tree, -⟩ := analyze_walked source h
  exact ⟨first, out, last, statements, frame, holders, globals, tree⟩

end Stencil.Analysis
