import Stencil.Proofs.Execution
import Mathlib.Data.List.Forall2

/-!
# Optimised forms of a body

An optimised body is the source body with notes on its expressions and with definitions of aliases
put in between. `Expanded` says so statement by statement, and says what makes the notes sound: an
alias is read only where its definition has run, and it holds the value of the computation that the
table of the function gives for it. Both passes of the optimiser produce such bodies, and a run
depends on nothing else.

`Node.savings` weighs a body: what its notes save for certain, less what its definitions cost.
-/

namespace Stencil

/-- The computation behind each alias of a function. -/
abbrev AliasTable := String → Option Computation

/-- The aliases of a scope are those of the table. -/
def Scope.Lists (table : AliasTable) (scope : Scope) : Prop :=
  ∀ entry ∈ scope.aliases.toList, table entry.2 = some entry.1

namespace Node

mutual

/-- An expression with nothing noted on it. -/
def bare : Node → Node
  | .placeholder span name _ => .placeholder span name none
  | .binary span op left right => .binary span op left.bare right.bare
  | .filter span operand name _ => .filter span operand.bare name none
  | .call span callee arguments => .call span callee.bare (bareEach arguments)
  | .list span items => .list span (bareEach items)
  | n@(.template ..) | n@(.function ..) | n@(.conditional ..) | n@(.assign ..) | n@(.write ..)
  | n@(.identifier ..) | n@(.literal ..) => n
termination_by structural n => n

/-- Expressions with nothing noted on them. -/
def bareEach : List Node → List Node
  | [] => []
  | n :: rest => n.bare :: bareEach rest
termination_by structural ns => ns

end

/-- Whether an operand stands for a variable. -/
def standsFor (source : String) : Node → Prop
  | .identifier _ name => name = source
  | .placeholder _ _ resolution => ∃ eligible, resolution = some ⟨eligible, .cached source⟩
  | _ => False

end Node

section Notes

variable (table : AliasTable) (assigned : Assigned String) (defined : List String)

/-- A note on a placeholder that gives it its own value, where the given names are assigned and the
given aliases defined. -/
def Access.Sound (name : String) : Access → Prop
  | .dynamic => True
  | .direct source => source = name ∧ name ∈ assigned
  | .cached source => source ∈ defined ∧ table source = some (.placeholder name)

mutual

/-- An expression with sound notes, and no statement inside. -/
def Node.Resolved : Node → Prop
  | .identifier .. | .literal .. => True
  | .placeholder _ name resolution =>
    ∀ r, resolution = some r → r.access.Sound table assigned defined name
  | .binary _ _ left right => left.Resolved ∧ right.Resolved
  | .filter _ operand name cachedAs =>
    operand.Resolved ∧ ∀ kept, cachedAs = some kept → kept ∈ defined ∧
      ∃ source, table kept = some (.filter name (.identifier source)) ∧ operand.standsFor source
  | .call _ callee arguments => callee.Resolved ∧ Node.ResolvedEach arguments
  | .list _ items => Node.ResolvedEach items
  | .template .. | .function .. | .conditional .. | .assign .. | .write .. => False
termination_by structural n => n

/-- Sound notes throughout. -/
def Node.ResolvedEach : List Node → Prop
  | [] => True
  | n :: rest => n.Resolved ∧ Node.ResolvedEach rest
termination_by structural ns => ns

end

/-- An expression and its optimised form. -/
structure Annotated (e e' : Node) : Prop where
  bare : e'.bare = e
  resolved : e'.Resolved table assigned defined

/-- The definition of an alias where the given aliases are defined. -/
inductive Definition : Computation → Node → Prop
  | lookup (span : Span) (name : String) :
      Definition (.placeholder name) (Analysis.State.lookupOf span name)
  | filter {source : String} (span place : Span) (name : Option String) (ready : source ∈ defined)
      (held : (table source).isSome) :
      Definition (.filter name (.identifier source))
        (.filter span (.identifier place source) name none)

end Notes

section Savings

variable (p : Step → Bool)

/-- How much work of a kind a step is. -/
def Step.price (step : Step) : Nat := (p step).toNat

mutual

/-- How much work of a kind the notes on an expression save for certain. The right operand of `and`
and of `or` saves nothing for certain. -/
def Node.credit : Node → Nat
  | .placeholder _ name (some ⟨_, .cached _⟩) => (Step.lookup name).price p
  | .binary _ op left right => left.credit + if op = .and ∨ op = .or then 0 else right.credit
  | .filter _ operand name (some _) => operand.credit + (Step.filter name).price p
  | .filter _ operand _ none => operand.credit
  | .call _ callee arguments => callee.credit + Node.creditEach arguments
  | .list _ items => Node.creditEach items
  | .placeholder .. | .identifier .. | .literal .. | .template .. | .function .. | .conditional ..
  | .assign .. | .write .. => 0
termination_by structural n => n

/-- How much work of a kind the notes on expressions save for certain. -/
def Node.creditEach : List Node → Nat
  | [] => 0
  | n :: rest => n.credit + Node.creditEach rest
termination_by structural ns => ns

end

/-- How much work of a kind the definition of an alias takes. -/
def Computation.price : Computation → Nat
  | .placeholder name => (Step.lookup name).price p
  | .filter name _ => (Step.filter name).price p
  | _ => 0

variable (table : AliasTable)

mutual

/-- How much work of a kind a statement saves on every run, definitions of aliases counted
against it. -/
def Node.savings : Node → Int
  | .assign _ target value =>
    match table target with
    | some c => -(c.price p)
    | none => value.credit p
  | .write _ operand => operand.credit p
  | .conditional _ condition ⟨thenBody, _⟩ none =>
    condition.credit p + min (Node.savingsOf thenBody) 0
  | .conditional _ condition ⟨thenBody, _⟩ (some ⟨elseBody, _⟩) =>
    condition.credit p + min (Node.savingsOf thenBody) (Node.savingsOf elseBody)
  | .function .. | .template .. => 0
  | n@(.identifier ..) | n@(.placeholder ..) | n@(.literal ..) | n@(.binary ..) | n@(.filter ..)
  | n@(.call ..) | n@(.list ..) => n.credit p
termination_by structural n => n

/-- How much work of a kind statements save on every run. -/
def Node.savingsOf : List Node → Int
  | [] => 0
  | n :: rest => n.savings + Node.savingsOf rest
termination_by structural ns => ns

end

theorem savingsOf_append (a b : List Node) :
    Node.savingsOf p table (a ++ b) = Node.savingsOf p table a + Node.savingsOf p table b := by
  induction a with
  | nil => simp [Node.savingsOf]
  | cons n rest ih => simp only [List.cons_append, Node.savingsOf, ih, Int.add_assoc]

end Savings

/-- The placeholders that aliases of the table stand for are read in the body, and the body never
assigns them. -/
def AliasTable.Constant (table : AliasTable) (body : List Node) : Prop :=
  ∀ alternative name, table alternative = some (.placeholder name) →
    name ∈ Node.mentionsOf body ∧ name ∉ Node.assignmentsOf body

/-- Source statements and their optimised form. The first two of the lists are the names that are
assigned and the variables that earlier statements of the block and of the blocks around it set;
the last one is the names that are assigned afterwards. -/
inductive Expanded : AliasTable → Assigned String → List String → List Node → List Node →
    Assigned String → Prop
  | nil (table : AliasTable) (assigned : Assigned String) (defined : List String) :
      Expanded table assigned defined [] [] assigned
  | define {table : AliasTable} {assigned after : Assigned String} {defined : List String}
      {source out : List Node} {alternative : String} {c : Computation} {value : Node} (span : Span)
      (held : table alternative = some c) (definition : Definition table defined c value)
      (later : Expanded table assigned (defined ++ [alternative]) source out after) :
      Expanded table assigned defined source (.assign span alternative value :: out) after
  | assign {table : AliasTable} {assigned after : Assigned String} {defined : List String}
      {source out : List Node} {target : String} {value value' : Node} (span : Span)
      (free : table target = none) (noted : Annotated table assigned defined value value')
      (later : Expanded table (assigned.insert target) (defined ++ [target]) source out after) :
      Expanded table assigned defined (.assign span target value :: source)
        (.assign span target value' :: out) after
  | write {table : AliasTable} {assigned after : Assigned String} {defined : List String}
      {source out : List Node} {operand operand' : Node} (span : Span)
      (noted : Annotated table assigned defined operand operand')
      (later : Expanded table assigned defined source out after) :
      Expanded table assigned defined (.write span operand :: source)
        (.write span operand' :: out) after
  | expression {table : AliasTable} {assigned after : Assigned String} {defined : List String}
      {source out : List Node} {e e' : Node} (noted : Annotated table assigned defined e e')
      (later : Expanded table assigned defined source out after) :
      Expanded table assigned defined (e :: source) (e' :: out) after
  | branch {table : AliasTable} {assigned inThen after : Assigned String} {defined : List String}
      {source out thenBody thenBody' : List Node} {condition condition' : Node}
      {thenScope thenScope' : Scope} (span : Span)
      (noted : Annotated table assigned defined condition condition')
      (thenLists : thenScope'.Lists table)
      (thenSide : Expanded table assigned defined thenBody thenBody' inThen)
      (later : Expanded table (assigned.join [inThen, assigned]) defined source out after) :
      Expanded table assigned defined
        (.conditional span condition ⟨thenBody, thenScope⟩ none :: source)
        (.conditional span condition' ⟨thenBody', thenScope'⟩ none :: out) after
  | branches {table : AliasTable} {assigned inThen inElse after : Assigned String}
      {defined : List String} {source out thenBody thenBody' elseBody elseBody' : List Node}
      {condition condition' : Node} {thenScope thenScope' elseScope elseScope' : Scope}
      (span : Span) (noted : Annotated table assigned defined condition condition')
      (thenLists : thenScope'.Lists table) (elseLists : elseScope'.Lists table)
      (thenSide : Expanded table assigned defined thenBody thenBody' inThen)
      (elseSide : Expanded table assigned defined elseBody elseBody' inElse)
      (later : Expanded table (assigned.join [inThen, inElse]) defined source out after) :
      Expanded table assigned defined
        (.conditional span condition ⟨thenBody, thenScope⟩ (some ⟨elseBody, elseScope⟩) :: source)
        (.conditional span condition' ⟨thenBody', thenScope'⟩ (some ⟨elseBody', elseScope'⟩) :: out)
        after
  | function {table inner : AliasTable} {assigned inside after : Assigned String}
      {defined : List String} {source out body body' : List Node} {scope scope' : Scope}
      (span : Span) (name : String) (constant : inner.Constant body) (lists : scope'.Lists inner)
      (affordable : ∀ p, 0 ≤ Node.savingsOf p inner body')
      (within : Expanded inner (.ofList scope.locals.toList) [] body body' inside)
      (later : Expanded table assigned defined source out after) :
      Expanded table assigned defined (.function span name ⟨body, scope⟩ :: source)
        (.function span name ⟨body', scope'⟩ :: out) after

section Monotone

variable {table : AliasTable} {assigned : Assigned String} {defined more : List String}

theorem Access.Sound.mono {name : String} {access : Access}
    (h : access.Sound table assigned defined name) (sub : defined ⊆ more) :
    access.Sound table assigned more name := by
  cases access with
  | dynamic => trivial
  | direct source => exact h
  | cached source => exact ⟨sub h.1, h.2⟩

mutual

theorem Node.Resolved.mono (sub : defined ⊆ more) (e : Node)
    (h : e.Resolved table assigned defined) : e.Resolved table assigned more := by
  cases e with
  | identifier | literal => trivial
  | placeholder span name resolution => exact fun r same => (h r same).mono sub
  | binary span op left right =>
    exact ⟨Node.Resolved.mono sub left h.1, Node.Resolved.mono sub right h.2⟩
  | filter span operand name cachedAs =>
    refine ⟨Node.Resolved.mono sub operand h.1, fun kept same => ?_⟩
    obtain ⟨ready, held⟩ := h.2 kept same
    exact ⟨sub ready, held⟩
  | call span callee arguments =>
    exact ⟨Node.Resolved.mono sub callee h.1, Node.ResolvedEach.mono sub arguments h.2⟩
  | list span items => exact Node.ResolvedEach.mono sub items h
  | template | function | conditional | assign | write => exact h.elim
termination_by structural e

theorem Node.ResolvedEach.mono (sub : defined ⊆ more) (es : List Node)
    (h : Node.ResolvedEach table assigned defined es) :
    Node.ResolvedEach table assigned more es := by
  cases es with
  | nil => trivial
  | cons e rest => exact ⟨Node.Resolved.mono sub e h.1, Node.ResolvedEach.mono sub rest h.2⟩
termination_by structural es

end

theorem Annotated.mono {e e' : Node} (h : Annotated table assigned defined e e')
    (sub : defined ⊆ more) : Annotated table assigned more e e' :=
  ⟨h.bare, Node.Resolved.mono sub e' h.resolved⟩

theorem Definition.mono {c : Computation} {value : Node} (h : Definition table defined c value)
    (sub : defined ⊆ more) : Definition table more c value := by
  cases h with
  | lookup span name => exact .lookup span name
  | filter span place name ready held => exact .filter span place name (sub ready) held

theorem append_singleton_subset (sub : defined ⊆ more) (name : String) :
    defined ++ [name] ⊆ more ++ [name] := by
  intro other member
  rcases List.mem_append.1 member with old | new
  · exact List.mem_append_left _ (sub old)
  · exact List.mem_append_right _ new

/-- More definitions in front do no harm. -/
theorem Expanded.mono {after : Assigned String} {source out : List Node}
    (h : Expanded table assigned defined source out after) (sub : defined ⊆ more) :
    Expanded table assigned more source out after := by
  induction h generalizing more with
  | nil => exact .nil _ _ _
  | define span held definition _ ih =>
    exact .define span held (definition.mono sub) (ih (append_singleton_subset sub _))
  | assign span free noted _ ih =>
    exact .assign span free (noted.mono sub) (ih (append_singleton_subset sub _))
  | write span noted _ ih => exact .write span (noted.mono sub) (ih sub)
  | expression noted _ ih => exact .expression (noted.mono sub) (ih sub)
  | branch span noted lists _ _ thenSide ih =>
    exact .branch span (noted.mono sub) lists (thenSide sub) (ih sub)
  | branches span noted thenLists elseLists _ _ _ thenSide elseSide ih =>
    exact .branches span (noted.mono sub) thenLists elseLists (thenSide sub) (elseSide sub) (ih sub)
  | function span name constant lists affordable within _ _ ih =>
    exact .function span name constant lists affordable within (ih sub)

end Monotone

/-- The variables that statements of a list set. -/
def Node.targets (body : List Node) : List String := body.filterMap Node.target?

theorem Node.targets_snoc (body : List Node) (span : Span) (target : String) (value : Node) :
    Node.targets (body ++ [.assign span target value]) = Node.targets body ++ [target] :=
  List.filterMap_append

/-- Definitions of aliases one after another, where the given aliases are defined in front. -/
inductive Definitions (table : AliasTable) : List String → List Node → Prop
  | nil (defined : List String) : Definitions table defined []
  | cons {defined : List String} {alternative : String} {c : Computation} {value : Node}
      {rest : List Node} (span : Span) (held : table alternative = some c)
      (definition : Definition table defined c value)
      (later : Definitions table (defined ++ [alternative]) rest) :
      Definitions table defined (.assign span alternative value :: rest)

section Definitions

variable {table : AliasTable} {assigned after : Assigned String} {defined : List String}

/-- One more definition at the end. -/
theorem Definitions.snoc {body : List Node} {alternative : String} {c : Computation} {value : Node}
    (h : Definitions table defined body) (span : Span) (held : table alternative = some c)
    (definition : Definition table (defined ++ Node.targets body) c value) :
    Definitions table defined (body ++ [.assign span alternative value]) := by
  induction h with
  | nil defined =>
    rw [Node.targets, List.filterMap_nil, List.append_nil] at definition
    exact .cons span held definition (.nil _)
  | @cons defined first _ value' rest span' held' definition' _ ih =>
    refine .cons span' held' definition' (ih ?_)
    rw [List.append_assoc]
    exact definition

/-- Definitions in front of statements. -/
theorem Definitions.expanded {body source out : List Node} (h : Definitions table defined body)
    (later : Expanded table assigned (defined ++ Node.targets body) source out after) :
    Expanded table assigned defined source (body ++ out) after := by
  induction h with
  | nil defined =>
    rw [Node.targets, List.filterMap_nil, List.append_nil] at later
    exact later
  | @cons defined first _ value rest span held definition _ ih =>
    refine .define span held definition (ih ?_)
    rw [List.append_assoc]
    exact later

end Definitions

section Expressions

variable {table : AliasTable} {assigned : Assigned String} {defined : List String}

mutual

/-- An expression without notes is an expression with sound ones. -/
theorem Node.Resolved.bare (e : Node) (h : e.Resolved table assigned defined) :
    e.bare.Resolved table assigned defined := by
  cases e with
  | identifier | literal => trivial
  | placeholder span name resolution => exact fun r same => by cases same
  | binary span op left right =>
    exact ⟨Node.Resolved.bare left h.1, Node.Resolved.bare right h.2⟩
  | filter span operand name cachedAs =>
    exact ⟨Node.Resolved.bare operand h.1, fun kept same => by cases same⟩
  | call span callee arguments =>
    exact ⟨Node.Resolved.bare callee h.1, Node.ResolvedEach.bare arguments h.2⟩
  | list span items => exact Node.ResolvedEach.bare items h
  | template | function | conditional | assign | write => exact h.elim
termination_by structural e

theorem Node.ResolvedEach.bare (es : List Node) (h : Node.ResolvedEach table assigned defined es) :
    Node.ResolvedEach table assigned defined (Node.bareEach es) := by
  cases es with
  | nil => trivial
  | cons e rest => exact ⟨Node.Resolved.bare e h.1, Node.ResolvedEach.bare rest h.2⟩
termination_by structural es

end

mutual

theorem Node.Resolved.assignments_eq (e : Node) (h : e.Resolved table assigned defined) :
    e.assignments = [] := by
  cases e with
  | identifier | literal | placeholder => rfl
  | binary span op left right =>
    rw [Node.assignments, Node.Resolved.assignments_eq left h.1,
      Node.Resolved.assignments_eq right h.2, List.append_nil]
  | filter span operand name cachedAs => exact Node.Resolved.assignments_eq operand h.1
  | call span callee arguments =>
    rw [Node.assignments, Node.Resolved.assignments_eq callee h.1,
      Node.ResolvedEach.assignmentsOf_eq arguments h.2, List.append_nil]
  | list span items => exact Node.ResolvedEach.assignmentsOf_eq items h
  | template | function | conditional | assign | write => exact h.elim
termination_by structural e

theorem Node.ResolvedEach.assignmentsOf_eq (es : List Node)
    (h : Node.ResolvedEach table assigned defined es) : Node.assignmentsOf es = [] := by
  cases es with
  | nil => rfl
  | cons e rest =>
    rw [Node.assignmentsOf, Node.Resolved.assignments_eq e h.1,
      Node.ResolvedEach.assignmentsOf_eq rest h.2, List.append_nil]
termination_by structural es

end

mutual

theorem Node.Resolved.functions_eq (e : Node) (h : e.Resolved table assigned defined) :
    e.functions = [] := by
  cases e with
  | identifier | literal | placeholder => rfl
  | binary span op left right =>
    have first := Node.Resolved.functions_eq left h.1
    have second := Node.Resolved.functions_eq right h.2
    rw [Node.functions] at first second ⊢
    rw [Node.preorder, List.filterMap_cons_none rfl, List.filterMap_append, first, second,
      List.append_nil]
  | filter span operand name cachedAs => exact Node.Resolved.functions_eq operand h.1
  | call span callee arguments =>
    have first := Node.Resolved.functions_eq callee h.1
    have second := Node.ResolvedEach.functionsOf_eq arguments h.2
    rw [Node.functions] at first ⊢
    rw [Node.functionsOf] at second
    rw [Node.preorder, List.filterMap_cons_none rfl, List.filterMap_append, first, second,
      List.append_nil]
  | list span items => exact Node.ResolvedEach.functionsOf_eq items h
  | template | function | conditional | assign | write => exact h.elim
termination_by structural e

theorem Node.ResolvedEach.functionsOf_eq (es : List Node)
    (h : Node.ResolvedEach table assigned defined es) : Node.functionsOf es = [] := by
  cases es with
  | nil => rfl
  | cons e rest =>
    rw [Node.functionsOf_cons, Node.Resolved.functions_eq e h.1,
      Node.ResolvedEach.functionsOf_eq rest h.2, List.append_nil]
termination_by structural es

end

mutual

@[simp]
theorem Node.mentions_bare (e : Node) : e.bare.mentions = e.mentions := by
  cases e with
  | identifier | literal | placeholder | template | function | conditional | assign | write => rfl
  | binary span op left right =>
    rw [Node.bare, Node.mentions, Node.mentions, Node.mentions_bare left, Node.mentions_bare right]
  | filter span operand name cachedAs => exact Node.mentions_bare operand
  | call span callee arguments =>
    rw [Node.bare, Node.mentions, Node.mentions, Node.mentions_bare callee,
      Node.mentionsOf_bareEach arguments]
  | list span items => exact Node.mentionsOf_bareEach items
termination_by structural e

theorem Node.mentionsOf_bareEach (es : List Node) :
    Node.mentionsOf (Node.bareEach es) = Node.mentionsOf es := by
  cases es with
  | nil => rfl
  | cons e rest =>
    rw [Node.bareEach, Node.mentionsOf, Node.mentionsOf, Node.mentions_bare e,
      Node.mentionsOf_bareEach rest]
termination_by structural es

end

theorem Node.Resolved.savings_eq {e : Node} (h : e.Resolved table assigned defined)
    (p : Step → Bool) (table' : AliasTable) : e.savings p table' = e.credit p := by
  cases e with
  | identifier | literal | placeholder | binary | filter | call | list => rfl
  | template | function | conditional | assign | write => exact h.elim

theorem Annotated.assignments_eq {e e' : Node} (h : Annotated table assigned defined e e') :
    e.assignments = [] := by
  rw [← h.bare]
  exact Node.Resolved.assignments_eq _ (Node.Resolved.bare e' h.resolved)

theorem Annotated.functions_eq {e e' : Node} (h : Annotated table assigned defined e e') :
    e.functions = [] ∧ e'.functions = [] := by
  constructor
  · rw [← h.bare]
    exact Node.Resolved.functions_eq _ (Node.Resolved.bare e' h.resolved)
  · exact Node.Resolved.functions_eq e' h.resolved

theorem Definition.functions_eq {c : Computation} {value : Node}
    (h : Definition table defined c value) : value.functions = [] := by
  cases h with
  | lookup | filter => rfl

theorem Annotated.target_eq {e e' : Node} (h : Annotated table assigned defined e e') :
    e'.target? = none := by
  have resolved := h.resolved
  cases e' with
  | identifier | literal | placeholder | binary | filter | call | list => rfl
  | template | function | conditional | assign | write => exact resolved.elim

theorem Annotated.mentions_eq {e e' : Node} (h : Annotated table assigned defined e e') :
    e.mentions = e'.mentions := by
  rw [← h.bare, Node.mentions_bare]

end Expressions

/-- A function and its optimised form. -/
structure Optimizes (table : AliasTable) (after : Assigned String) (source optimized : Block Node) :
    Prop where
  constant : table.Constant source.body
  lists : optimized.scope.Lists table
  affordable : ∀ p, 0 ≤ Node.savingsOf p table optimized.body
  expanded : Expanded table (.ofList source.scope.locals.toList) [] source.body optimized.body after

section Expanded

variable {table : AliasTable} {assigned after : Assigned String} {defined : List String}
  {source out : List Node}

/-- What is assigned stays assigned. -/
theorem Expanded.assigned_subset (h : Expanded table assigned defined source out after)
    {name : String} (there : name ∈ assigned) : name ∈ after := by
  induction h with
  | nil => exact there
  | define _ _ _ _ ih | write _ _ _ ih | expression _ _ ih => exact ih there
  | assign _ _ _ _ ih => exact ih (Assigned.mem_insert.2 (.inl there))
  | branch _ _ _ _ _ _ ih => exact ih (Assigned.mem_join.2 (.inl there))
  | branches _ _ _ _ _ _ _ _ _ ih => exact ih (Assigned.mem_join.2 (.inl there))
  | function _ _ _ _ _ _ _ _ ih => exact ih there

/-- No variable of the source is an alias. -/
theorem Expanded.target_free (h : Expanded table assigned defined source out after) {name : String}
    (target : name ∈ Node.assignmentsOf source) : table name = none := by
  induction h with
  | nil => cases target
  | define _ _ _ _ ih => exact ih target
  | assign _ free noted _ ih =>
    rw [Node.assignmentsOf, Node.assignments, noted.assignments_eq, List.mem_append,
      List.mem_singleton] at target
    rcases target with rfl | target
    · exact free
    · exact ih target
  | write _ noted _ ih =>
    rw [Node.assignmentsOf, Node.assignments, noted.assignments_eq, List.nil_append] at target
    exact ih target
  | expression noted _ ih =>
    rw [Node.assignmentsOf, noted.assignments_eq, List.nil_append] at target
    exact ih target
  | branch _ noted _ _ _ thenSide ih =>
    rw [Node.assignmentsOf, Node.assignments, noted.assignments_eq, List.nil_append,
      List.mem_append] at target
    rcases target with target | target
    · exact thenSide target
    · exact ih target
  | branches _ noted _ _ _ _ _ thenSide elseSide ih =>
    rw [Node.assignmentsOf, Node.assignments, noted.assignments_eq, List.nil_append,
      List.mem_append, List.mem_append] at target
    rcases target with (target | target) | target
    · exact thenSide target
    · exact elseSide target
    · exact ih target
  | function _ _ _ _ _ _ _ _ ih => exact ih target

/-- The functions of the source and of its optimised form correspond in document order. -/
theorem Expanded.functions (h : Expanded table assigned defined source out after) :
    List.Forall₂ (fun f g => ∃ table after, Optimizes table after f g) (Node.functionsOf source)
      (Node.functionsOf out) := by
  induction h with
  | nil => exact .nil
  | define _ _ definition _ ih =>
    rw [Node.functionsOf_cons, Node.functions_assign, definition.functions_eq]
    exact ih
  | assign _ _ noted _ ih =>
    obtain ⟨left, right⟩ := noted.functions_eq
    rw [Node.functionsOf_cons, Node.functionsOf_cons, Node.functions_assign, Node.functions_assign,
      left, right]
    exact ih
  | write _ noted _ ih =>
    obtain ⟨left, right⟩ := noted.functions_eq
    rw [Node.functionsOf_cons, Node.functionsOf_cons, Node.functions_write, Node.functions_write,
      left, right]
    exact ih
  | expression noted _ ih =>
    obtain ⟨left, right⟩ := noted.functions_eq
    rw [Node.functionsOf_cons, Node.functionsOf_cons, left, right]
    exact ih
  | branch _ noted _ _ _ thenSide ih =>
    obtain ⟨left, right⟩ := noted.functions_eq
    rw [Node.functionsOf_cons, Node.functionsOf_cons, Node.functions_branch, Node.functions_branch,
      left, right]
    exact List.rel_append thenSide ih
  | branches _ noted _ _ _ _ _ thenSide elseSide ih =>
    obtain ⟨left, right⟩ := noted.functions_eq
    rw [Node.functionsOf_cons, Node.functionsOf_cons, Node.functions_branches,
      Node.functions_branches, left, right]
    exact List.rel_append (List.rel_append thenSide elseSide) ih
  | function _ _ constant lists affordable within _ inside ih =>
    rw [Node.functionsOf_cons, Node.functionsOf_cons, Node.functions_function,
      Node.functions_function]
    exact .cons ⟨_, _, constant, lists, affordable, within⟩ (List.rel_append inside ih)

end Expanded

end Stencil
