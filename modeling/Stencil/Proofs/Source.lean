import Stencil.Optimize

/-!
# Source trees

A source tree is a template as it was written: no scope holds an alias, nothing is noted on a
placeholder or a filter, statements stand only in bodies, and a template stands only at the root.

The functions of a tree are listed in document order, those inside other functions included, so
that a function and its optimised form stand at the same place of the two lists.
-/

namespace Stencil

/-- The options that introduce aliases, move them and read variables directly. -/
def Options.caching : Options :=
  { cachePlaceholders := true, directAccess := true, hoistAliases := true, cacheFilters := true }

/-- A scope that only declares names. -/
def Scope.isPlain (scope : Scope) : Bool := scope.aliases = ∅ ∧ scope.aliasNames = ∅

theorem Scope.aliases_of_isPlain {scope : Scope} (h : scope.isPlain) : scope.aliases = ∅ := by
  rw [isPlain, decide_eq_true_eq] at h
  exact h.1

theorem Scope.aliasNames_of_isPlain {scope : Scope} (h : scope.isPlain) :
    scope.aliasNames = ∅ := by
  rw [isPlain, decide_eq_true_eq] at h
  exact h.2

namespace Node

mutual

/-- An expression with nothing noted on it, and no statement inside. -/
def isExpression : Node → Bool
  | .identifier .. | .literal .. => true
  | .placeholder _ _ resolution => resolution = none
  | .binary _ _ left right => left.isExpression && right.isExpression
  | .filter _ operand _ cachedAs => operand.isExpression && cachedAs = none
  | .call _ callee arguments => callee.isExpression && areExpressions arguments
  | .list _ items => areExpressions items
  | .template .. | .function .. | .conditional .. | .assign .. | .write .. => false
termination_by structural n => n

/-- Expressions throughout. -/
def areExpressions : List Node → Bool
  | [] => true
  | n :: rest => n.isExpression && areExpressions rest
termination_by structural ns => ns

end

mutual

theorem scopes_of_isExpression (e : Node) (h : e.isExpression) : e.scopes = [] := by
  cases e with
  | identifier | literal | placeholder => rfl
  | binary span op left right =>
    rw [isExpression, Bool.and_eq_true] at h
    rw [scopes, scopes_of_isExpression left h.1, scopes_of_isExpression right h.2, List.append_nil]
  | filter span operand name cachedAs =>
    rw [isExpression, Bool.and_eq_true] at h
    exact scopes_of_isExpression operand h.1
  | call span callee arguments =>
    rw [isExpression, Bool.and_eq_true] at h
    rw [scopes, scopes_of_isExpression callee h.1, scopesOf_of_areExpressions arguments h.2,
      List.append_nil]
  | list span items => exact scopesOf_of_areExpressions items h
  | template | function | conditional | assign | write => simp [isExpression] at h
termination_by structural e

theorem scopesOf_of_areExpressions (es : List Node) (h : areExpressions es) : scopesOf es = [] := by
  cases es with
  | nil => rfl
  | cons e rest =>
    rw [areExpressions, Bool.and_eq_true] at h
    rw [scopesOf, scopes_of_isExpression e h.1, scopesOf_of_areExpressions rest h.2,
      List.append_nil]
termination_by structural es

end

mutual

/-- What may stand in a body: a statement over expressions, or an expression by itself. -/
def isStatement : Node → Bool
  | .function _ _ ⟨body, scope⟩ => scope.isPlain && areStatements body
  | .conditional _ condition ⟨thenBody, thenScope⟩ none =>
    condition.isExpression && thenScope.isPlain && areStatements thenBody
  | .conditional _ condition ⟨thenBody, thenScope⟩ (some ⟨elseBody, elseScope⟩) =>
    condition.isExpression && thenScope.isPlain && areStatements thenBody && elseScope.isPlain &&
      areStatements elseBody
  | .assign _ _ value => value.isExpression
  | .write _ operand => operand.isExpression
  | .template .. => false
  | n@(.identifier ..) | n@(.placeholder ..) | n@(.literal ..) | n@(.binary ..) | n@(.filter ..)
  | n@(.call ..) | n@(.list ..) => n.isExpression
termination_by structural n => n

/-- Statements throughout. -/
def areStatements : List Node → Bool
  | [] => true
  | n :: rest => n.isStatement && areStatements rest
termination_by structural ns => ns

end

mutual

theorem isPlain_of_mem_scopes (n : Node) (h : n.isStatement) {scope : Scope}
    (member : scope ∈ n.scopes) : scope.isPlain := by
  cases n with
  | function => cases member
  | conditional span condition thenBranch elseBranch =>
    obtain ⟨thenBody, thenScope⟩ := thenBranch
    cases elseBranch with
    | none =>
      simp only [isStatement, Bool.and_eq_true] at h
      rw [scopes, scopes_of_isExpression condition h.1.1, List.nil_append, List.mem_cons] at member
      rcases member with rfl | member
      · exact h.1.2
      · exact isPlain_of_mem_scopesOf thenBody h.2 member
    | some block =>
      obtain ⟨elseBody, elseScope⟩ := block
      simp only [isStatement, Bool.and_eq_true] at h
      rw [scopes, scopes_of_isExpression condition h.1.1.1.1, List.nil_append, List.cons_append,
        List.mem_cons, List.mem_append, List.mem_cons] at member
      rcases member with rfl | member | rfl | member
      · exact h.1.1.1.2
      · exact isPlain_of_mem_scopesOf thenBody h.1.1.2 member
      · exact h.1.2
      · exact isPlain_of_mem_scopesOf elseBody h.2 member
  | assign span target value =>
    rw [scopes, scopes_of_isExpression value h] at member
    cases member
  | write span operand =>
    rw [scopes, scopes_of_isExpression operand h] at member
    cases member
  | template => simp [isStatement] at h
  | identifier | placeholder | literal | binary | filter | call | list =>
    rw [scopes_of_isExpression _ h] at member
    cases member
termination_by structural n

/-- The branches of source statements hold no alias. -/
theorem isPlain_of_mem_scopesOf (body : List Node) (h : areStatements body) {scope : Scope}
    (member : scope ∈ scopesOf body) : scope.isPlain := by
  cases body with
  | nil => cases member
  | cons n rest =>
    rw [areStatements, Bool.and_eq_true] at h
    rw [scopesOf, List.mem_append] at member
    rcases member with member | member
    · exact isPlain_of_mem_scopes n h.1 member
    · exact isPlain_of_mem_scopesOf rest h.2 member
termination_by structural body

end

mutual

/-- An expression, whatever is noted on it, and no statement inside. -/
def isOperand : Node → Bool
  | .identifier .. | .literal .. | .placeholder .. => true
  | .binary _ _ left right => left.isOperand && right.isOperand
  | .filter _ operand _ _ => operand.isOperand
  | .call _ callee arguments => callee.isOperand && areOperands arguments
  | .list _ items => areOperands items
  | .template .. | .function .. | .conditional .. | .assign .. | .write .. => false
termination_by structural n => n

/-- Expressions throughout, whatever is noted on them. -/
def areOperands : List Node → Bool
  | [] => true
  | n :: rest => n.isOperand && areOperands rest
termination_by structural ns => ns

end

mutual

theorem isOperand_of_isExpression (e : Node) (h : e.isExpression) : e.isOperand := by
  cases e with
  | identifier | literal | placeholder => rfl
  | binary span op left right =>
    rw [isExpression, Bool.and_eq_true] at h
    rw [isOperand, isOperand_of_isExpression left h.1, isOperand_of_isExpression right h.2]
    rfl
  | filter span operand name cachedAs =>
    rw [isExpression, Bool.and_eq_true] at h
    exact isOperand_of_isExpression operand h.1
  | call span callee arguments =>
    rw [isExpression, Bool.and_eq_true] at h
    rw [isOperand, isOperand_of_isExpression callee h.1, areOperands_of_areExpressions arguments h.2]
    rfl
  | list span items => exact areOperands_of_areExpressions items h
  | template | function | conditional | assign | write => simp [isExpression] at h
termination_by structural e

theorem areOperands_of_areExpressions (es : List Node) (h : areExpressions es) :
    areOperands es := by
  cases es with
  | nil => rfl
  | cons e rest =>
    rw [areExpressions, Bool.and_eq_true] at h
    rw [areOperands, isOperand_of_isExpression e h.1, areOperands_of_areExpressions rest h.2]
    rfl
termination_by structural es

end

mutual

/-- What may stand in a body, whatever is noted on it or registered in its scopes. -/
def isPlaced : Node → Bool
  | .function _ _ ⟨body, _⟩ => arePlaced body
  | .conditional _ condition ⟨thenBody, _⟩ none => condition.isOperand && arePlaced thenBody
  | .conditional _ condition ⟨thenBody, _⟩ (some ⟨elseBody, _⟩) =>
    condition.isOperand && arePlaced thenBody && arePlaced elseBody
  | .assign _ _ value => value.isOperand
  | .write _ operand => operand.isOperand
  | .template .. => false
  | n@(.identifier ..) | n@(.placeholder ..) | n@(.literal ..) | n@(.binary ..) | n@(.filter ..)
  | n@(.call ..) | n@(.list ..) => n.isOperand
termination_by structural n => n

/-- Statements at their places throughout. -/
def arePlaced : List Node → Bool
  | [] => true
  | n :: rest => n.isPlaced && arePlaced rest
termination_by structural ns => ns

end

mutual

theorem isPlaced_of_isStatement (n : Node) (h : n.isStatement) : n.isPlaced := by
  cases n with
  | function span name block =>
    obtain ⟨body, scope⟩ := block
    rw [isStatement, Bool.and_eq_true] at h
    exact arePlaced_of_areStatements body h.2
  | conditional span condition thenBranch elseBranch =>
    obtain ⟨thenBody, thenScope⟩ := thenBranch
    cases elseBranch with
    | none =>
      simp only [isStatement, Bool.and_eq_true] at h
      rw [isPlaced, isOperand_of_isExpression condition h.1.1,
        arePlaced_of_areStatements thenBody h.2]
      rfl
    | some block =>
      obtain ⟨elseBody, elseScope⟩ := block
      simp only [isStatement, Bool.and_eq_true] at h
      rw [isPlaced, isOperand_of_isExpression condition h.1.1.1.1,
        arePlaced_of_areStatements thenBody h.1.1.2, arePlaced_of_areStatements elseBody h.2]
      rfl
  | assign span target value => exact isOperand_of_isExpression value h
  | write span operand => exact isOperand_of_isExpression operand h
  | template => simp [isStatement] at h
  | identifier | placeholder | literal | binary | filter | call | list =>
    exact isOperand_of_isExpression _ h
termination_by structural n

/-- The statements of a source tree stand at their places. -/
theorem arePlaced_of_areStatements (body : List Node) (h : areStatements body) :
    arePlaced body := by
  cases body with
  | nil => rfl
  | cons n rest =>
    rw [areStatements, Bool.and_eq_true] at h
    rw [arePlaced, isPlaced_of_isStatement n h.1, arePlaced_of_areStatements rest h.2]
    rfl
termination_by structural body

end

/-- The statements that stand at the top of a tree. -/
def top : Node → List Node
  | .template _ _ _ body => body
  | n => [n]

/-- A tree as it was written. -/
def isSource (root : Node) : Bool := areStatements root.top

/-- The names that a tree takes from outside. -/
def globals : Node → OrderedSet String
  | .template _ _ globals _ => globals
  | _ => ∅

/-- A tree, other statements, and the tree with those at its top. -/
inductive Retopped : Node → List Node → Node → Prop
  | template (span : Span) (name : String) (globals : OrderedSet String) (body out : List Node) :
      Retopped (.template span name globals body) out (.template span name globals out)
  | alone {n : Node} (single : n.top = [n]) (n' : Node) : Retopped n [n'] n'

/-- The body of a function. -/
def functionBody? : Node → Option (Block Node)
  | .function _ _ body => some body
  | _ => none

/-- The bodies of all functions of a tree, in document order. -/
def functions (root : Node) : List (Block Node) := root.preorder.filterMap functionBody?

/-- The bodies of all functions of a list of trees, in document order. -/
def functionsOf (nodes : List Node) : List (Block Node) :=
  (preorderOf nodes).filterMap functionBody?

theorem functions_eq_functionsOf (n : Node) : n.functions = functionsOf [n] := by
  simp [functions, functionsOf, preorderOf]

theorem functions_eq_top (root : Node) : root.functions = functionsOf root.top := by
  cases root with
  | template => rfl
  | _ => exact functions_eq_functionsOf _

theorem Retopped.functions_eq {root tree : Node} {out : List Node} (h : Retopped root out tree) :
    tree.functions = functionsOf out := by
  cases h with
  | template => rfl
  | alone => exact functions_eq_functionsOf tree

theorem functions_assign (span : Span) (target : String) (value : Node) :
    (assign span target value).functions = value.functions := rfl

theorem functions_write (span : Span) (operand : Node) :
    (write span operand).functions = operand.functions := rfl

theorem functions_branch (span : Span) (condition : Node) (thenBody : List Node) (scope : Scope) :
    (conditional span condition ⟨thenBody, scope⟩ none).functions =
      condition.functions ++ functionsOf thenBody := List.filterMap_append

theorem functions_branches (span : Span) (condition : Node) (thenBody elseBody : List Node)
    (thenScope elseScope : Scope) :
    (conditional span condition ⟨thenBody, thenScope⟩ (some ⟨elseBody, elseScope⟩)).functions =
      condition.functions ++ functionsOf thenBody ++ functionsOf elseBody := by
  rw [functions, preorder, List.filterMap_cons_none rfl, List.filterMap_append,
    List.filterMap_append]
  rfl

theorem functions_function (span : Span) (name : String) (body : List Node) (scope : Scope) :
    (function span name ⟨body, scope⟩).functions = ⟨body, scope⟩ :: functionsOf body := rfl

theorem functions_binary (span : Span) (op : Operator) (left right : Node) :
    (binary span op left right).functions = left.functions ++ right.functions :=
  List.filterMap_append

theorem functions_call (span : Span) (callee : Node) (arguments : List Node) :
    (call span callee arguments).functions = callee.functions ++ functionsOf arguments :=
  List.filterMap_append

theorem functionsOf_cons (n : Node) (rest : List Node) :
    functionsOf (n :: rest) = n.functions ++ functionsOf rest := List.filterMap_append

theorem functionsOf_append (first second : List Node) :
    functionsOf (first ++ second) = functionsOf first ++ functionsOf second := by
  induction first with
  | nil => rfl
  | cons n rest ih =>
    rw [List.cons_append, functionsOf_cons, functionsOf_cons, ih, List.append_assoc]

mutual

/-- The names of the identifiers and placeholders at or below a node, outside the functions defined
there. -/
def mentions : Node → List String
  | .template _ _ _ body => mentionsOf body
  | .function .. => []
  | .conditional _ condition ⟨thenBody, _⟩ none => condition.mentions ++ mentionsOf thenBody
  | .conditional _ condition ⟨thenBody, _⟩ (some ⟨elseBody, _⟩) =>
    condition.mentions ++ mentionsOf thenBody ++ mentionsOf elseBody
  | .assign _ _ value => value.mentions
  | .identifier _ name | .placeholder _ name _ => [name]
  | .literal .. => []
  | .binary _ _ left right => left.mentions ++ right.mentions
  | .filter _ operand _ _ => operand.mentions
  | .call _ callee arguments => callee.mentions ++ mentionsOf arguments
  | .list _ items => mentionsOf items
  | .write _ operand => operand.mentions
termination_by structural n => n

/-- The names that a list of trees mentions. -/
def mentionsOf : List Node → List String
  | [] => []
  | n :: rest => n.mentions ++ mentionsOf rest
termination_by structural ns => ns

end

end Node

namespace Block

/-- The names of the identifiers and placeholders of a function body, outside inner functions. -/
def mentions (block : Block Node) : List String := Node.mentionsOf block.body

theorem declaredAliases_of_source {body : List Node} {scope : Scope} (plain : scope.isPlain)
    (source : Node.areStatements body) : declaredAliases ⟨body, scope⟩ = [] := by
  rw [declaredAliases, List.flatMap_eq_nil_iff]
  intro inner member
  have empty : inner.isPlain := by
    rcases List.mem_cons.1 member with rfl | below
    · exact plain
    · exact Node.isPlain_of_mem_scopesOf body source below
  rw [Scope.aliases_of_isPlain empty]
  rfl

/-- The variables that only the optimised form of a function assigns: its introduced aliases. -/
def introduced (source optimized : Block Node) : List String :=
  optimized.assignments.filter (· ∉ source.assignments)

end Block

end Stencil
