import Stencil.Proofs.Coherence
import Stencil.Proofs.Reanalysis
import Stencil.Proofs.Replacement

/-!
# Functions are optimised one by one

What becomes of a function is what becomes of it in a template that takes the same names from
outside and has nothing else. It does not depend on the place of the function, on the functions next
to it, around it or inside of it.

Main statement: `optimize_functions_isolated`.
-/

namespace Stencil

namespace Node

/-- A function and what becomes of it in a template that has nothing else. -/
def Becomes (options : Options) (globals : OrderedSet String) (f g : Node) : Prop :=
  ∃ o, (template .generated "" globals [f]).optimize options = .ok o ∧
    o.tree = .template .generated "" globals [g]

/-- The place and the name of a function. -/
def head? : Node → Option (Span × String)
  | .function span name _ => some (span, name)
  | _ => none

/-- The places and the names of all functions of a tree, in document order. -/
def heads (root : Node) : List (Span × String) := root.preorder.filterMap head?

/-- The places and the names of all functions of a list of trees, in document order. -/
def headsOf (nodes : List Node) : List (Span × String) := (preorderOf nodes).filterMap head?

/-- All functions of a tree, in document order. -/
def functionNodes (root : Node) : List Node := root.preorder.filter isFunction

theorem functionNodes_eq (root : Node) :
    root.functionNodes =
      List.zipWith (fun head block => .function head.1 head.2 block) root.heads root.functions := by
  unfold functionNodes heads functions
  induction root.preorder with
  | nil => rfl
  | cons n rest ih =>
    cases n with
    | function span name block => exact congrArg (.function span name block :: ·) ih
    | template | conditional | assign | identifier | placeholder | literal | binary | filter | call
    | list | write => exact ih

theorem getElem?_functionNodes {root f : Node} {i : Nat} :
    root.functionNodes[i]? = some f ↔ ∃ span name block, root.heads[i]? = some (span, name) ∧
      root.functions[i]? = some block ∧ f = .function span name block := by
  rw [functionNodes_eq, List.getElem?_zipWith_eq_some]
  constructor
  · rintro ⟨⟨span, name⟩, block, head, body, rfl⟩
    exact ⟨span, name, block, head, body, rfl⟩
  · rintro ⟨span, name, block, head, body, rfl⟩
    exact ⟨_, block, head, body, rfl⟩

theorem headsOf_cons (n : Node) (rest : List Node) : headsOf (n :: rest) = n.heads ++ headsOf rest :=
  List.filterMap_append

theorem headsOf_singleton (n : Node) : headsOf [n] = n.heads := by
  rw [headsOf_cons]
  exact List.append_nil n.heads

theorem heads_eq_nil {n : Node} (h : n.functions = []) : n.heads = [] := by
  apply List.filterMap_eq_nil_iff.2
  intro m member
  have unbodied := List.filterMap_eq_nil_iff.1 h m member
  cases m with
  | function => cases unbodied
  | _ => rfl

theorem heads_branch (span : Span) (condition : Node) (thenBody : List Node) (scope : Scope) :
    (conditional span condition ⟨thenBody, scope⟩ none).heads =
      condition.heads ++ headsOf thenBody := List.filterMap_append

theorem heads_branches (span : Span) (condition : Node) (thenBody elseBody : List Node)
    (thenScope elseScope : Scope) :
    (conditional span condition ⟨thenBody, thenScope⟩ (some ⟨elseBody, elseScope⟩)).heads =
      condition.heads ++ headsOf thenBody ++ headsOf elseBody := by
  rw [heads, preorder, List.filterMap_cons_none rfl, List.filterMap_append, List.filterMap_append]
  rfl

theorem Retopped.heads_eq {root tree : Node} {out : List Node} (h : Retopped root out tree) :
    tree.heads = headsOf out := by
  cases h with
  | template => rfl
  | alone => exact (headsOf_singleton tree).symm

theorem heads_eq_top (root : Node) : root.heads = headsOf root.top := by
  cases root with
  | template => rfl
  | _ => exact (headsOf_singleton _).symm

end Node

section Heads

variable {table : AliasTable} {assigned after : Assigned String} {defined : List String}
  {source out : List Node}

theorem Annotated.heads_eq {e e' : Node} (h : Annotated table assigned defined e e') :
    e.heads = [] ∧ e'.heads = [] :=
  ⟨Node.heads_eq_nil h.functions_eq.1, Node.heads_eq_nil h.functions_eq.2⟩

/-- The functions of the source and of its optimised form stand at the same places under the same
names. -/
theorem Expanded.headsOf_eq (h : Expanded table assigned defined source out after) :
    Node.headsOf out = Node.headsOf source := by
  induction h with
  | nil => rfl
  | @define _ _ _ _ source out _ c value _ _ definition _ ih =>
    have none : value.heads = [] := Node.heads_eq_nil definition.functions_eq
    rw [Node.headsOf_cons, ← ih]
    exact congrArg (· ++ Node.headsOf out) none
  | @assign _ _ _ _ source out _ value value' _ _ noted _ ih =>
    rw [Node.headsOf_cons, Node.headsOf_cons, ih]
    exact congrArg (· ++ Node.headsOf source) (noted.heads_eq.2.trans noted.heads_eq.1.symm)
  | @write _ _ _ _ source out operand operand' _ noted _ ih =>
    rw [Node.headsOf_cons, Node.headsOf_cons, ih]
    exact congrArg (· ++ Node.headsOf source) (noted.heads_eq.2.trans noted.heads_eq.1.symm)
  | expression noted _ ih =>
    rw [Node.headsOf_cons, Node.headsOf_cons, ih, noted.heads_eq.1, noted.heads_eq.2]
  | branch _ noted _ _ _ thenSide ih =>
    rw [Node.headsOf_cons, Node.headsOf_cons, Node.heads_branch, Node.heads_branch,
      noted.heads_eq.1, noted.heads_eq.2, thenSide, ih]
  | branches _ noted _ _ _ _ _ thenSide elseSide ih =>
    rw [Node.headsOf_cons, Node.headsOf_cons, Node.heads_branches, Node.heads_branches,
      noted.heads_eq.1, noted.heads_eq.2, thenSide, elseSide, ih]
  | @function _ _ _ _ _ _ source out body body' _ _ span name _ _ _ _ _ inside ih =>
    rw [Node.headsOf_cons, Node.headsOf_cons, ih]
    exact congrArg (fun heads => (span, name) :: heads ++ Node.headsOf source) inside

end Heads

section Trees

variable {options : Options} {root : Node} {o : Optimization}

theorem optimize_heads (source : root.isSource) (h : root.optimize options = .ok o) :
    o.tree.heads = root.heads := by
  obtain ⟨out, after, expanded, shape, -⟩ := optimize_top source h
  rw [shape.heads_eq, expanded.headsOf_eq, Node.heads_eq_top]

theorem optimize_of_analyze {analysis : Analysis} (h : root.analyze options = .ok analysis) :
    ∃ o, root.optimize options = .ok o ∧ o.tree = (analysis.tree.hoistAliases options).1 :=
  ⟨_, Analysis.bind_eq_ok.2 ⟨analysis, h, rfl⟩, rfl⟩

/-- What a function becomes where nothing else is. -/
theorem Analysis.Alone.becomes {globals : OrderedSet String} {f k : Node}
    (h : Analysis.Alone options globals f k) :
    f.Becomes options globals (k.hoistAliases options).1 := by
  obtain ⟨last, walked⟩ := h
  have analyzed : (Node.template .generated "" globals [f]).analyze options =
      .ok ⟨.template .generated "" globals [k], last.warnings, last.reads⟩ :=
    Analysis.bind_eq_ok.2 ⟨_, Analysis.walk_template_iff.2
      ⟨[k], Analysis.walkTemplate_cons_iff.2 ⟨k, last, [], walked, rfl, rfl⟩, rfl⟩, rfl⟩
  have hoisted : ((Node.template .generated "" globals [k]).hoistAliases options).1 =
      .template .generated "" globals [(k.hoistAliases options).1] := by
    unfold Node.hoistAliases
    split <;> rfl
  obtain ⟨o, optimized, result⟩ := optimize_of_analyze analyzed
  exact ⟨o, optimized, result.trans hoisted⟩

theorem Node.Retopped.unique {root tree : Node} {out out' : List Node}
    (h : root.Retopped out tree) (h' : root.Retopped out' tree) : out' = out := by
  cases h with
  | template span name globals body =>
    cases h' with
    | template => rfl
    | alone single =>
      have size := congrArg sizeOf single
      simp [Node.top] at size
      omega
  | alone single =>
    cases h' with
    | alone => rfl
    | template =>
      have size := congrArg sizeOf single
      simp [Node.top] at size
      omega

/-- Every function of an analysed tree is what it becomes where nothing else is. -/
theorem analyze_alone {analysis : Analysis} (source : root.isSource)
    (h : root.analyze options = .ok analysis) :
    List.Forall₂ (fun f a => ∀ span name, Analysis.Alone options root.globals
        (.function span name f) (.function span name a)) root.functions analysis.tree.functions := by
  apply Analysis.analyze_forall_functions source h
  intro ctx st inner body walked scope _ _ given fixed inside span name
  obtain ⟨inner', again, frame⟩ := Analysis.walkBlock_evaluating .unconditional inside.walkBlock_eq
  rw [← given, ← fixed, ← frame]
  exact Analysis.walk_alone rfl (Analysis.walk_function_iff.2 ⟨_, _, again, rfl, rfl⟩)

theorem optimize_top_eq {out : List Node} (source : root.isSource)
    (h : root.optimize options = .ok o) (shape : root.Retopped out o.tree) : o.tree.top = out := by
  obtain ⟨out', after, expanded, shape', -⟩ := optimize_top source h
  rw [shape'.unique shape]
  exact (shape'.top_eq expanded.placed).1

end Trees

/-- If one function of a tree is replaced by another, what becomes of the one is replaced by what
becomes of the other, and nothing else changes. -/
theorem optimize_replaced {options : Options} {root root' f f' : Node} {o o' : Optimization}
    (source : root.isSource) (source' : root'.isSource) (same : root'.globals = root.globals)
    (h : root.optimize options = .ok o) (h' : root'.optimize options = .ok o')
    (replaced : Node.Replaced f f' root.top root'.top) :
    ∃ g g', f.Becomes options root.globals g ∧ f'.Becomes options root.globals g' ∧
      Node.Replaced g g' o.tree.top o'.tree.top := by
  obtain ⟨analysis, analyzed, result⟩ := optimize_analysis h
  obtain ⟨analysis', analyzed', result'⟩ := optimize_analysis h'
  obtain ⟨out, last, statements, shape, -⟩ := Analysis.analyze_started source analyzed
  obtain ⟨out', last', statements', shape', -⟩ := Analysis.analyze_started source' analyzed'
  rw [same] at statements'
  obtain ⟨-, k, k', alone, alone', carried⟩ := Analysis.walkBlock_replaced replaced source source'
    (.refl _) statements.walkBlock_eq statements'.walkBlock_eq
  change Analysis.Alone options root.globals _ _ at alone alone'
  refine ⟨_, _, alone.becomes, alone'.becomes, ?_⟩
  by_cases hoists : options.hoistAliases = true
  · simp only [Node.hoistAliases, if_pos hoists] at result result' ⊢
    have shape := result ▸ Hoisting.hoist_retopped shape
    have shape' := result' ▸ Hoisting.hoist_retopped shape'
    rw [optimize_top_eq source h shape, optimize_top_eq source' h' shape']
    exact Hoisting.hoistEach_replaced carried
  · simp only [Node.hoistAliases, if_neg hoists] at result result' ⊢
    rw [optimize_top_eq source h (result ▸ shape), optimize_top_eq source' h' (result' ▸ shape')]
    exact carried

/-- Every function of an optimised tree is what becomes of it where nothing else is. -/
theorem optimize_becomes {options : Options} {root : Node} {o : Optimization}
    (source : root.isSource) (h : root.optimize options = .ok o) {i : Nat} {f : Node}
    (here : root.functionNodes[i]? = some f) :
    ∃ g, f.Becomes options root.globals g ∧ o.tree.functionNodes[i]? = some g := by
  obtain ⟨span, name, body, head, at_i, rfl⟩ := Node.getElem?_functionNodes.1 here
  obtain ⟨analysis, analyzed, result⟩ := optimize_analysis h
  have all := analyze_alone source analyzed
  obtain ⟨bound, rfl⟩ := List.getElem?_eq_some_iff.1 at_i
  have bound' : i < analysis.tree.functions.length := all.length_eq ▸ bound
  have alone := all.get bound bound' span name
  have finished : o.tree.functions[i]? = some (analysis.tree.functions[i].finished options) := by
    rw [result, functions_hoistAliases, List.getElem?_map, List.getElem?_eq_getElem bound']
    rfl
  refine ⟨_, alone.becomes, Node.getElem?_functionNodes.2
    ⟨span, name, _, optimize_heads source h ▸ head, finished, ?_⟩⟩
  unfold Node.hoistAliases Block.finished
  split <;> rfl

theorem Node.Becomes.unique {options : Options} {globals : OrderedSet String} {f g g' : Node}
    (h : f.Becomes options globals g) (h' : f.Becomes options globals g') : g' = g := by
  obtain ⟨o, optimized, result⟩ := h
  obtain ⟨o', optimized', result'⟩ := h'
  rw [optimized] at optimized'
  cases optimized'
  rw [result] at result'
  cases result'
  rfl

/-- Functions are optimised one by one, in two trees that take the same names from outside. A
function of both is made into the same function, wherever it stands and whatever stands around it.
And if the trees differ in one function only, at whatever depth, then their optimised forms differ
only in what becomes of that function where nothing else is. -/
theorem optimize_functions_isolated (options : Options) (root root' : Node) (o o' : Optimization)
    (source : root.isSource) (source' : root'.isSource) (same : root'.globals = root.globals)
    (h : root.optimize options = .ok o) (h' : root'.optimize options = .ok o') :
    (∀ (i j : Nat) (f : Node), root.functionNodes[i]? = some f →
      root'.functionNodes[j]? = some f → ∃ g, f.Becomes options root.globals g ∧
        o.tree.functionNodes[i]? = some g ∧ o'.tree.functionNodes[j]? = some g) ∧
    ∀ f f', Node.Replaced f f' root.top root'.top → ∃ g g', f.Becomes options root.globals g ∧
      f'.Becomes options root.globals g' ∧ Node.Replaced g g' o.tree.top o'.tree.top := by
  refine ⟨?_, fun f f' => optimize_replaced source source' same h h'⟩
  intro i j f here there
  obtain ⟨g, becomes, made⟩ := optimize_becomes source h here
  obtain ⟨g', becomes', made'⟩ := optimize_becomes source' h' there
  rw [same] at becomes'
  cases becomes.unique becomes'
  exact ⟨g, becomes, made, made'⟩

/-- A function that filters a placeholder. -/
def resident : Node :=
  .function .generated "resident"
    (.plain [.write .generated
      (.filter .generated (.placeholder .generated "foo" none) none none)])

/-- A function that reads the same placeholder. -/
def guest : Node :=
  .function .generated "guest" (.plain [.write .generated (.placeholder .generated "foo" none)])

/-- A function that sets it first, and has a function of its own inside. -/
def successor : Node :=
  .function .generated "successor"
    (.plain [.assign .generated "foo" (.identifier .generated "hello"), guest,
      .write .generated (.placeholder .generated "foo" none)])

/-- A template in which the given function stands in a branch of another, where both branches read
the placeholder, and one more function follows. -/
def lodge (inner : Node) : Node :=
  let foo := Node.placeholder .generated "foo" none
  .template .generated "lodge" ∅
    [.function .generated "host"
        (.plain [.conditional .generated (.identifier .generated "hello")
          (.plain [inner, .write .generated foo]) (some (.plain [.write .generated foo]))]),
      resident]

theorem lodge_replaced : Node.Replaced guest successor (lodge guest).top (lodge successor).top :=
  .inFunction _ _ _ _ (.inThen _ _ _ _ _ (.here rfl rfl _))

theorem lodge_optimize :
    ∃ o o', (lodge guest).optimize .caching = .ok o ∧ (lodge successor).optimize .caching = .ok o' :=
  ⟨_, _, rfl, rfl⟩

/-- The last function is the third of one template and the fourth of the other. -/
theorem lodge_isolated :
    ∃ o o' g k k', (lodge guest).isSource = true ∧ (lodge successor).isSource = true ∧
      (lodge successor).globals = (lodge guest).globals ∧
      (lodge guest).optimize .caching = .ok o ∧ (lodge successor).optimize .caching = .ok o' ∧
      (lodge guest).functionNodes[2]? = some resident ∧
      (lodge successor).functionNodes[3]? = some resident ∧
      o.tree.functionNodes[2]? = some g ∧ o'.tree.functionNodes[3]? = some g ∧
      Node.Replaced guest successor (lodge guest).top (lodge successor).top ∧
      Node.Replaced k k' o.tree.top o'.tree.top := by
  obtain ⟨o, o', h, h'⟩ := lodge_optimize
  obtain ⟨alike, replaced⟩ := optimize_functions_isolated .caching (lodge guest) (lodge successor) o
    o' (by decide) (by decide) rfl h h'
  obtain ⟨g, -, third, fourth⟩ := alike 2 3 resident rfl rfl
  obtain ⟨k, k', -, -, carried⟩ := replaced guest successor lodge_replaced
  exact ⟨o, o', g, k, k', by decide, by decide, rfl, h, h', rfl, rfl, third, fourth,
    lodge_replaced, carried⟩

end Stencil
