import Stencil.Proofs.Placeholders
import Stencil.Proofs.Registration

/-!
# Checking an analysed tree

The analysis defines aliases between the statements of a function, and declares in its scope what
its body sets. When the result is checked for unassigned variables, a control path through it is one
of the source with aliases in between (`Expanded.routesOf_eq`), and its reads are those of the
source, with the look-ups of the definitions among them (`Expanded.rereads`).

The scope is another matter. What it declares counts as assigned from the start, so the exposed read
of a variable that the body of the function sets, no matter where, goes unnoticed the second time.

Main statement: `analyze_keeps_rejection`.
-/

namespace Stencil

/-- Paths of which there is one at least, and which assign the given names only. -/
def PathsOver (names : List String) (paths : List (List String)) : Prop :=
  paths ≠ [] ∧ ∀ path ∈ paths, path ⊆ names

namespace PathsOver

variable {names more : List String} {paths next : List (List String)}

theorem nil (names : List String) : PathsOver names [[]] := by
  refine ⟨by simp, ?_⟩
  intro path member
  rw [List.mem_singleton.1 member]
  exact List.nil_subset names

theorem mono (h : PathsOver names paths) (sub : names ⊆ more) : PathsOver more paths :=
  ⟨h.1, fun path member => List.Subset.trans (h.2 path member) sub⟩

theorem append (h : PathsOver names paths) (h' : PathsOver names next) :
    PathsOver names (paths ++ next) := by
  refine ⟨by simp [h.1], fun path member => ?_⟩
  rcases List.mem_append.1 member with first | second
  · exact h.2 path first
  · exact h'.2 path second

theorem extend (h : PathsOver names paths) (h' : PathsOver more next) :
    PathsOver (names ++ more) (extendPaths paths next) := by
  constructor
  · obtain ⟨p, hp⟩ := List.exists_mem_of_ne_nil _ h.1
    obtain ⟨q, hq⟩ := List.exists_mem_of_ne_nil _ h'.1
    exact List.ne_nil_of_mem (mem_extendPaths.2 ⟨p, hp, q, hq, rfl⟩)
  · intro path member
    obtain ⟨p, hp, q, hq, rfl⟩ := mem_extendPaths.1 member
    exact List.append_subset.2 ⟨List.subset_append_of_subset_left _ (h.2 p hp),
      List.subset_append_of_subset_right _ (h'.2 q hq)⟩

end PathsOver

namespace Node

mutual

theorem pathsOver_routes (n : Node) : PathsOver n.assignments n.routes := by
  cases n with
  | conditional span condition thenBranch elseBranch =>
    obtain ⟨thenBody, thenScope⟩ := thenBranch
    cases elseBranch with
    | none =>
      rw [assignments, routes]
      refine .append ((pathsOver_routesOf thenBody).mono ?_) (.nil _)
      exact List.subset_append_right _ _
    | some block =>
      obtain ⟨elseBody, elseScope⟩ := block
      rw [assignments, routes]
      refine .append ((pathsOver_routesOf thenBody).mono ?_)
        ((pathsOver_routesOf elseBody).mono (List.subset_append_right _ _))
      exact List.subset_append_of_subset_left _ (List.subset_append_right _ _)
  | assign span target value =>
    rw [assignments, routes]
    refine ⟨by simp, fun path member => ?_⟩
    rw [List.mem_singleton.1 member]
    exact List.cons_subset_cons _ (List.nil_subset _)
  | template | function | identifier | placeholder | literal | binary | filter | call | list
  | write => exact .nil _
termination_by structural n

/-- The control paths through statements assign what the statements assign. -/
theorem pathsOver_routesOf (body : List Node) : PathsOver (assignmentsOf body) (routesOf body) := by
  cases body with
  | nil => exact .nil _
  | cons n rest => exact (pathsOver_routes n).extend (pathsOver_routesOf rest)
termination_by structural body

end

mutual

theorem pathsOver_ownReads {parameters names : List String} {paths : List (List String)}
    (n : Node) (reached : PathsOver names paths) {site : ReadSite}
    (member : site ∈ n.ownReads parameters paths) :
    site.parameters = parameters ∧ PathsOver (names ++ n.assignments) site.paths := by
  have here (os : List Occurrence) (member : site ∈ os.map (.of parameters paths)) :
      site.parameters = parameters ∧ PathsOver (names ++ n.assignments) site.paths := by
    obtain ⟨o, -, rfl⟩ := List.mem_map.1 member
    exact ⟨rfl, reached.mono (List.subset_append_left _ _)⟩
  -- what is assigned inside a branch is assigned in the statement
  have inside (below : List String) (sub : below ⊆ n.assignments)
      (h : site.parameters = parameters ∧ PathsOver (names ++ below) site.paths) :
      site.parameters = parameters ∧ PathsOver (names ++ n.assignments) site.paths := by
    refine ⟨h.1, h.2.mono (List.append_subset.2 ⟨List.subset_append_left _ _, ?_⟩)⟩
    exact List.subset_append_of_subset_right _ sub
  cases n with
  | function => cases member
  | template span name globals body => exact pathsOver_ownReadsOf body reached member
  | conditional span condition thenBranch elseBranch =>
    obtain ⟨thenBody, thenScope⟩ := thenBranch
    cases elseBranch with
    | none =>
      rw [ownReads, List.mem_append] at member
      rcases member with test | inThen
      · exact here _ test
      · exact inside _ (List.subset_append_right _ _) (pathsOver_ownReadsOf thenBody reached inThen)
    | some block =>
      obtain ⟨elseBody, elseScope⟩ := block
      rw [ownReads, List.mem_append, List.mem_append] at member
      rcases member with test | inThen | inElse
      · exact here _ test
      · refine inside _ ?_ (pathsOver_ownReadsOf thenBody reached inThen)
        exact List.subset_append_of_subset_left _ (List.subset_append_right _ _)
      · exact inside _ (List.subset_append_right _ _) (pathsOver_ownReadsOf elseBody reached inElse)
  | assign | write | identifier | placeholder | literal | binary | filter | call | list =>
    exact here _ member
termination_by structural n

/-- The paths to a read of statements assign what the statements assign. -/
theorem pathsOver_ownReadsOf {parameters names : List String} {paths : List (List String)}
    (body : List Node) (reached : PathsOver names paths) {site : ReadSite}
    (member : site ∈ ownReadsOf parameters paths body) :
    site.parameters = parameters ∧ PathsOver (names ++ assignmentsOf body) site.paths := by
  cases body with
  | nil => cases member
  | cons n rest =>
    rw [ownReadsOf, List.mem_append] at member
    rw [assignmentsOf, ← List.append_assoc]
    rcases member with here | behind
    · obtain ⟨same, paths⟩ := pathsOver_ownReads n reached here
      exact ⟨same, paths.mono (List.subset_append_left _ _)⟩
    · exact pathsOver_ownReadsOf rest (reached.extend (pathsOver_routes n)) behind
termination_by structural body

end

end Node

/-- A read of a function: its parameters are those of the function, and the paths to it assign what
the function assigns. -/
theorem Block.mem_ownReads {block : Block Node} {site : ReadSite}
    (member : site ∈ block.ownReads) :
    site.parameters = block.scope.locals.toList ∧ PathsOver block.assignments site.paths :=
  Node.pathsOver_ownReadsOf block.body (.nil []) member

/-- A path without the aliases that are defined on it. -/
def AliasTable.erase (table : AliasTable) (path : List String) : List String :=
  path.filter fun name => (table name).isNone

/-- A read of an optimised body as one of its source. -/
def ReadSite.erased (table : AliasTable) (parameters : List String) (site : ReadSite) : ReadSite :=
  ⟨site.name, site.span, parameters, site.paths.map table.erase⟩

theorem map_erase_extendPaths (table : AliasTable) (paths next : List (List String)) :
    (extendPaths paths next).map table.erase =
      extendPaths (paths.map table.erase) (next.map table.erase) := by
  simp [extendPaths, AliasTable.erase, List.map_flatMap, List.flatMap_map, Function.comp_def]

section Expanded

variable {table : AliasTable} {assigned after : Assigned String} {defined : List String}
  {source out : List Node}

theorem Annotated.routes_eq {e e' : Node} (h : Annotated table assigned defined e e') :
    e.routes = [[]] ∧ e'.routes = [[]] := by
  have resolved := h.resolved
  rw [← h.bare]
  cases e' with
  | identifier | literal | placeholder | binary | filter | call | list => exact ⟨rfl, rfl⟩
  | template | function | conditional | assign | write => exact resolved.elim

/-- The control paths through an optimised body are those through its source, with aliases defined
in between. -/
theorem Expanded.routesOf_eq (h : Expanded table assigned defined source out after) :
    Node.routesOf source = (Node.routesOf out).map table.erase := by
  induction h with
  | nil => rfl
  | define span held definition later ih =>
    rw [Node.routesOf, Node.routes, map_erase_extendPaths, ← ih]
    simp [AliasTable.erase, held, extendPaths]
  | assign span free noted later ih =>
    rw [Node.routesOf, Node.routesOf, Node.routes, Node.routes, map_erase_extendPaths, ← ih]
    simp [AliasTable.erase, free]
  | write span noted later ih =>
    rw [Node.routesOf, Node.routesOf, Node.routes, Node.routes, map_erase_extendPaths, ← ih]
    rfl
  | expression noted later ih =>
    rw [Node.routesOf, Node.routesOf, noted.routes_eq.1, noted.routes_eq.2, map_erase_extendPaths,
      ← ih]
    rfl
  | branch span noted lists thenSide later thenIH ih =>
    rw [Node.routesOf, Node.routesOf, Node.routes, Node.routes, map_erase_extendPaths, ← ih,
      List.map_append, ← thenIH]
    rfl
  | branches span noted thenLists elseLists thenSide elseSide later thenIH elseIH ih =>
    rw [Node.routesOf, Node.routesOf, Node.routes, Node.routes, map_erase_extendPaths, ← ih,
      List.map_append, ← thenIH, ← elseIH]
  | function span name constant lists affordable within later insideIH ih =>
    rw [Node.routesOf, Node.routesOf, Node.routes, Node.routes, map_erase_extendPaths, ← ih]
    rfl

/-- Reads of a source, and reads of its optimised form: the same ones, with look-ups of definitions
among them. -/
structure Rereads (table : AliasTable) (parameters : List String) (reads reads' : List ReadSite) :
    Prop where
  kept : reads ⊆ reads'.map (.erased table parameters)
  origin : ∀ site ∈ reads', site.erased table parameters ∈ reads ∨
    ∃ alternative, table alternative = some (.placeholder site.name)

section Rereads

variable {parameters parameters' : List String} {reads reads' : List ReadSite}

theorem Rereads.append {more more' : List ReadSite} (h : Rereads table parameters reads reads')
    (h' : Rereads table parameters more more') :
    Rereads table parameters (reads ++ more) (reads' ++ more') := by
  constructor
  · rw [List.map_append]
    exact List.append_subset.2 ⟨List.subset_append_of_subset_left _ h.kept,
      List.subset_append_of_subset_right _ h'.kept⟩
  · intro site member
    rcases List.mem_append.1 member with first | second
    · exact (h.origin site first).imp_left (List.mem_append_left _)
    · exact (h'.origin site second).imp_left (List.mem_append_right _)

theorem Annotated.rereads {e e' : Node} (h : Annotated table assigned defined e e')
    (paths : List (List String)) :
    Rereads table parameters (e.placeholders.map (.of parameters (paths.map table.erase)))
      (e'.placeholders.map (.of parameters' paths)) := by
  have same : e.placeholders.map (ReadSite.of parameters (paths.map table.erase)) =
      (e'.placeholders.map (ReadSite.of parameters' paths)).map (.erased table parameters) := by
    rw [h.placeholders_eq, List.map_map, List.map_map]
    rfl
  constructor
  · exact same ▸ List.Subset.refl _
  · intro site member
    rw [same]
    exact .inl (List.mem_map_of_mem member)

theorem Definition.rereads {c : Computation} {value : Node} {alternative : String}
    (h : Definition table defined c value) (held : table alternative = some c)
    (paths : List (List String)) :
    Rereads table parameters [] (value.placeholders.map (.of parameters' paths)) := by
  refine ⟨List.nil_subset _, fun site member => ?_⟩
  obtain ⟨o, inside, rfl⟩ := List.mem_map.1 member
  obtain ⟨rfl, -⟩ := h.mem_placeholders inside
  exact .inr ⟨alternative, held⟩

/-- A statement and its optimised form, and the statements behind them. -/
theorem Rereads.cons {n n' : Node} {rest rest' : List Node} {paths : List (List String)}
    (routes : n.routes = n'.routes.map table.erase)
    (own : Rereads table parameters (n.ownReads parameters (paths.map table.erase))
      (n'.ownReads parameters' paths))
    (behind : ∀ paths, Rereads table parameters
      (Node.ownReadsOf parameters (paths.map table.erase) rest)
      (Node.ownReadsOf parameters' paths rest')) :
    Rereads table parameters (Node.ownReadsOf parameters (paths.map table.erase) (n :: rest))
      (Node.ownReadsOf parameters' paths (n' :: rest')) := by
  rw [Node.ownReadsOf, Node.ownReadsOf, routes, ← map_erase_extendPaths]
  exact own.append (behind _)

/-- The reads of a source and of its optimised form. -/
theorem Expanded.rereads (h : Expanded table assigned defined source out after)
    (paths : List (List String)) :
    Rereads table parameters (Node.ownReadsOf parameters (paths.map table.erase) source)
      (Node.ownReadsOf parameters' paths out) := by
  induction h generalizing paths with
  | nil => exact ⟨List.nil_subset _, fun _ member => by cases member⟩
  | @define table assigned after defined source out alternative c value span held definition later
      ih =>
    have passed : (extendPaths paths [[alternative]]).map table.erase = paths.map table.erase := by
      rw [map_erase_extendPaths]
      simp [AliasTable.erase, held]
    rw [← passed]
    exact (definition.rereads held paths).append (ih _)
  | assign span free noted later ih =>
    refine .cons ?_ (noted.rereads paths) ih
    simp [Node.routes, AliasTable.erase, free]
  | write span noted later ih => exact .cons rfl (noted.rereads paths) ih
  | expression noted later ih =>
    obtain ⟨left, right⟩ := noted.isOperand
    refine .cons ?_ ?_ ih
    · rw [noted.routes_eq.1, noted.routes_eq.2]
      rfl
    · rw [Node.ownReads_of_isOperand left, Node.ownReads_of_isOperand right]
      exact noted.rereads paths
  | branch span noted lists thenSide later thenIH ih =>
    refine .cons ?_ ((noted.rereads paths).append (thenIH paths)) ih
    rw [Node.routes, Node.routes, List.map_append, ← thenSide.routesOf_eq]
    rfl
  | branches span noted thenLists elseLists thenSide elseSide later thenIH elseIH ih =>
    refine .cons ?_ ((noted.rereads paths).append ((thenIH paths).append (elseIH paths))) ih
    rw [Node.routes, Node.routes, List.map_append, ← thenSide.routesOf_eq,
      ← elseSide.routesOf_eq]
  | function span name constant lists affordable within later insideIH ih =>
    exact .cons rfl ⟨List.nil_subset _, fun _ member => by cases member⟩ ih

end Rereads

end Expanded

/-- What the scope of an analysed function declares: what it declared before, what the statements of
its body set, and the aliases that are defined among them. -/
def Declares (table : AliasTable) (source analyzed : Block Node) : Prop :=
  ∀ name, name ∈ analyzed.scope.locals ↔ name ∈ source.scope.locals ∨
    name ∈ Node.targets source.body ∨ name ∈ Node.aliasTargets table analyzed.body

namespace Analysis

/-- A walk gathers the variables that the statements of the block set. -/
theorem Statements.mem_assignedHere {ctx : Context} {st last : State} {source out : List Node}
    (h : Statements ctx st source out last) {name : String} :
    name ∈ last.frame.assignedHere ↔
      name ∈ st.frame.assignedHere ∨ name ∈ Node.targets source := by
  have pass {n : Node} {rest : List Node} {st next : State}
      (same : next.frame.assignedHere = st.frame.assignedHere) (unset : n.target? = none) :
      name ∈ next.frame.assignedHere ∨ name ∈ Node.targets rest ↔
        name ∈ st.frame.assignedHere ∨ name ∈ Node.targets (n :: rest) := by
    rw [same, Node.targets_cons_of_none unset]
  induction h with
  | nil => simp [Node.targets]
  | function span name inside later insideIH ih => exact ih.trans (pass rfl rfl)
  | branch span test thenSide later thenIH ih =>
    exact ih.trans (pass test.follows.assignedHere rfl)
  | branches span test thenSide elseSide later thenIH elseIH ih =>
    exact ih.trans (pass test.follows.assignedHere rfl)
  | @assign ctx st next last value value' rest rest' span target inner later ih =>
    refine ih.trans ?_
    change name ∈ next.frame.assignedHere.insert target ∨ _ ↔ _ ∨ name ∈ target :: _
    rw [OrderedSet.mem_insert, inner.follows.assignedHere, List.mem_cons, or_assoc]
    rfl
  | write span inner later ih => exact ih.trans (pass inner.follows.assignedHere rfl)
  | @expression ctx st next last e e' rest rest' plain inner later ih =>
    have unset : e.target? = none := by
      cases e with
      | assign => simp [Node.isExpression] at plain
      | _ => rfl
    exact ih.trans (pass inner.follows.assignedHere unset)

theorem enterFunction_declares {ctx : Context} {st inner : State} {body walked : List Node}
    {scope : Scope} (plain : scope.isPlain) (source : Node.areStatements body)
    (h : Statements (ctx.enterFunction ⟨body, scope⟩) (st.enterFunction ⟨body, scope⟩) body walked
      inner) :
    Declares inner.holders.get? ⟨body, scope⟩ ⟨walked, inner.frame.commit scope⟩ := by
  obtain ⟨-, free⟩ := enterFunction_table plain source h
  have tidied : Tidied inner.holders.get? [] walked inner :=
    h.tidied source free (fun _ _ held => held) rfl (tracked_enter plain rfl)
  have introduced : inner.frame.introduced.map Prod.snd =
      Node.aliasTargets inner.holders.get? walked := by
    rw [tidied.tracked.order, tidied.empty]
    exact List.append_nil _
  intro name
  have here : name ∈ inner.frame.assignedHere ↔ name ∈ Node.targets body := by
    rw [h.mem_assignedHere]
    exact or_iff_right (fun member => by cases member)
  change name ∈ (inner.frame.commit scope).locals ↔ _
  rw [Frame.commit, foldl_register, OrderedSet.mem_extend, OrderedSet.mem_extend, introduced,
    ← OrderedSet.mem_def, here, or_assoc]

end Analysis

section Functions

variable {globals : OrderedSet String} {table : AliasTable} {after : Assigned String}
  {f a : Block Node}

theorem ReadSite.exposed_iff {site : ReadSite} :
    site.exposed globals = true ↔ site.name ∉ globals ∧ site.name ∉ site.parameters ∧
      ∃ path ∈ site.paths, site.name ∉ path := decide_eq_true_iff

theorem Block.exists_ownRead {o : Occurrence} (member : o ∈ f.placeholders) :
    ∃ site ∈ f.ownReads, site.name = o.name := by
  have named : o.name ∈ f.ownReads.map ReadSite.name := by
    rw [Block.ownReads, Node.map_name_ownReadsOf]
    exact List.mem_map_of_mem member
  exact List.mem_map.1 named

/-- What an analysed function reads, its source reads. -/
theorem Optimizes.exists_ownRead (h : Optimizes table after f a) {o : Occurrence}
    (member : o ∈ a.placeholders) : ∃ site ∈ f.ownReads, site.name = o.name := by
  rcases h.expanded.mem_placeholders member with old | ⟨-, alternative, defined, held⟩
  · exact Block.exists_ownRead (o := o.bare) old
  · -- the look-up of a definition, so an alias is read somewhere, and that is a read of the source
    obtain ⟨read, inside, same, eligible, name, cached⟩ := h.exists_cached defined held
    rcases h.expanded.mem_placeholders inside with old | ⟨dynamic, -⟩
    · exact same ▸ Block.exists_ownRead (o := read.bare) old
    · rw [cached] at dynamic
      cases dynamic

/-- An exposed read of an analysed function comes from one of its source, of a variable that the
statements of the body do not set. -/
theorem Optimizes.exposed_source (h : Optimizes table after f a) (declares : Declares table f a)
    {site : ReadSite} (member : site ∈ a.ownReads) (exposed : site.exposed globals = true) :
    ∃ old ∈ f.ownReads, old.exposed globals = true ∧ old.name ∉ Node.targets f.body := by
  obtain ⟨outside, free, path, there, missing⟩ := ReadSite.exposed_iff.1 exposed
  rw [(Block.mem_ownReads member).1, ← OrderedSet.mem_def, declares, not_or, not_or] at free
  rcases (h.expanded.rereads [[]]).origin site member with old | ⟨alternative, held⟩
  · refine ⟨_, old, ReadSite.exposed_iff.2 ⟨outside, free.1, ?_⟩, free.2.1⟩
    refine ⟨table.erase path, List.mem_map_of_mem there, fun among => ?_⟩
    exact missing (List.mem_filter.1 among).1
  · have named : site.name ∈ (Node.placeholdersOf a.body).map Occurrence.name := by
      rw [← Node.map_name_ownReadsOf]
      exact List.mem_map_of_mem member
    obtain ⟨o, inside, same⟩ := List.mem_map.1 named
    obtain ⟨old, among, same'⟩ := h.exists_ownRead inside
    have name : old.name = site.name := same'.trans same
    obtain ⟨parameters, some, within⟩ := Block.mem_ownReads among
    obtain ⟨path, leads⟩ := List.exists_mem_of_ne_nil _ some
    refine ⟨old, among, ReadSite.exposed_iff.2 ⟨?_, ?_, path, leads, fun assigned => ?_⟩, ?_⟩
    · rwa [name]
    · rw [name, parameters]
      exact free.1
    · -- the variable is never assigned, as an alias stands for it
      exact (h.constant alternative site.name held).2 (name ▸ within path leads assigned)
    · rw [name]
      exact free.2.1

/-- An exposed read of a function is exposed in its analysed form, unless the statements of the body
set the variable or an alias has its name. -/
theorem Optimizes.exposed_analyzed (h : Optimizes table after f a)
    (declares : Declares table f a) {site : ReadSite} (member : site ∈ f.ownReads)
    (exposed : site.exposed globals = true) (unset : site.name ∉ Node.targets f.body)
    (apart : site.name ∉ f.introduced a) : ∃ new ∈ a.ownReads, new.exposed globals = true := by
  obtain ⟨outside, free, path, there, missing⟩ := ReadSite.exposed_iff.1 exposed
  obtain ⟨new, among, rfl⟩ := List.mem_map.1 ((h.expanded.rereads [[]]).kept member)
  obtain ⟨parameters, -, within⟩ := Block.mem_ownReads among
  refine ⟨new, among, ReadSite.exposed_iff.2 ⟨outside, ?_, ?_⟩⟩
  · rw [parameters, ← OrderedSet.mem_def, declares]
    rintro (old | set | defined)
    · exact free old
    · exact unset set
    · obtain ⟨target, held⟩ := List.mem_filter.1 defined
      have assigned : new.name ∈ Node.targets (Node.statementsOf a.body) := by
        rw [Node.statementsOf, Node.targets_append]
        exact List.mem_append_left _ target
      exact apart (h.expanded.mem_introduced.2 ⟨h.expanded.mem_targets.1 assigned, held⟩)
  · obtain ⟨path', leads, rfl⟩ := List.mem_map.1 there
    refine ⟨path', leads, fun passed => ?_⟩
    cases held : table new.name with
    | none => exact missing (List.mem_filter.2 ⟨passed, congrArg Option.isNone held⟩)
    | some c =>
      have isAlias : (table new.name).isSome := congrArg Option.isSome held
      exact apart (h.expanded.mem_introduced.2 ⟨within path' leads passed, isAlias⟩)

end Functions

theorem Node.Retopped.top_eq {root tree : Node} {out : List Node} (h : root.Retopped out tree)
    (placed : Node.arePlaced out) : tree.top = out ∧ tree.globals = root.globals := by
  cases h with
  | template => exact ⟨rfl, rfl⟩
  | alone single n' =>
    rw [Node.arePlaced, Bool.and_eq_true] at placed
    have proper : tree.top = [tree] ∧ tree.globals = ∅ := by
      cases tree with
      | template => simp [Node.isPlaced] at placed
      | _ => exact ⟨rfl, rfl⟩
    refine ⟨proper.1, proper.2.trans ?_⟩
    cases root with
    | template span name globals body =>
      have size := congrArg sizeOf single
      simp [Node.top] at size
      omega
    | _ => rfl

/-- The analysis keeps the reads outside functions as they are. -/
theorem Expanded.ownReads_outside {assigned after : Assigned String} {source out : List Node}
    (h : Expanded (fun _ => none) assigned [] source out after) {site : ReadSite} :
    site ∈ Node.ownReadsOf [] [[]] out ↔ site ∈ Node.ownReadsOf [] [[]] source := by
  have same {site : ReadSite} (member : site ∈ Node.ownReadsOf [] [[]] out) :
      site.erased (fun _ => none) [] = site := by
    obtain ⟨parameters, -⟩ := Node.pathsOver_ownReadsOf out (.nil []) member
    obtain ⟨name, span, _, paths⟩ := site
    cases parameters
    have erase : AliasTable.erase (fun _ => none) = id := funext fun path => by
      simp [AliasTable.erase]
    rw [ReadSite.erased, erase, List.map_id]
  have rereads : Rereads (fun _ => none) [] (Node.ownReadsOf [] [[]] source)
      (Node.ownReadsOf [] [[]] out) := h.rereads [[]]
  constructor
  · intro member
    rcases rereads.origin site member with old | ⟨_, held⟩
    · rwa [same member] at old
    · cases held
  · intro member
    obtain ⟨new, among, equal⟩ := List.mem_map.1 (rereads.kept member)
    rw [← equal, same among]
    exact among

section Trees

variable {options : Options} {root : Node} {analysis : Analysis}

theorem analyze_declares (source : root.isSource) (analyzed : root.analyze options = .ok analysis) :
    List.Forall₂ (fun f a => ∃ table after, Optimizes table after f a ∧ Declares table f a)
      root.functions analysis.tree.functions :=
  Analysis.analyze_forall_functions source analyzed fun plain source _ _ inside =>
    ⟨_, _, Analysis.enterFunction_optimizes plain source inside,
      Analysis.enterFunction_declares plain source inside⟩

/-- An analysed tree is rejected for a read outside functions that is exposed in the source, or for
one that is exposed in an analysed function. -/
theorem analyze_rejected_iff (source : root.isSource)
    (analyzed : root.analyze options = .ok analysis) :
    analysis.tree.Rejected ↔
      (∃ site ∈ Node.ownReadsOf [] [[]] root.top, site.exposed root.globals = true) ∨
      ∃ a ∈ analysis.tree.functions, ∃ site ∈ a.ownReads, site.exposed root.globals = true := by
  obtain ⟨out, after, expanded, shape⟩ := Analysis.analyze_expanded source analyzed
  obtain ⟨top, globals⟩ := shape.top_eq expanded.placed
  rw [Node.rejected_iff (top ▸ expanded.placed), top, globals]
  simp only [expanded.ownReads_outside]

theorem analyze_exposed_source (source : root.isSource)
    (analyzed : root.analyze options = .ok analysis)
    (h : ∃ a ∈ analysis.tree.functions, ∃ site ∈ a.ownReads, site.exposed root.globals = true) :
    ∃ f ∈ root.functions, ∃ site ∈ f.ownReads, site.exposed root.globals = true ∧
      site.name ∉ Node.targets f.body := by
  obtain ⟨a, function, site, member, exposed⟩ := h
  obtain ⟨f, among, table, after, optimizes, declares⟩ :=
    exists_mem_of_forall₂ (analyze_declares source analyzed) function
  exact ⟨f, among, optimizes.exposed_source declares member exposed⟩

end Trees

/-- Checking a tree after an analysis, compared with checking it at once. The analysis gives no cause
for a rejection. Where no alias has the name of a placeholder that is read, the analysed tree is
rejected exactly for an exposed read outside functions, or of a variable that the statements of its
function's body do not set; so the verdict is the same if no exposed read is of another kind. -/
theorem analyze_keeps_rejection (options : Options) (root : Node) (analysis : Analysis)
    (source : root.isSource) (analyzed : root.analyze options = .ok analysis) :
    (analysis.tree.Rejected → root.Rejected) ∧
    (List.Forall₂ (fun f a => ∀ site ∈ f.ownReads, site.name ∉ f.introduced a) root.functions
        analysis.tree.functions →
      (analysis.tree.Rejected ↔
        (∃ site ∈ Node.ownReadsOf [] [[]] root.top, site.exposed root.globals = true) ∨
        ∃ f ∈ root.functions, ∃ site ∈ f.ownReads, site.exposed root.globals = true ∧
          site.name ∉ Node.targets f.body) ∧
      ((∀ f ∈ root.functions, ∀ site ∈ f.ownReads, site.exposed root.globals = true →
          site.name ∉ Node.targets f.body) →
        (analysis.tree.Rejected ↔ root.Rejected))) := by
  have before := Node.rejected_iff (Node.arePlaced_of_areStatements root.top source)
  have again := analyze_rejected_iff source analyzed
  constructor
  · intro rejected
    refine before.2 ((again.1 rejected).imp_right fun inside => ?_)
    obtain ⟨f, function, site, member, exposed, -⟩ := analyze_exposed_source source analyzed inside
    exact ⟨f, function, site, member, exposed⟩
  · intro apart
    have exactly : analysis.tree.Rejected ↔
        (∃ site ∈ Node.ownReadsOf [] [[]] root.top, site.exposed root.globals = true) ∨
        ∃ f ∈ root.functions, ∃ site ∈ f.ownReads, site.exposed root.globals = true ∧
          site.name ∉ Node.targets f.body := by
      refine again.trans (or_congr_right ⟨analyze_exposed_source source analyzed, ?_⟩)
      rintro ⟨f, function, site, member, exposed, unset⟩
      have pairs := apart.mp (fun f a clear pair => And.intro clear pair)
        (analyze_declares source analyzed)
      obtain ⟨a, among, clear, table, after, optimizes, declares⟩ :=
        exists_mem_of_forall₂ pairs.flip function
      exact ⟨a, among, optimizes.exposed_analyzed declares member exposed unset (clear site member)⟩
    refine ⟨exactly, fun unset => exactly.trans (Iff.trans (or_congr_right ?_) before.symm)⟩
    constructor
    · rintro ⟨f, function, site, member, exposed, -⟩
      exact ⟨f, function, site, member, exposed⟩
    · rintro ⟨f, function, site, member, exposed⟩
      exact ⟨f, function, site, member, exposed, unset f function site member exposed⟩

/-- A function that assigns a variable in a branch only, and reads it afterwards. -/
def unsettled : Block Node :=
  let title := Node.placeholder .generated "title" none
  .plain
    [.write .generated title,
      .conditional .generated title
        (.plain [.assign .generated "line" (.identifier .generated "hello")]) none,
      .write .generated (.placeholder .generated "line" none)]

def unsettledPage : Node :=
  .template .generated "page" (.ofList ["title"]) [.function .generated "unsettled" unsettled]

theorem unsettledPage_analyze :
    ∃ analysis a, unsettledPage.analyze .caching = .ok analysis ∧ analysis.tree.functions = [a] ∧
      unsettled.introduced a = ["_rph_title"] :=
  ⟨_, _, rfl, rfl, by decide +kernel⟩

theorem unsettled_keeps_rejection :
    ∃ analysis a, unsettledPage.isSource = true ∧
      unsettledPage.analyze .caching = .ok analysis ∧ analysis.tree.functions = [a] ∧
      unsettled.introduced a = ["_rph_title"] ∧
      (∀ site ∈ unsettled.ownReads, site.name ∉ unsettled.introduced a) ∧
      (∀ site ∈ unsettled.ownReads, site.exposed (.ofList ["title"]) = true →
        site.name ∉ Node.targets unsettled.body) ∧
      unsettledPage.Rejected ∧ analysis.tree.Rejected := by
  obtain ⟨analysis, a, analyzed, functions, introduced⟩ := unsettledPage_analyze
  have clear : ∀ site ∈ unsettled.ownReads, site.name ∉ unsettled.introduced a := by
    rw [introduced]
    decide
  have unset : ∀ site ∈ unsettled.ownReads, site.exposed (.ofList ["title"]) = true →
      site.name ∉ Node.targets unsettled.body := by decide
  have all := analyze_keeps_rejection .caching unsettledPage analysis (by decide) analyzed
  have apart := all.2 (by rw [functions]; exact .cons clear .nil)
  have rejected : analysis.tree.Rejected :=
    apart.1.2 (.inr ⟨unsettled, List.mem_cons_self, by decide⟩)
  have same := apart.2 (by
    intro f member
    rw [List.mem_singleton.1 member]
    exact unset)
  exact ⟨analysis, a, by decide, analyzed, functions, introduced, clear, unset, same.1 rejected,
    rejected⟩

/-- A function that reads a variable and sets it afterwards. -/
def hasty : Block Node :=
  .plain
    [.write .generated (.placeholder .generated "foo" none),
      .assign .generated "foo" (.identifier .generated "hello")]

def hastyPage : Node := .template .generated "page" ∅ [.function .generated "hasty" hasty]

/-- The first analysis declares the variable in the scope of the function, and from then on the
read passes for assigned. -/
theorem analyze_forgives_early_read :
    ∃ analysis again, hastyPage.isSource = true ∧ hastyPage.Rejected ∧
      hastyPage.analyze {} = .ok analysis ∧ analysis.tree.analyze .checking = .ok again ∧
      ¬ analysis.tree.Rejected := by
  refine ⟨_, _, by decide, ⟨_, _, _, rfl, rfl⟩, rfl, rfl, ?_⟩
  rintro ⟨failure, missing, place, failed, -⟩
  cases failed

end Stencil
