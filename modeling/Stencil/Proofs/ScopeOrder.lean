import Stencil.Proofs.Coherence
import Stencil.Proofs.Novelty

/-!
# The order of aliases in a scope

A scope lists an alias behind those that its computation reads. The analysis introduces aliases in
this order. When a definition leaves the branches of a conditional, the block around them registers
its alias last: no alias listed there can read it, since what a listed alias reads is listed itself
or set further outside, and what is set outside is not defined again.

* `Block.Grounded.sorted`: the analysis leaves scopes sorted.
* `Block.Grounded.sorted_hoisted`: so does the hoisting pass.
-/

namespace Stencil

/-- A scope that lists each alias once and behind those that its computation reads, where the given
variables are set around it. -/
structure Scope.Sorted (table : AliasTable) (outer : List String) (scope : Scope) : Prop where
  lists : scope.Lists table
  ordered : scope.aliases.toList.Pairwise fun first second =>
    second.2 ≠ first.2 ∧ second.2 ∉ first.1.identifiers
  closed : ∀ entry ∈ scope.aliases.toList, ∀ name ∈ entry.1.identifiers,
    name ∈ outer ∨ name ∈ scope.aliases.values

section Analysed

variable {table : AliasTable} {assigned after : Assigned String} {defined outer : List String}
  {source out : List Node}

/-- A definition reads aliases that are defined. -/
theorem Definition.reads {c : Computation} {value : Node} (h : Definition table defined c value)
    {name : String} (read : name ∈ c.identifiers) : name ∈ defined ∧ (table name).isSome := by
  cases h with
  | lookup => cases read
  | filter span place filter ready held =>
    rw [List.mem_singleton.1 read]
    exact ⟨ready, held⟩

theorem Node.aliasTargets_cons_of_none {n : Node} (unset : n.target? = none) (rest : List Node) :
    Node.aliasTargets table (n :: rest) = Node.aliasTargets table rest := by
  rw [Node.aliasTargets, Node.targets_cons_of_none unset]
  rfl

/-- The definitions of a body come in an order in which each reads earlier ones only. -/
theorem Expanded.aliasTargets_ordered (h : Expanded table assigned defined source out after)
    (distinct : (Node.aliasTargets table out).Nodup)
    (apart : ∀ name ∈ Node.aliasTargets table out, name ∉ defined) :
    (Node.aliasTargets table out).Pairwise
        (fun first second => ∀ c, table first = some c → second ∉ c.identifiers) ∧
      ∀ name ∈ Node.aliasTargets table out, ∀ c, table name = some c → ∀ read ∈ c.identifiers,
        (table read).isSome ∧ (read ∈ defined ∨ read ∈ Node.aliasTargets table out) := by
  induction h with
  | nil => exact ⟨.nil, fun name member => by cases member⟩
  | @define table assigned after defined source out alternative c value span held definition _ ih =>
    have split : Node.aliasTargets table (.assign span alternative value :: out) =
        alternative :: Node.aliasTargets table out :=
      List.filter_cons_of_pos (by rw [held]; rfl)
    rw [split, List.nodup_cons] at distinct
    rw [split] at apart ⊢
    obtain ⟨ordered, closed⟩ := ih distinct.2 (by
      intro name member there
      rcases List.mem_append.1 there with earlier | now
      · exact apart name (List.mem_cons_of_mem _ member) earlier
      · rw [List.mem_singleton.1 now] at member
        exact distinct.1 member)
    refine ⟨.cons (fun name member c' held' read => ?_) ordered, ?_⟩
    · rw [held] at held'
      cases held'
      exact apart name (List.mem_cons_of_mem _ member) (definition.reads read).1
    · intro name member c' held' read among
      rcases List.mem_cons.1 member with rfl | behind
      · rw [held] at held'
        cases held'
        exact ⟨(definition.reads among).2, .inl (definition.reads among).1⟩
      · obtain ⟨aliased, there⟩ := closed name behind c' held' read among
        refine ⟨aliased, ?_⟩
        simp only [List.mem_append, List.mem_cons] at there ⊢
        grind
  | @assign table assigned after defined source out target value value' span free _ _ ih =>
    have same : Node.aliasTargets table (.assign span target value' :: out) =
        Node.aliasTargets table out :=
      List.filter_cons_of_neg (by rw [free]; exact Bool.false_ne_true)
    rw [same] at distinct apart ⊢
    have unaliased : target ∉ Node.aliasTargets table out := by
      intro member
      have held := (List.mem_filter.1 member).2
      rw [free] at held
      cases held
    obtain ⟨ordered, closed⟩ := ih distinct (by
      intro name member there
      rcases List.mem_append.1 there with earlier | now
      · exact apart name member earlier
      · rw [List.mem_singleton.1 now] at member
        exact unaliased member)
    refine ⟨ordered, fun name member c held read among => ?_⟩
    obtain ⟨aliased, there⟩ := closed name member c held read among
    refine ⟨aliased, there.imp_left fun earlier => ?_⟩
    rcases List.mem_append.1 earlier with before | now
    · exact before
    · rw [List.mem_singleton.1 now, free] at aliased
      cases aliased
  | write _ _ _ ih =>
    rw [Node.aliasTargets_cons_of_none rfl] at distinct apart ⊢
    exact ih distinct apart
  | expression noted _ ih =>
    rw [Node.aliasTargets_cons_of_none noted.target_eq] at distinct apart ⊢
    exact ih distinct apart
  | branch _ _ _ _ _ _ ih =>
    rw [Node.aliasTargets_cons_of_none rfl] at distinct apart ⊢
    exact ih distinct apart
  | branches _ _ _ _ _ _ _ _ _ ih =>
    rw [Node.aliasTargets_cons_of_none rfl] at distinct apart ⊢
    exact ih distinct apart
  | function _ _ _ _ _ _ _ _ ih =>
    rw [Node.aliasTargets_cons_of_none rfl] at distinct apart ⊢
    exact ih distinct apart

/-- The analysis leaves scopes sorted. -/
theorem Block.Grounded.sorted {block : Block Node} (h : block.Grounded table outer) :
    block.scope.Sorted table outer := by
  obtain ⟨assigned, source, after, expanded⟩ := h.expanded
  have lists := h.tidy.lists
  have distinct := lists.nodup_values
  have values := h.tidy.values
  have among {name : String} (member : name ∈ Node.aliasTargets table block.body) :
      name ∉ outer := by
    obtain ⟨target, held⟩ := List.mem_filter.1 member
    refine h.apart name ?_ held
    exact Node.targets_append _ _ ▸ List.mem_append_left _ target
  obtain ⟨ordered, closed⟩ :=
    expanded.aliasTargets_ordered (values ▸ distinct) fun name member => among member
  rw [← values] at ordered closed
  refine ⟨lists, ?_, fun entry listed name read => ?_⟩
  · have both := List.pairwise_map.1 (List.pairwise_and_iff.2 ⟨distinct, ordered⟩)
    refine both.imp_of_mem fun listed _ h => ⟨h.1.symm, h.2 _ (lists _ listed)⟩
  · exact (closed entry.2 (List.mem_map_of_mem listed) entry.1 (lists entry listed) name read).2

end Analysed

section Register

variable {table : AliasTable} {outer : List String} {scope : Scope} {c : Computation}
  {name : String}

theorem Scope.toList_register (scope : Scope) (c : Computation) (name : String) :
    (scope.register c name).aliases.toList =
      if (scope.aliases.get? c).isSome then scope.aliases.toList
      else scope.aliases.toList ++ [(c, name)] := by
  rw [Scope.register, OrderedMap.insertIfNew]
  split
  · rfl
  · rename_i new
    exact OrderedMap.toList_insert_of_get? name (by simpa using new)

theorem Scope.values_register_subset (scope : Scope) (c : Computation) (name : String) :
    scope.aliases.values ⊆ (scope.register c name).aliases.values := by
  intro other member
  rw [OrderedMap.values, Scope.toList_register]
  split
  · exact member
  · rw [List.map_append]
    exact List.mem_append_left _ member

theorem Scope.Lists.mem_values_register (h : scope.Lists table) (injective : table.Injective)
    (held : table name = some c) : name ∈ (scope.register c name).aliases.values := by
  rw [OrderedMap.mem_values_iff]
  exact ⟨c, (h.get?_register injective held c).trans (if_pos rfl)⟩

/-- An alias that is not set outside, and that reads what is listed or set outside, is registered
behind all others. -/
theorem Scope.Sorted.register (h : scope.Sorted table outer) (held : table name = some c)
    (inner : name ∉ outer)
    (reads : ∀ read ∈ c.identifiers, read ∈ outer ∨ read ∈ scope.aliases.values) :
    (scope.register c name).Sorted table outer := by
  have grown := scope.values_register_subset c name
  refine ⟨Analysis.register_lists h.lists held, ?_, fun entry listed read among => ?_⟩
  · rw [Scope.toList_register]
    split
    · exact h.ordered
    · rename_i new
      -- the alias is new here, so no listed one has its name or reads it
      have unlisted : name ∉ scope.aliases.values := by
        intro listed
        obtain ⟨c', found⟩ := OrderedMap.mem_values_iff.1 listed
        have same := h.lists.get found
        rw [held] at same
        cases same
        exact new (by rw [found]; rfl)
      refine List.pairwise_append.2 ⟨h.ordered, List.pairwise_singleton _ _, ?_⟩
      intro entry listed last equal
      obtain rfl : last = (c, name) := List.mem_singleton.1 equal
      constructor
      · intro same
        exact unlisted (List.mem_map.2 ⟨entry, listed, same.symm⟩)
      · intro read
        rcases h.closed entry listed name read with outside | inside
        · exact inner outside
        · exact unlisted inside
  · rcases OrderedMap.mem_insertIfNew listed with rfl | old
    · exact (reads read among).imp_right fun there => grown there
    · exact (h.closed entry old read among).imp_right fun there => grown there

end Register

namespace Hoisting

/-- A move takes one definition out of both branches, unless one of them cannot lose it. -/
theorem Exchange.move_cases (x : Exchange) (span : Span) (c : Computation) (name : String) :
    (x.move span (c, name) = x ∧
      (definition? name x.thenBranch.body = none ∨ definition? name x.elseBranch.body = none)) ∨
    ∃ definition thenBody other elseBody,
      definition? name x.thenBranch.body = some (definition, thenBody) ∧
      definition? name x.elseBranch.body = some (other, elseBody) ∧
      x.move span (c, name) =
        { thenBranch := ⟨thenBody, x.thenBranch.scope.forget c⟩
          elseBranch := ⟨elseBody, x.elseBranch.scope.forget c⟩
          enclosing := x.enclosing.register c name
          moved := x.moved ++ [definition]
          events := x.events ++ [⟨name, c, .thenBranch, span⟩, ⟨name, c, .elseBranch, span⟩] } := by
  unfold Exchange.move
  simp only
  split
  · rename_i definition thenBody other elseBody leavesThen leavesElse
    exact .inr ⟨definition, thenBody, other, elseBody, leavesThen, leavesElse, rfl⟩
  · rename_i stays
    refine .inl ⟨rfl, ?_⟩
    cases inThen : definition? name x.thenBranch.body with
    | none => exact .inl rfl
    | some taken =>
      cases inElse : definition? name x.elseBranch.body with
      | none => exact .inr rfl
      | some other => exact absurd inElse (stays _ _ _ _ inThen)

theorem definition?_subset {name : String} {body rest : List Node} {taken : Node}
    (h : definition? name body = some (taken, rest)) : taken ∈ body ∧ rest ⊆ body := by
  obtain ⟨front, back, place, value, rfl, -, rfl, rfl⟩ := definition?_split h
  constructor
  · exact List.mem_append_right _ List.mem_cons_self
  · intro n member
    rcases List.mem_append.1 member with before | behind
    · exact List.mem_append_left _ before
    · exact List.mem_append_right _ (List.mem_cons_of_mem _ behind)

/-- A branch loses statements in a move, and gains none. -/
theorem Exchange.move_subset (x : Exchange) (span : Span) (entry : Computation × String) :
    (x.move span entry).thenBranch.body ⊆ x.thenBranch.body ∧
      (x.move span entry).elseBranch.body ⊆ x.elseBranch.body := by
  obtain ⟨c, name⟩ := entry
  rcases x.move_cases span c name with ⟨same, -⟩ |
    ⟨definition, thenBody, other, elseBody, leavesThen, leavesElse, moved⟩
  · rw [same]
    exact ⟨fun _ member => member, fun _ member => member⟩
  · rw [moved]
    exact ⟨(definition?_subset leavesThen).2, (definition?_subset leavesElse).2⟩

section Lifting

variable {table : AliasTable} {assigned after inThen inElse : Assigned String}
  {defined outer : List String} {source out thenSource elseSource : List Node}

/-- What an exchange keeps about the scope around the conditional: it stays sorted, and lists what
has moved. -/
structure Arranged (table : AliasTable) (outer : List String) (scope : Scope) (x : Exchange) :
    Prop where
  sorted : x.enclosing.Sorted table outer
  grown : scope.aliases.values ⊆ x.enclosing.aliases.values
  moved : ∀ name ∈ Node.targets x.moved, name ∈ x.enclosing.aliases.values

theorem Arranged.move {scope : Scope} {x : Exchange} {total : (Step → Bool) → Int}
    (h : Arranged table outer scope x) (injective : table.Injective)
    (balanced : Balanced table assigned defined thenSource elseSource inThen inElse total x)
    (seen : ∀ name ∈ defined, (table name).isSome → name ∈ outer ∨ name ∈ scope.aliases.values)
    (apart : ∀ name ∈ Node.targets x.thenBranch.body, (table name).isSome → name ∉ outer)
    (span : Span) {entry : Computation × String} (held : table entry.2 = some entry.1) :
    Arranged table outer scope (x.move span entry) := by
  obtain ⟨c, name⟩ := entry
  rcases x.move_cases span c name with ⟨same, -⟩ |
    ⟨definition, thenBody, other, elseBody, leavesThen, -, moved⟩
  · rw [same]
    exact h
  · obtain ⟨place, value, rfl, ready, -, -⟩ := balanced.thenSide.definition held leavesThen
    have target : name ∈ Node.targets x.thenBranch.body :=
      List.mem_filterMap.2 ⟨_, (definition?_subset leavesThen).1, rfl⟩
    have inner : name ∉ outer := apart name target (by rw [held]; rfl)
    have grown := x.enclosing.values_register_subset c name
    rw [moved]
    refine ⟨h.sorted.register held inner fun read among => ?_, fun _ member => grown (h.grown member),
      fun other member => ?_⟩
    · obtain ⟨there, aliased⟩ := ready.reads among
      rcases List.mem_append.1 there with before | earlier
      · exact (seen read before aliased).imp_right fun listed => h.grown listed
      · exact .inr (h.moved read earlier)
    · rw [Node.targets_snoc, List.mem_append, List.mem_singleton] at member
      rcases member with old | rfl
      · exact grown (h.moved other old)
      · exact h.sorted.lists.mem_values_register injective held

/-- An exchange leaves the scope around the conditional sorted. -/
theorem exchange_arranged (span : Span) (thenBranch elseBranch : Block Node) {scope : Scope}
    (injective : table.Injective)
    (thenSide : Expanded table assigned defined thenSource thenBranch.body inThen)
    (elseSide : Expanded table assigned defined elseSource elseBranch.body inElse)
    (thenLists : thenBranch.scope.Lists table) (elseLists : elseBranch.scope.Lists table)
    (sorted : scope.Sorted table outer)
    (seen : ∀ name ∈ defined, (table name).isSome → name ∈ outer ∨ name ∈ scope.aliases.values)
    (apart : ∀ name ∈ Node.targets thenBranch.body, (table name).isSome → name ∉ outer) :
    Arranged table outer scope (exchange span thenBranch elseBranch scope) := by
  refine (exchange_induction (P := fun x =>
    Balanced table assigned defined thenSource elseSource inThen inElse _ x ∧
      x.thenBranch.body ⊆ thenBranch.body ∧ Arranged table outer scope x) span thenBranch elseBranch
    scope ⟨.start thenSide elseSide thenLists elseLists sorted.lists, fun _ member => member, sorted,
      fun _ member => member, fun name member => by cases member⟩ ?_).2.2
  intro x entry member ⟨balanced, sub, arranged⟩
  have held := thenLists entry member
  refine ⟨balanced.move span held, fun n left => sub ((x.move_subset span entry).1 left),
    arranged.move injective balanced seen (fun name target => apart name ?_) span held⟩
  obtain ⟨n, among, sets⟩ := List.mem_filterMap.1 target
  exact List.mem_filterMap.2 ⟨n, sub among, sets⟩

/-- A sorted scope around statements of its block: what is defined in front of them is listed or set
outside, what they define is listed, and nothing in them defines what is set outside. -/
structure Hosts (table : AliasTable) (outer defined : List String) (out : List Node)
    (scope : Scope) : Prop where
  sorted : scope.Sorted table outer
  seen : ∀ name ∈ defined, (table name).isSome → name ∈ outer ∨ name ∈ scope.aliases.values
  own : ∀ name ∈ Node.targets out, (table name).isSome → name ∈ scope.aliases.values
  apart : ∀ name ∈ Node.targets (Node.statementsOf out), (table name).isSome → name ∉ outer

theorem Hosts.behind {more : List String} {n : Node} {scope : Scope}
    (h : Hosts table outer defined (n :: out) scope)
    (sub : ∀ name ∈ more, name ∈ defined ∨ n.target? = some name) :
    Hosts table outer more out scope := by
  refine ⟨h.sorted, fun name member held => ?_, fun name member held => ?_,
    fun name member held => h.apart name (Node.mem_targets_cons.2 (.inr (.inr member))) held⟩
  · rcases sub name member with earlier | here
    · exact h.seen name earlier held
    · exact .inr (h.own name (List.mem_filterMap.2 ⟨n, List.mem_cons_self, here⟩) held)
  · obtain ⟨n', among, sets⟩ := List.mem_filterMap.1 member
    exact h.own name (List.mem_filterMap.2 ⟨n', List.mem_cons_of_mem _ among, sets⟩) held

theorem Hosts.arranged {scope : Scope} {x : Exchange} (h : Hosts table outer defined out scope)
    (arranged : Arranged table outer scope x) : Hosts table outer defined out x.enclosing :=
  ⟨arranged.sorted, fun name member held => (h.seen name member held).imp_right (arranged.grown ·),
    fun name member held => arranged.grown (h.own name member held), h.apart⟩

/-- Moving definitions out of the conditionals of a body leaves its scope sorted. -/
theorem lift_sorted (h : Expanded table assigned defined source out after) {scope : Scope}
    (injective : table.Injective) (hosts : Hosts table outer defined out scope) :
    (lift out scope).2.1.Sorted table outer := by
  have last {defined : List String} {target : String} :
      ∀ name ∈ defined ++ [target], name ∈ defined ∨ some target = some name := by
    intro name member
    rcases List.mem_append.1 member with earlier | now
    · exact .inl earlier
    · exact .inr (congrArg some (List.mem_singleton.1 now).symm)
  induction h generalizing scope with
  | nil => exact hosts.sorted
  | define _ _ _ _ ih | assign _ _ _ _ ih => exact ih injective (hosts.behind last)
  | write _ _ _ ih | branch _ _ _ _ _ _ ih | function _ _ _ _ _ _ _ _ ih =>
    exact ih injective (hosts.behind fun _ member => .inl member)
  | expression noted _ ih =>
    rw [(lift_cons_of_resolved noted.resolved _ scope).2]
    exact ih injective (hosts.behind fun _ member => .inl member)
  | @branches table assigned inThen inElse after defined source out thenBody thenBody' elseBody
      elseBody' condition condition' thenScope thenScope' elseScope elseScope' span noted thenLists
      elseLists thenSide elseSide later _ _ ih =>
    have behind : Hosts table outer defined out scope := hosts.behind fun _ member => .inl member
    have arranged : Arranged table outer scope
        (exchange span ⟨thenBody', thenScope'⟩ ⟨elseBody', elseScope'⟩ scope) := by
      refine exchange_arranged span _ _ injective thenSide elseSide thenLists elseLists hosts.sorted
        hosts.seen fun name member held => hosts.apart name ?_ held
      obtain ⟨n, among, sets⟩ := List.mem_filterMap.1 member
      have inside : (⟨thenBody', thenScope'⟩ : Block Node) ∈ (Node.conditional span condition'
          ⟨thenBody', thenScope'⟩ (some ⟨elseBody', elseScope'⟩)).branches := by
        rw [Node.branches_branches]
        exact List.mem_append_left _ (List.mem_append_right _ List.mem_cons_self)
      exact Node.mem_targets_cons.2
        (.inr (.inl (List.mem_filterMap.2 ⟨n, List.mem_flatMap.2 ⟨_, inside, among⟩, sets⟩)))
    exact ih injective (behind.arranged arranged)

end Lifting

theorem target_hoist (n : Node) : (hoist n).1.target? = n.target? := by
  cases n with
  | conditional span condition thenBranch elseBranch =>
    obtain ⟨thenBody, thenScope⟩ := thenBranch
    cases elseBranch with
    | none => rfl
    | some elseBranch => rfl
  | template | function | assign | identifier | placeholder | literal | binary | filter | call
  | list | write => rfl

/-- A block sets as much itself when definitions have moved below it. -/
theorem targets_hoistEach (body : List Node) :
    Node.targets (hoistEach body).1 = Node.targets body := by
  induction body with
  | nil => rfl
  | cons n rest ih =>
    simp only [Node.targets, hoistEach, List.filterMap_cons, target_hoist] at ih ⊢
    rw [ih]

end Hoisting

open Hoisting

/-- The hoisting pass leaves scopes sorted. -/
theorem Block.Grounded.sorted_hoisted {table : AliasTable} {outer : List String}
    {block : Block Node} (h : block.Grounded table outer) (injective : table.Injective) :
    block.hoisted.scope.Sorted table outer := by
  obtain ⟨assigned, source, after, expanded⟩ := h.expanded
  refine lift_sorted (hoistEach_expanded expanded).1 injective
    ⟨h.sorted, fun name there _ => .inl there, fun name member held => ?_, fun name member => ?_⟩
  · rw [targets_hoistEach] at member
    exact h.tidy.registered held member
  · obtain ⟨inner, among, target⟩ :
        ∃ inner ∈ Block.blocks ⟨(hoistEach block.body).1, block.scope⟩,
          name ∈ Node.targets inner.body := Block.mem_targets.1 member
    exact (targets_kept fun name => (table name).isSome → name ∉ outer).forall_blocks
      (hoistEach_moves expanded [] block.scope) (fun inner below name target =>
        h.apart name (Block.mem_targets.2 ⟨inner, below, target⟩)) inner among name target

end Stencil
