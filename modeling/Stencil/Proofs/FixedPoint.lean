import Stencil.Proofs.ScopeOrder
import Mathlib.Data.List.Induction

/-!
# One run of the hoisting pass is enough

A conditional is still when no alias that both branches hold can leave both of them. The pass makes
every conditional still: it goes over the shared aliases in their order, and an alias that has to
stay reads something that its branch sets, which no later move takes away, since what an alias reads
is listed in front of it. Moves further out only take statements away from the branches around a
conditional, and leave it still.

* `exchange_still`: an exchange makes a conditional still.
* `hoist_of_quiet`: where every conditional is still the pass does nothing.
* `optimize_hoists_to_fixed_point`: a second run of the pass does nothing.
-/

namespace Stencil

namespace Hoisting

/-- Two branches of which one has to keep the definition of every alias that they share. -/
def Still (thenBranch elseBranch : Block Node) : Prop :=
  ∀ entry ∈ shared thenBranch.scope elseBranch.scope,
    definition? entry.2 thenBranch.body = none ∨ definition? entry.2 elseBranch.body = none

/-- Statements with still conditionals. -/
def Quiet (body : List Node) : Prop :=
  ∀ span condition thenBranch elseBranch,
    .conditional span condition thenBranch (some elseBranch) ∈ body → Still thenBranch elseBranch

/-! ### Nothing leaves a still conditional -/

theorem exchange_of_still {thenBranch elseBranch : Block Node} (still : Still thenBranch elseBranch)
    (span : Span) (scope : Scope) :
    exchange span thenBranch elseBranch scope = ⟨thenBranch, elseBranch, scope, [], []⟩ := by
  refine List.foldlRecOn
    (motive := fun x : Exchange => x = ⟨thenBranch, elseBranch, scope, [], []⟩) _ _ rfl
    fun x same entry member => ?_
  rw [same]
  obtain ⟨c, name⟩ := entry
  rcases Exchange.move_cases ⟨thenBranch, elseBranch, scope, [], []⟩ span c name with
    ⟨unmoved, -⟩ | ⟨_, _, _, _, leavesThen, leavesElse, -⟩
  · exact unmoved
  · rcases still (c, name) member with none | none
    · rw [none] at leavesThen
      cases leavesThen
    · rw [none] at leavesElse
      cases leavesElse

theorem lift_of_quiet {body : List Node} (quiet : Quiet body) (scope : Scope) :
    lift body scope = (body, scope, []) := by
  have behind {n : Node} {rest : List Node} (quiet : Quiet (n :: rest)) : Quiet rest :=
    fun span condition thenBranch elseBranch member =>
      quiet span condition thenBranch elseBranch (List.mem_cons_of_mem _ member)
  fun_induction lift body scope with
  | case1 => rfl
  | case2 span condition thenBranch elseBranch rest scope x lifted after events same ih =>
    have unmoved : x = ⟨thenBranch, elseBranch, scope, [], []⟩ :=
      exchange_of_still (quiet _ _ _ _ List.mem_cons_self) span scope
    have idle := same.symm.trans (ih (behind quiet))
    rw [unmoved] at idle ⊢
    cases idle
    rfl
  | case3 scope n rest other lifted after events same ih =>
    have idle := same.symm.trans (ih (behind quiet))
    cases idle
    rfl

mutual

/-- The pass does nothing to a tree in whose blocks every conditional is still. -/
theorem hoist_of_quiet (n : Node) (own : ∀ block ∈ n.branches, Quiet block.body)
    (inner : ∀ f ∈ n.functions, ∀ block ∈ f.blocks, Quiet block.body) : hoist n = (n, []) := by
  cases n with
  | template span name globals body => rw [hoist, hoistEach_of_quiet body own inner]
  | function span name block =>
    obtain ⟨body, scope⟩ := block
    rw [Node.functions_function, List.forall_mem_cons, Block.blocks, List.forall_mem_cons] at inner
    obtain ⟨⟨quiet, below⟩, inside⟩ := inner
    rw [hoist, hoistEach_of_quiet body below inside]
    simp only [lift_of_quiet quiet scope, List.append_nil]
  | conditional span condition thenBranch elseBranch =>
    obtain ⟨thenBody, thenScope⟩ := thenBranch
    cases elseBranch with
    | none =>
      rw [Node.functions_branch] at inner
      simp only [Node.branches, List.forall_mem_append, List.forall_mem_cons] at own inner
      obtain ⟨inCondition, quiet, inThen⟩ := own
      rw [hoist, hoist_of_quiet condition inCondition inner.1,
        hoistEach_of_quiet thenBody inThen inner.2]
      simp only [lift_of_quiet quiet thenScope, List.append_nil]
    | some block =>
      obtain ⟨elseBody, elseScope⟩ := block
      rw [Node.functions_branches] at inner
      simp only [Node.branches, List.forall_mem_append, List.forall_mem_cons] at own inner
      obtain ⟨⟨inCondition, quietThen, inThen⟩, quietElse, inElse⟩ := own
      rw [hoist, hoist_of_quiet condition inCondition inner.1.1,
        hoistEach_of_quiet thenBody inThen inner.1.2, hoistEach_of_quiet elseBody inElse inner.2]
      simp only [lift_of_quiet quietThen thenScope, lift_of_quiet quietElse elseScope,
        List.append_nil]
  | assign span target value => rw [hoist, hoist_of_quiet value own inner]
  | identifier | placeholder | literal => rfl
  | binary span op left right =>
    rw [Node.functions_binary] at inner
    simp only [Node.branches, List.forall_mem_append] at own inner
    rw [hoist, hoist_of_quiet left own.1 inner.1, hoist_of_quiet right own.2 inner.2]
    rfl
  | filter span operand name cachedAs => rw [hoist, hoist_of_quiet operand own inner]
  | call span callee arguments =>
    rw [Node.functions_call] at inner
    simp only [Node.branches, List.forall_mem_append] at own inner
    rw [hoist, hoist_of_quiet callee own.1 inner.1, hoistEach_of_quiet arguments own.2 inner.2]
    rfl
  | list span items => rw [hoist, hoistEach_of_quiet items own inner]
  | write span operand => rw [hoist, hoist_of_quiet operand own inner]
termination_by structural n

theorem hoistEach_of_quiet (ns : List Node) (own : ∀ block ∈ Node.branchesOf ns, Quiet block.body)
    (inner : ∀ f ∈ Node.functionsOf ns, ∀ block ∈ f.blocks, Quiet block.body) :
    hoistEach ns = (ns, []) := by
  cases ns with
  | nil => rfl
  | cons n rest =>
    rw [Node.functionsOf_cons] at inner
    simp only [Node.branchesOf, List.forall_mem_append] at own inner
    rw [hoistEach, hoist_of_quiet n own.1 inner.1, hoistEach_of_quiet rest own.2 inner.2]
    rfl
termination_by structural ns

end

/-! ### An exchange makes a conditional still -/

theorem takeAssignment?_isSome_iff {name : String} {body : List Node} :
    (takeAssignment? name body).isSome ↔ name ∈ Node.targets body := by
  induction body with
  | nil => simp [takeAssignment?, Node.targets]
  | cons n rest ih =>
    by_cases here : n.target? = some name
    · cases n with
      | assign span target value =>
        cases here
        simp [takeAssignment?, Node.targets, Node.target?]
      | template | function | conditional | identifier | placeholder | literal | binary | filter
      | call | list | write => cases here
    · rw [takeAssignment?_cons_of_ne here, Option.isSome_map, ih]
      simp [Node.targets, List.mem_filterMap, here]

theorem assigns_iff {name : String} {body : List Node} :
    assigns body name = true ↔ name ∈ Node.targets body := by
  simp [assigns, Node.targets, List.any_eq_true, List.mem_filterMap]

/-- A body gives an alias only the value of its computation. -/
def Computes (body : List Node) (entry : Computation × String) : Prop :=
  ∀ span value, .assign span entry.2 value ∈ body → value.computation? = some entry.1

theorem Computes.subset {body rest : List Node} {entry : Computation × String}
    (h : Computes body entry) (sub : rest ⊆ body) : Computes rest entry :=
  fun span value member => h span value (sub member)

/-- The definition of an alias may leave a body that sets the alias and nothing that it reads. -/
theorem definition?_isSome_iff {body : List Node} {entry : Computation × String}
    (computes : Computes body entry) :
    (definition? entry.2 body).isSome ↔
      entry.2 ∈ Node.targets body ∧ ∀ read ∈ entry.1.identifiers, read ∉ Node.targets body := by
  rw [← takeAssignment?_isSome_iff]
  unfold definition?
  cases found : takeAssignment? entry.2 body with
  | none => simp
  | some taken =>
    obtain ⟨value, assignment, rest⟩ := taken
    obtain ⟨span, front, back, rfl, split, -⟩ := takeAssignment?_split found
    have computed := computes span value (by
      rw [split]
      exact List.mem_append_right _ List.mem_cons_self)
    simp [computed, assigns_iff, List.any_eq_true]

/-- What has to stay in a body has to stay when another definition leaves that it does not read. -/
theorem definition?_eq_none_of_leaves {body rest : List Node} {taken : Node} {name : String}
    {entry : Computation × String} (computes : Computes body entry)
    (leaves : definition? name body = some (taken, rest)) (different : name ≠ entry.2)
    (unread : name ∉ entry.1.identifiers) (stays : definition? entry.2 body = none) :
    definition? entry.2 rest = none := by
  have sub := (definition?_subset leaves).2
  obtain ⟨front, back, place, value, rfl, -, rfl, rfl⟩ := definition?_split leaves
  rw [← Option.not_isSome_iff_eq_none] at stays ⊢
  intro may
  apply stays
  rw [definition?_isSome_iff computes]
  obtain ⟨set, unset⟩ := (definition?_isSome_iff (computes.subset sub)).1 may
  refine ⟨Node.mem_targets_around.2 (.inr set), fun read among there => ?_⟩
  rcases Node.mem_targets_around.1 there with rfl | other
  · exact unread among
  · exact unset read among other

/-- An alias that an exchange is done with: the first branch no longer holds it, or its definition
has to stay. -/
def Exchange.Done (x : Exchange) (entry : Computation × String) : Prop :=
  x.thenBranch.scope.aliases.get? entry.1 = none ∨
    definition? entry.2 x.thenBranch.body = none ∨ definition? entry.2 x.elseBranch.body = none

theorem Exchange.move_done (x : Exchange) (span : Span) (entry : Computation × String) :
    (x.move span entry).Done entry := by
  obtain ⟨c, name⟩ := entry
  rcases x.move_cases span c name with ⟨same, stays⟩ | ⟨_, _, _, _, -, -, moved⟩
  · rw [same]
    exact .inr stays
  · rw [moved]
    exact .inl ((Scope.get?_forget _ c c).trans (if_pos rfl))

/-- A later move leaves done what does not read the alias that moves. -/
theorem Exchange.Done.move {x : Exchange} {first second : Computation × String}
    (h : x.Done first) (span : Span) (inThen : Computes x.thenBranch.body first)
    (inElse : Computes x.elseBranch.body first) (different : second.2 ≠ first.2)
    (unread : second.2 ∉ first.1.identifiers) : (x.move span second).Done first := by
  obtain ⟨c, name⟩ := second
  rcases x.move_cases span c name with ⟨same, -⟩ | ⟨_, _, _, _, leavesThen, leavesElse, moved⟩
  · rw [same]
    exact h
  · rw [moved]
    rcases h with forgotten | stays | stays
    · refine .inl ((Scope.get?_forget _ c first.1).trans ?_)
      rw [forgotten, ite_self]
    · exact .inr (.inl (definition?_eq_none_of_leaves inThen leavesThen different unread stays))
    · exact .inr (.inr (definition?_eq_none_of_leaves inElse leavesElse different unread stays))

theorem Exchange.foldl_move_subset (x : Exchange) (span : Span)
    (entries : List (Computation × String)) :
    (entries.foldl (Exchange.move span) x).thenBranch.body ⊆ x.thenBranch.body ∧
      (entries.foldl (Exchange.move span) x).elseBranch.body ⊆ x.elseBranch.body := by
  refine List.foldlRecOn
    (motive := fun y : Exchange => y.thenBranch.body ⊆ x.thenBranch.body ∧
      y.elseBranch.body ⊆ x.elseBranch.body) _ _
    ⟨fun _ member => member, fun _ member => member⟩ fun y sub entry _ => ?_
  obtain ⟨inThen, inElse⟩ := y.move_subset span entry
  exact ⟨fun _ member => sub.1 (inThen member), fun _ member => sub.2 (inElse member)⟩

/-- Aliases in an order in which each reads earlier ones only are done one after another. -/
theorem Exchange.foldl_move_done (x : Exchange) (span : Span)
    (entries : List (Computation × String))
    (ordered : entries.Pairwise fun first second =>
      second.2 ≠ first.2 ∧ second.2 ∉ first.1.identifiers)
    (inThen : ∀ entry ∈ entries, Computes x.thenBranch.body entry)
    (inElse : ∀ entry ∈ entries, Computes x.elseBranch.body entry) :
    ∀ entry ∈ entries, (entries.foldl (Exchange.move span) x).Done entry := by
  induction entries using List.reverseRecOn with
  | nil => exact fun entry member => by cases member
  | append_singleton entries last ih =>
    rw [List.pairwise_append] at ordered
    obtain ⟨before, -, across⟩ := ordered
    obtain ⟨subThen, subElse⟩ := x.foldl_move_subset span entries
    rw [List.foldl_append]
    intro entry member
    rcases List.mem_append.1 member with earlier | now
    · obtain ⟨different, unread⟩ := across entry earlier last List.mem_cons_self
      have done := ih before (fun e among => inThen e (List.mem_append_left _ among))
        (fun e among => inElse e (List.mem_append_left _ among)) entry earlier
      exact done.move span ((inThen entry member).subset subThen)
        ((inElse entry member).subset subElse) different unread
    · rw [List.mem_singleton.1 now]
      exact Exchange.move_done _ span last

/-- Two branches ready for an exchange: the aliases of the first are listed behind what they read,
and both bodies give them the values of their computations only. -/
structure Ripe (thenBranch elseBranch : Block Node) : Prop where
  ordered : thenBranch.scope.aliases.toList.Pairwise fun first second =>
    second.2 ≠ first.2 ∧ second.2 ∉ first.1.identifiers
  inThen : ∀ entry ∈ thenBranch.scope.aliases.toList, Computes thenBranch.body entry
  inElse : ∀ entry ∈ thenBranch.scope.aliases.toList, Computes elseBranch.body entry

theorem mem_shared {thenScope elseScope : Scope} {c : Computation} {name : String} :
    (c, name) ∈ shared thenScope elseScope ↔
      thenScope.aliases.get? c = some name ∧ elseScope.aliases.get? c = some name := by
  rw [shared, List.mem_filter, OrderedMap.mem_toList_iff, decide_eq_true_eq]
  exact Iff.rfl

/-- The branches hold no alias behind an exchange that they did not hold before. -/
theorem exchange_scopes (span : Span) (thenBranch elseBranch : Block Node) (scope : Scope) :
    (∀ c name,
      (exchange span thenBranch elseBranch scope).thenBranch.scope.aliases.get? c = some name →
        thenBranch.scope.aliases.get? c = some name) ∧
    ∀ c name,
      (exchange span thenBranch elseBranch scope).elseBranch.scope.aliases.get? c = some name →
        elseBranch.scope.aliases.get? c = some name := by
  have kept {scope : Scope} {c c' : Computation} {name : String}
      (found : (scope.forget c).aliases.get? c' = some name) :
      scope.aliases.get? c' = some name := by
    rw [Scope.get?_forget] at found
    split at found
    · cases found
    · exact found
  refine exchange_induction (P := fun x =>
    (∀ c name, x.thenBranch.scope.aliases.get? c = some name →
      thenBranch.scope.aliases.get? c = some name) ∧
    ∀ c name, x.elseBranch.scope.aliases.get? c = some name →
      elseBranch.scope.aliases.get? c = some name) span thenBranch elseBranch scope
    ⟨fun _ _ found => found, fun _ _ found => found⟩ ?_
  rintro x ⟨c, name⟩ - before
  rcases x.move_cases span c name with ⟨same, -⟩ | ⟨_, _, _, _, -, -, moved⟩
  · rw [same]
    exact before
  · rw [moved]
    exact ⟨fun c' name' found => before.1 c' name' (kept found),
      fun c' name' found => before.2 c' name' (kept found)⟩

/-- An exchange makes a conditional still. -/
theorem exchange_still {thenBranch elseBranch : Block Node} (ripe : Ripe thenBranch elseBranch)
    (span : Span) (scope : Scope) :
    Still (exchange span thenBranch elseBranch scope).thenBranch
      (exchange span thenBranch elseBranch scope).elseBranch := by
  obtain ⟨inThen, inElse⟩ := exchange_scopes span thenBranch elseBranch scope
  have listed {entry : Computation × String}
      (member : entry ∈ shared thenBranch.scope elseBranch.scope) :
      entry ∈ thenBranch.scope.aliases.toList := (List.mem_filter.1 member).1
  rintro ⟨c, name⟩ member
  obtain ⟨ofThen, ofElse⟩ := mem_shared.1 member
  have done := Exchange.foldl_move_done ⟨thenBranch, elseBranch, scope, [], []⟩ span
    (shared thenBranch.scope elseBranch.scope) (ripe.ordered.sublist List.filter_sublist)
    (fun entry member => ripe.inThen entry (listed member))
    (fun entry member => ripe.inElse entry (listed member)) (c, name)
    (mem_shared.2 ⟨inThen c name ofThen, inElse c name ofElse⟩)
  rcases done with forgotten | stays
  · cases forgotten.symm.trans ofThen
  · exact stays

/-! ### The pass makes every conditional still -/

/-- No branch leaves a branch in an exchange. -/
theorem branches_exchange (span : Span) (thenBranch elseBranch : Block Node) (enclosing : Scope) :
    Node.branchesOf (exchange span thenBranch elseBranch enclosing).thenBranch.body =
        Node.branchesOf thenBranch.body ∧
      Node.branchesOf (exchange span thenBranch elseBranch enclosing).elseBranch.body =
        Node.branchesOf elseBranch.body := by
  refine exchange_induction (P := fun x =>
    Node.branchesOf x.thenBranch.body = Node.branchesOf thenBranch.body ∧
    Node.branchesOf x.elseBranch.body = Node.branchesOf elseBranch.body) span thenBranch
    elseBranch enclosing ⟨rfl, rfl⟩ ?_
  rintro x ⟨c, name⟩ - before
  rcases x.move_cases span c name with ⟨same, -⟩ | ⟨_, _, _, _, leavesThen, leavesElse, moved⟩
  · rw [same]
    exact before
  · rw [moved]
    exact ⟨(definition?_leaves (c := c) leavesThen).branchesOf_eq.trans before.1,
      (definition?_leaves (c := c) leavesElse).branchesOf_eq.trans before.2⟩

/-- What moves out of a conditional is a definition and has no branches. -/
theorem moved_exchange (span : Span) (thenBranch elseBranch : Block Node) (enclosing : Scope) :
    ∀ n ∈ (exchange span thenBranch elseBranch enclosing).moved,
      n.branches = [] ∧ n.target?.isSome := by
  refine exchange_induction (P := fun x => ∀ n ∈ x.moved, n.branches = [] ∧ n.target?.isSome) span
    thenBranch elseBranch enclosing (fun n member => by cases member) ?_
  rintro x ⟨c, name⟩ - before
  rcases x.move_cases span c name with ⟨same, -⟩ | ⟨_, _, _, _, leavesThen, -, moved⟩
  · rw [same]
    exact before
  · rw [moved]
    intro n member
    rcases List.mem_append.1 member with old | now
    · exact before n old
    · obtain ⟨_, _, _, value, taken, flat, -, -⟩ := definition?_split leavesThen
      rw [List.mem_singleton.1 now, taken]
      exact ⟨flat.head.1, rfl⟩

/-- Statements with ripe conditionals, and with still ones further inside. -/
structure Prepared (body : List Node) : Prop where
  ripe : ∀ span condition thenBranch elseBranch,
    .conditional span condition thenBranch (some elseBranch) ∈ body → Ripe thenBranch elseBranch
  inner : ∀ block ∈ Node.branchesOf body, Quiet block.body

/-- Statements with still conditionals at any depth. -/
structure Resting (body : List Node) : Prop where
  quiet : Quiet body
  inner : ∀ block ∈ Node.branchesOf body, Quiet block.body

theorem Resting.nil : Resting [] := by
  constructor
  · intro span condition thenBranch elseBranch member
    cases member
  · intro block member
    cases member

theorem Resting.cons {n : Node} {rest : List Node}
    (here : ∀ span condition thenBranch elseBranch,
      n = .conditional span condition thenBranch (some elseBranch) → Still thenBranch elseBranch)
    (own : ∀ block ∈ n.branches, Quiet block.body) (later : Resting rest) :
    Resting (n :: rest) := by
  constructor
  · intro span condition thenBranch elseBranch member
    rcases List.mem_cons.1 member with same | behind
    · exact here _ _ _ _ same.symm
    · exact later.quiet _ _ _ _ behind
  · rw [Node.branchesOf, List.forall_mem_append]
    exact ⟨own, later.inner⟩

/-- Definitions without branches in front of statements. -/
theorem Resting.behind {moved rest : List Node}
    (flat : ∀ n ∈ moved, n.branches = [] ∧ n.target?.isSome) (later : Resting rest) :
    Resting (moved ++ rest) := by
  induction moved with
  | nil => exact later
  | cons n moved ih =>
    rw [List.forall_mem_cons] at flat
    obtain ⟨⟨unbranched, sets⟩, others⟩ := flat
    refine .cons (fun span condition thenBranch elseBranch same => ?_) ?_ (ih others)
    · rw [same] at sets
      cases sets
    · rw [unbranched]
      intro block member
      cases member

/-- Moving definitions out of prepared conditionals leaves them still. -/
theorem lift_resting {body : List Node} (scope : Scope) (prepared : Prepared body) :
    Resting (lift body scope).1 := by
  have behind {n : Node} {rest : List Node} (prepared : Prepared (n :: rest)) : Prepared rest :=
    ⟨fun _ _ _ _ member => prepared.ripe _ _ _ _ (List.mem_cons_of_mem _ member),
      fun block member => prepared.inner block (List.mem_append_right _ member)⟩
  fun_induction lift body scope with
  | case1 => exact .nil
  | case2 span condition thenBranch elseBranch rest scope x lifted after events same ih =>
    have later := ih (behind prepared)
    rw [same] at later
    have still := exchange_still (prepared.ripe _ _ _ _ List.mem_cons_self) span scope
    refine .behind (moved_exchange span thenBranch elseBranch scope)
      (.cons (fun _ _ _ _ equal => ?_) ?_ later)
    · cases equal
      exact still
    · -- the branches lose statements of their own, and what stands in them stays as it is
      obtain ⟨subThen, subElse⟩ := Exchange.foldl_move_subset
        ⟨thenBranch, elseBranch, scope, [], []⟩ span (shared thenBranch.scope elseBranch.scope)
      obtain ⟨inThen, inElse⟩ := branches_exchange span thenBranch elseBranch scope
      have own := prepared.inner
      rw [Node.branchesOf, Node.branches_branches] at own
      rw [Node.branches_branches]
      simp only [Block.blocks, List.forall_mem_append, List.forall_mem_cons] at own ⊢
      obtain ⟨⟨⟨inCondition, quietThen, belowThen⟩, quietElse, belowElse⟩, -⟩ := own
      refine ⟨⟨inCondition, ?_, ?_⟩, ?_, ?_⟩
      · exact fun _ _ _ _ member => quietThen _ _ _ _ (subThen member)
      · exact inThen ▸ belowThen
      · exact fun _ _ _ _ member => quietElse _ _ _ _ (subElse member)
      · exact inElse ▸ belowElse
  | case3 scope n rest other lifted after events same ih =>
    have later := ih (behind prepared)
    rw [same] at later
    refine .cons (fun span condition thenBranch elseBranch equal => ?_)
      (fun block member => prepared.inner block (List.mem_append_left _ member)) later
    exact (other span condition thenBranch elseBranch equal).elim

section Grounded

variable {table : AliasTable}

theorem computes_of_expanded {assigned after : Assigned String} {defined : List String}
    {source out body : List Node} (h : Expanded table assigned defined source out after)
    (inside : ∀ n ∈ body, n ∈ Node.statementsOf out) {entry : Computation × String}
    (held : table entry.2 = some entry.1) : Computes body entry := by
  intro span value member
  rcases h.assign_cases (inside _ member) with user | ⟨c, held', computed⟩
  · rw [h.target_free user] at held
    cases held
  · rw [held] at held'
    cases held'
    exact computed

/-- The branches of a conditional of an analysed function are ripe when the pass has gone over each
of them. -/
theorem ripe_hoisted {thenOuter elseOuter : List String} {thenBranch elseBranch : Block Node}
    (injective : table.Injective) (inThen : thenBranch.Grounded table thenOuter)
    (inElse : elseBranch.Grounded table elseOuter) :
    Ripe thenBranch.hoisted elseBranch.hoisted := by
  have sorted := inThen.sorted_hoisted injective
  obtain ⟨_, _, _, thenSide⟩ := inThen.expanded
  obtain ⟨_, _, _, elseSide⟩ := inElse.expanded
  have thenLifted := (lift_expanded (hoistEach_expanded thenSide).1 inThen.tidy.lists).1
  have elseLifted := (lift_expanded (hoistEach_expanded elseSide).1 inElse.tidy.lists).1
  refine ⟨sorted.ordered, fun entry listed => ?_, fun entry listed => ?_⟩
  · exact computes_of_expanded thenLifted (fun n member => List.mem_append_left _ member)
      (sorted.lists entry listed)
  · exact computes_of_expanded elseLifted (fun n member => List.mem_append_left _ member)
      (sorted.lists entry listed)

theorem ripe_hoist {n condition : Node} {span : Span} {thenBranch elseBranch : Block Node}
    (injective : table.Injective)
    (grounded : ∀ block ∈ n.branches, ∃ outer, block.Grounded table outer)
    (same : (hoist n).1 = .conditional span condition thenBranch (some elseBranch)) :
    Ripe thenBranch elseBranch := by
  cases n with
  | conditional span' condition' thenBranch' elseBranch' =>
    obtain ⟨thenBody, thenScope⟩ := thenBranch'
    cases elseBranch' with
    | none => cases same
    | some block =>
      obtain ⟨elseBody, elseScope⟩ := block
      cases same
      rw [Node.branches, List.forall_mem_append, List.forall_mem_append, List.forall_mem_cons,
        List.forall_mem_cons] at grounded
      obtain ⟨⟨-, ⟨_, inThen⟩, -⟩, ⟨_, inElse⟩, -⟩ := grounded
      exact ripe_hoisted injective inThen inElse
  | template | function | assign | identifier | placeholder | literal | binary | filter | call
  | list | write => cases same

theorem hoistEach_eq_map (ns : List Node) : (hoistEach ns).1 = ns.map fun n => (hoist n).1 := by
  induction ns with
  | nil => rfl
  | cons n rest ih => rw [List.map_cons, ← ih, hoistEach]

/-- What the pass has gone over is prepared if nothing can leave the branches in it. -/
theorem prepared_hoistEach {ns : List Node} (injective : table.Injective)
    (grounded : ∀ block ∈ Node.branchesOf ns, ∃ outer, block.Grounded table outer)
    (inner : ∀ block ∈ Node.branchesOf (hoistEach ns).1, Quiet block.body) :
    Prepared (hoistEach ns).1 := by
  refine ⟨fun span condition thenBranch elseBranch member => ?_, inner⟩
  rw [hoistEach_eq_map, List.mem_map] at member
  obtain ⟨n, among, same⟩ := member
  refine ripe_hoist injective (fun block below => grounded block ?_) same
  obtain ⟨before, behind, rfl⟩ := List.append_of_mem among
  exact Node.mem_branchesOf_around.2 (.inl below)

/-- A block that the pass has gone over is at rest. -/
theorem resting_hoisted (block : Block Node) (injective : table.Injective)
    (grounded : ∀ inner ∈ Node.branchesOf block.body, ∃ outer, inner.Grounded table outer)
    (inner : ∀ inner ∈ Node.branchesOf (hoistEach block.body).1, Quiet inner.body) :
    ∀ inner ∈ block.hoisted.blocks, Quiet inner.body := by
  have resting := lift_resting block.scope (prepared_hoistEach injective grounded inner)
  rw [Block.blocks, List.forall_mem_cons]
  exact ⟨resting.quiet, resting.inner⟩

mutual

theorem quiet_hoist (n : Node) (injective : table.Injective)
    (grounded : ∀ block ∈ n.branches, ∃ outer, block.Grounded table outer) :
    ∀ block ∈ (hoist n).1.branches, Quiet block.body := by
  cases n with
  | template span name globals body => exact quiet_hoistEach body injective grounded
  | function | identifier | placeholder | literal => exact fun block member => by cases member
  | conditional span condition thenBranch elseBranch =>
    obtain ⟨thenBody, thenScope⟩ := thenBranch
    cases elseBranch with
    | none =>
      rw [Node.branches, List.forall_mem_append, List.forall_mem_cons] at grounded
      obtain ⟨inCondition, -, inThen⟩ := grounded
      have thenSide := resting_hoisted ⟨thenBody, thenScope⟩ injective inThen
        (quiet_hoistEach thenBody injective inThen)
      exact List.forall_mem_append.2 ⟨quiet_hoist condition injective inCondition, thenSide⟩
    | some block =>
      obtain ⟨elseBody, elseScope⟩ := block
      rw [Node.branches, List.forall_mem_append, List.forall_mem_append, List.forall_mem_cons,
        List.forall_mem_cons] at grounded
      obtain ⟨⟨inCondition, -, inThen⟩, -, inElse⟩ := grounded
      have thenSide := resting_hoisted ⟨thenBody, thenScope⟩ injective inThen
        (quiet_hoistEach thenBody injective inThen)
      have elseSide := resting_hoisted ⟨elseBody, elseScope⟩ injective inElse
        (quiet_hoistEach elseBody injective inElse)
      exact List.forall_mem_append.2 ⟨List.forall_mem_append.2
        ⟨quiet_hoist condition injective inCondition, thenSide⟩, elseSide⟩
  | assign span target value => exact quiet_hoist value injective grounded
  | binary span op left right =>
    rw [Node.branches, List.forall_mem_append] at grounded
    exact List.forall_mem_append.2
      ⟨quiet_hoist left injective grounded.1, quiet_hoist right injective grounded.2⟩
  | filter span operand name cachedAs => exact quiet_hoist operand injective grounded
  | call span callee arguments =>
    rw [Node.branches, List.forall_mem_append] at grounded
    exact List.forall_mem_append.2
      ⟨quiet_hoist callee injective grounded.1, quiet_hoistEach arguments injective grounded.2⟩
  | list span items => exact quiet_hoistEach items injective grounded
  | write span operand => exact quiet_hoist operand injective grounded
termination_by structural n

/-- Nothing can leave the branches that the pass has gone over. -/
theorem quiet_hoistEach (ns : List Node) (injective : table.Injective)
    (grounded : ∀ block ∈ Node.branchesOf ns, ∃ outer, block.Grounded table outer) :
    ∀ block ∈ Node.branchesOf (hoistEach ns).1, Quiet block.body := by
  cases ns with
  | nil => exact fun block member => by cases member
  | cons n rest =>
    rw [Node.branchesOf, List.forall_mem_append] at grounded
    exact List.forall_mem_append.2
      ⟨quiet_hoist n injective grounded.1, quiet_hoistEach rest injective grounded.2⟩
termination_by structural ns

end

end Grounded

end Hoisting

open Hoisting

/-- The hoisting pass leaves every conditional of a function still. -/
theorem Registers.quiet_hoisted {globals : OrderedSet String} {table : AliasTable}
    {f a : Block Node} (h : Registers globals table f a)
    (grounded : ∀ block ∈ a.blocks, ∃ outer, block.Grounded table outer) :
    ∀ block ∈ a.hoisted.blocks, Quiet block.body := by
  have below := (List.forall_mem_cons.1 grounded).2
  exact resting_hoisted a h.injective below (quiet_hoistEach a.body h.injective below)

theorem Node.mem_branchesOf_of_conditional {body : List Node} {span : Span} {condition : Node}
    {thenBranch elseBranch : Block Node}
    (h : .conditional span condition thenBranch (some elseBranch) ∈ body) :
    thenBranch ∈ Node.branchesOf body ∧ elseBranch ∈ Node.branchesOf body := by
  obtain ⟨before, behind, rfl⟩ := List.append_of_mem h
  exact ⟨Node.mem_branchesOf_branches.2 (.inl (.inl rfl)),
    Node.mem_branchesOf_branches.2 (.inr (.inl (.inl rfl)))⟩

/-- The branches of a still conditional hold no placeholder both: nothing would keep its definition
there. -/
theorem Hoisting.Still.unshared {table : AliasTable} {thenBranch elseBranch : Block Node}
    (still : Still thenBranch elseBranch) (injective : table.Injective)
    (inThen : thenBranch.Coherent table) (inElse : elseBranch.Coherent table)
    (computes : ∀ c name, table name = some c →
      Computes thenBranch.body (c, name) ∧ Computes elseBranch.body (c, name)) (name : String) :
    thenBranch.scope.aliasFor? (.placeholder name) = none ∨
      elseBranch.scope.aliasFor? (.placeholder name) = none := by
  unfold Scope.aliasFor?
  cases ofThen : thenBranch.scope.aliases.get? (.placeholder name) with
  | none => exact .inl rfl
  | some alternative =>
    cases ofElse : elseBranch.scope.aliases.get? (.placeholder name) with
    | none => exact .inr rfl
    | some other =>
      have held := inThen.lists.get ofThen
      obtain rfl : other = alternative := injective _ _ _ (inElse.lists.get ofElse) held
      obtain ⟨computesThen, computesElse⟩ := computes _ _ held
      -- a placeholder reads no variable, so its definition may leave every body that sets it
      have leaves {branch : Block Node} (coherent : branch.Coherent table)
          (computes : Computes branch.body (.placeholder name, other))
          (found : branch.scope.aliases.get? (.placeholder name) = some other) :
          definition? other branch.body ≠ none := by
        rw [Option.ne_none_iff_isSome]
        exact (definition?_isSome_iff computes).2
          ⟨coherent.defined _ _ found, fun read among => by cases among⟩
      rcases still (_, other) (mem_shared.2 ⟨ofThen, ofElse⟩) with stays | stays
      · exact absurd stays (leaves inThen computesThen ofThen)
      · exact absurd stays (leaves inElse computesElse ofElse)

section Trees

variable {options : Options} {root : Node} {o : Optimization}

/-- No branch outside the functions of an optimised tree holds an alias. -/
theorem optimize_branches_unlisted (source : root.isSource) (h : root.optimize options = .ok o)
    {block : Block Node} (member : block ∈ o.tree.branches) (c : Computation) :
    block.scope.aliases.get? c = none := by
  obtain ⟨out, after, -, shape, coherent⟩ := optimize_top source h
  rw [shape.branches_eq] at member
  cases found : block.scope.aliases.get? c with
  | none => rfl
  | some name => cases (coherent block member).lists.get found

/-- The functions of an optimised tree, each with the analysed form that the pass went over. -/
theorem optimize_hoisted (source : root.isSource) (hoists : options.hoistAliases = true)
    (h : root.optimize options = .ok o) {g : Block Node} (member : g ∈ o.tree.functions) :
    ∃ f a, Analysis.AnalyzedGrounded root.globals f a ∧ g = a.hoisted := by
  obtain ⟨analysis, analyzed, -, functions⟩ := optimize_finished source h
  rw [functions] at member
  obtain ⟨a, there, rfl⟩ := List.mem_map.1 member
  obtain ⟨f, grounded⟩ := exists_of_forall₂ (Analysis.analyze_grounded source analyzed) there
  refine ⟨f, a, grounded, ?_⟩
  rw [Block.finished, if_pos hoists]

/-- Every conditional in a block of an optimised tree is still. -/
theorem optimize_quiet (source : root.isSource) (hoists : options.hoistAliases = true)
    (h : root.optimize options = .ok o) :
    (∀ block ∈ o.tree.branches, Quiet block.body) ∧
      ∀ g ∈ o.tree.functions, ∀ block ∈ g.blocks, Quiet block.body := by
  constructor
  · intro block member span condition thenBranch elseBranch inside entry shared
    have below := (Node.mem_branchesOf_of_conditional inside).1
    have unlisted := optimize_branches_unlisted source h
      (Node.branches_trans o.tree member below) entry.1
    rw [(mem_shared.1 shared).1] at unlisted
    cases unlisted
  · intro g member
    obtain ⟨f, a, ⟨table, after, -, registers, grounded⟩, rfl⟩ :=
      optimize_hoisted source hoists h member
    exact registers.quiet_hoisted grounded

end Trees

/-- One run of the hoisting pass is enough: another one moves nothing, and no conditional in a block
of the tree has a placeholder in the scopes of both branches. -/
theorem optimize_hoists_to_fixed_point (options : Options) (root : Node) (o : Optimization)
    (source : root.isSource) (hoists : options.hoistAliases = true)
    (h : root.optimize options = .ok o) :
    o.tree.hoistAliases options = (o.tree, []) ∧
    ∀ block ∈ o.tree.blocks, ∀ span condition thenBranch elseBranch,
      .conditional span condition thenBranch (some elseBranch) ∈ block.body →
      ∀ name, thenBranch.scope.aliasFor? (.placeholder name) = none ∨
        elseBranch.scope.aliasFor? (.placeholder name) = none := by
  obtain ⟨outside, inside⟩ := optimize_quiet source hoists h
  constructor
  · rw [Node.hoistAliases, if_pos hoists]
    exact hoist_of_quiet o.tree outside inside
  · intro block member span condition thenBranch elseBranch among name
    obtain ⟨belowThen, belowElse⟩ := Node.mem_branchesOf_of_conditional among
    rcases List.mem_append.1 member with top | function
    · exact .inl (optimize_branches_unlisted source h (Node.branches_trans o.tree top belowThen) _)
    · obtain ⟨g, there, own⟩ := List.mem_flatMap.1 function
      have still := inside g there block own span condition thenBranch elseBranch among
      obtain ⟨f, a, ⟨table, after, optimizes, registers, -⟩, rfl⟩ :=
        optimize_hoisted source hoists h there
      have coherent := (coherent_kept registers.injective).forall_blocks optimizes.hoisted_moves
        fun inner below => (registers.tidy inner below).coherent
      have ofThen := Block.blocks_trans own belowThen
      have ofElse := Block.blocks_trans own belowElse
      have expanded := optimizes.hoisted.expanded
      refine still.unshared registers.injective (coherent _ ofThen) (coherent _ ofElse) ?_ name
      intro c alternative held
      exact ⟨computes_of_expanded expanded (Block.mem_statementsOf ofThen) held,
        computes_of_expanded expanded (Block.mem_statementsOf ofElse) held⟩

/-- A function that reads one placeholder in nested branches, and filtered in both outer ones. -/
def detained : Block Node :=
  let foo := Node.placeholder .generated "foo" none
  let inner := Node.conditional .generated (.identifier .generated "hello")
    (.plain [.write .generated foo]) (some (.plain [.write .generated foo]))
  let filtered := Node.write .generated (.filter .generated foo none none)
  .plain
    [.conditional .generated (.identifier .generated "hello") (.plain [inner, filtered])
      (some (.plain [filtered]))]

/-- Both outer branches hold the alias of the filtered value to the end: the first one defines what
it reads once more, behind the definition that has moved out. -/
theorem detained_optimize :
    ∃ o, (Node.function .generated "detained" detained).optimize .caching = .ok o ∧
      o.hoists.map (fun event => event.name) = ["_rph_foo", "_rph_foo", "_rph_foo", "_rph_foo"] ∧
      o.tree.blocks.map (fun block => block.scope.aliases.values) =
        [["_rph_foo"], ["_fph3B928884"], [], [], ["_fph3B928884"]] :=
  ⟨_, rfl, by decide +kernel⟩

theorem detained_fixed_point :
    ∃ o, (Node.function .generated "detained" detained).isSource = true ∧
      (Node.function .generated "detained" detained).optimize .caching = .ok o ∧
      o.hoists.map (fun event => event.name) = ["_rph_foo", "_rph_foo", "_rph_foo", "_rph_foo"] ∧
      o.tree.blocks.map (fun block => block.scope.aliases.values) =
        [["_rph_foo"], ["_fph3B928884"], [], [], ["_fph3B928884"]] ∧
      o.tree.hoistAliases .caching = (o.tree, []) ∧
      ∀ block ∈ o.tree.blocks, ∀ span condition thenBranch elseBranch,
        .conditional span condition thenBranch (some elseBranch) ∈ block.body →
        ∀ name, thenBranch.scope.aliasFor? (.placeholder name) = none ∨
          elseBranch.scope.aliasFor? (.placeholder name) = none := by
  obtain ⟨o, optimized, moved, scopes⟩ := detained_optimize
  have all := optimize_hoists_to_fixed_point .caching (.function .generated "detained" detained) o
    (by decide) (by decide) optimized
  exact ⟨o, by decide, optimized, moved, scopes, all.1, all.2⟩

end Stencil
