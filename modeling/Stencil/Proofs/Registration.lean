import Stencil.Proofs.Blocks
import Stencil.Proofs.Naming

/-!
# What the analysis registers

The definitions that the analysis puts into a block are the entries of its scope, one for one and in
the same order: a frame adds to its aliases, to its introduced aliases and to its pending
definitions at once, and the pending definitions of a statement go in front of it.

* `Statements.tidied`: every block of a walked body is tidy.
* `Analysis.analyze_functions`: every function of an analysed tree is an optimised form of its
  source whose aliases have names of their own.
* `analyze_alias_names_bijective`: aliases and computations correspond.
-/

namespace Stencil

/-- The aliases that statements of a list define. -/
def Node.aliasTargets (table : AliasTable) (body : List Node) : List String :=
  (Node.targets body).filter fun name => (table name).isSome

theorem Node.targets_cons_of_none {n : Node} (unset : n.target? = none) (rest : List Node) :
    Node.targets (n :: rest) = Node.targets rest :=
  List.filterMap_cons_none unset

/-- A block as the analysis leaves it: its scope lists the aliases that its statements define, in
their order, and declares them. -/
structure Block.Tidy (table : AliasTable) (block : Block Node) : Prop where
  lists : block.scope.Lists table
  values : block.scope.aliases.values = Node.aliasTargets table block.body
  declared : ∀ name ∈ block.scope.aliases.values, name ∈ block.scope.locals
  names : ∀ name, name ∈ block.scope.aliasNames ↔ name ∈ block.scope.aliases.values

namespace Analysis

theorem foldl_register (entries : List (Computation × String)) (scope : Scope) :
    entries.foldl (fun scope entry => scope.register entry.1 entry.2) scope =
      { locals := scope.locals.extend (entries.map Prod.snd)
        aliases := entries.foldl (fun m entry => m.insertIfNew entry.1 entry.2) scope.aliases
        aliasNames := scope.aliasNames.extend (entries.map Prod.snd) } := by
  induction entries generalizing scope with
  | nil => rfl
  | cons entry rest ih =>
    rw [List.foldl_cons, ih]
    rfl

/-- The scope of a walked block of a source tree lists what the block introduced. -/
theorem toList_commit {frame : Frame} {scope : Scope} (plain : scope.isPlain)
    (entries : frame.aliases.toList = frame.introduced) :
    (frame.commit scope).aliases.toList = frame.introduced := by
  rw [Frame.commit, foldl_register, ← entries]
  simp only [Scope.aliases_of_isPlain plain]
  rw [OrderedMap.toList_foldl_insertIfNew (by simpa using frame.aliases.nodup)]
  rfl

/-- The scope of a walked block of a source tree. -/
theorem commit_tidy {table : AliasTable} {frame : Frame} {scope : Scope} {body : List Node}
    (plain : scope.isPlain) (entries : frame.aliases.toList = frame.introduced)
    (held : ∀ entry ∈ frame.introduced, table entry.2 = some entry.1)
    (order : frame.introduced.map Prod.snd = Node.aliasTargets table body) :
    Block.Tidy table ⟨body, frame.commit scope⟩ := by
  have listed := toList_commit plain entries
  have values : (frame.commit scope).aliases.values = frame.introduced.map Prod.snd := by
    rw [OrderedMap.values, listed]
  refine ⟨?_, values.trans order, ?_, ?_⟩
  · intro entry member
    exact held entry (listed ▸ member)
  · intro name member
    rw [values] at member
    rw [Frame.commit, foldl_register, OrderedSet.mem_extend]
    exact .inr member
  · intro name
    rw [values, Frame.commit, foldl_register, OrderedSet.mem_extend]
    simp only [Scope.aliasNames_of_isPlain plain]
    simp [OrderedSet.mem_def]

/-- What a frame has introduced: its aliases are those of the table, and they are the given names
and then the pending definitions. -/
structure Tracked (table : AliasTable) (names : List String) (st : State) : Prop where
  entries : st.frame.aliases.toList = st.frame.introduced
  held : ∀ entry ∈ st.frame.introduced, table entry.2 = some entry.1
  order : st.frame.introduced.map Prod.snd = names ++ Node.targets st.frame.pending

section Expressions

variable {ctx : Context} {table : AliasTable} {names : List String} {st next last : State}
  {es es' : List Node}

theorem Tracked.of_frame (h : Tracked table names st) (same : next.frame = st.frame) :
    Tracked table names next := by
  obtain ⟨entries, held, order⟩ := h
  rw [← same] at entries held order
  exact ⟨entries, held, order⟩

theorem Tracked.pending_held (h : Tracked table names st) :
    Node.aliasTargets table st.frame.pending = Node.targets st.frame.pending := by
  apply List.filter_eq_self.2
  intro name member
  have introduced : name ∈ st.frame.introduced.map Prod.snd := by
    rw [h.order]
    exact List.mem_append_right _ member
  obtain ⟨entry, listed, rfl⟩ := List.mem_map.1 introduced
  rw [h.held entry listed]
  rfl

/-- The pending definitions of a statement are taken care of. -/
theorem Tracked.behind (h : Tracked table names st)
    (aliases : next.frame.aliases = st.frame.aliases)
    (introduced : next.frame.introduced = st.frame.introduced)
    (empty : next.frame.pending = []) :
    Tracked table (names ++ Node.aliasTargets table st.frame.pending) next := by
  refine ⟨?_, ?_, ?_⟩
  · rw [aliases, introduced, h.entries]
  · rw [introduced]
    exact h.held
  · rw [introduced, empty, h.pending_held, h.order]
    exact (List.append_nil _).symm

theorem aliasFor_tracked {c : Computation} {value : Node} {name : String}
    (h : Tracked table names st) (made : st.aliasFor ctx c value = (name, next))
    (covers : Covers table next) : Tracked table names next := by
  rcases aliasFor_cases made with ⟨rfl, -⟩ | ⟨rfl, -, unseen⟩
  · exact h
  · have new : st.frame.aliases.get? c = none :=
      List.findSome?_eq_none_iff.1 unseen _ List.mem_cons_self
    refine ⟨?_, ?_, ?_⟩
    · change (st.frame.aliases.insert c name).toList = st.frame.introduced ++ [(c, name)]
      rw [OrderedMap.toList_insert_of_get? name new, h.entries]
    · intro entry member
      rcases List.mem_append.1 member with old | now
      · exact h.held entry old
      · rw [List.mem_singleton.1 now]
        apply covers
        rw [OrderedMap.get?_insert, if_pos rfl]
    · change (st.frame.introduced ++ [(c, name)]).map Prod.snd =
        names ++ Node.targets (st.frame.pending ++ [.assign .generated name value])
      rw [Node.targets_snoc, List.map_append, h.order, List.append_assoc]
      rfl

theorem Operands.tracked (h : Operands ctx st es es' last) (covers : Covers table last)
    (start : Tracked table names st) : Tracked table names last := by
  induction h with
  | nil => exact start
  | identifier _ _ _ ih | literal _ _ _ ih => exact ih covers start
  | placeholder read later ih =>
    apply ih covers
    rcases read_cases read with ⟨-, -, same⟩ | ⟨-, same⟩ | ⟨_, _, -, -, -, -, made, same⟩
    · exact start.of_frame same.frame
    · exact start.of_frame same.frame
    · have covered := (later.covers covers).of_alike same
      exact (aliasFor_tracked start made covered).of_frame same.frame
  | binary _ _ _ second later firstIH secondIH laterIH =>
    have coveredNext := later.covers covers
    have middle := firstIH (second.covers coveredNext) start
    exact laterIH covers ((secondIH coveredNext (middle.of_frame rfl)).of_frame rfl)
  | filter _ check cache later innerIH laterIH =>
    have same := checkFilter_alike check
    have coveredNext := later.covers covers
    have checked := (cacheFilter_covers cache coveredNext).of_alike same
    have middle := (innerIH checked start).of_frame same.frame
    apply laterIH covers
    rcases cacheFilter_cases cache with ⟨-, rfl⟩ | ⟨_, _, -, -, -, -, made⟩
    · exact middle
    · exact aliasFor_tracked middle made coveredNext
  | call _ _ second later firstIH secondIH laterIH =>
    have coveredNext := later.covers covers
    have middle := firstIH (second.covers coveredNext) start
    exact laterIH covers (secondIH coveredNext middle)
  | list _ _ later innerIH laterIH =>
    exact laterIH covers (innerIH (later.covers covers) start)

/-- An expression has no blocks, and neither has what becomes of it. -/
theorem Operands.flat (h : Operands ctx st es es' last) : Node.Flat es ∧ Node.Flat es' := by
  induction h with
  | nil => exact ⟨.nil, .nil⟩
  | identifier _ _ _ ih | literal _ _ _ ih | placeholder _ _ ih =>
    exact ⟨.cons rfl rfl ih.1, .cons rfl rfl ih.2⟩
  | binary span op _ _ _ first second ih =>
    exact ⟨.binary span op first.1 second.1 ih.1, .binary span op first.2 second.2 ih.2⟩
  | filter _ _ _ _ inner ih =>
    exact ⟨.filter _ _ _ inner.1 ih.1, .filter _ _ _ inner.2 ih.2⟩
  | call span _ _ _ first second ih =>
    exact ⟨.call span first.1 second.1 ih.1, .call span first.2 second.2 ih.2⟩
  | list span _ _ inner ih => exact ⟨.list span inner.1 ih.1, .list span inner.2 ih.2⟩

theorem aliasFor_flat {c : Computation} {value : Node} {name : String}
    (h : Node.Flat st.frame.pending) (made : st.aliasFor ctx c value = (name, next))
    (plain : Node.Flat [value]) : Node.Flat next.frame.pending := by
  rcases aliasFor_cases made with ⟨rfl, -⟩ | ⟨rfl, -, -⟩
  · exact h
  · exact h.append (.cons plain.head.1 plain.head.2 .nil)

/-- The definitions that an expression asks for have no blocks. -/
theorem Operands.flat_pending (h : Operands ctx st es es' last)
    (start : Node.Flat st.frame.pending) : Node.Flat last.frame.pending := by
  induction h with
  | nil => exact start
  | identifier _ _ _ ih | literal _ _ _ ih => exact ih start
  | placeholder read _ ih =>
    apply ih
    rcases read_cases read with ⟨-, -, same⟩ | ⟨-, same⟩ | ⟨_, _, -, -, -, -, made, same⟩
    · rwa [same.frame]
    · rwa [same.frame]
    · rw [same.frame]
      exact aliasFor_flat start made ⟨rfl, rfl⟩
  | binary _ _ _ _ _ first second ih => exact ih (second (first start))
  | filter _ check cache _ inner ih =>
    apply ih
    have checked := inner start
    rw [← (checkFilter_alike check).frame] at checked
    rcases cacheFilter_cases cache with ⟨-, rfl⟩ | ⟨_, _, -, -, -, -, made⟩
    · exact checked
    · exact aliasFor_flat checked made ⟨rfl, rfl⟩
  | call _ _ _ _ first second ih => exact ih (second (first start))
  | list _ _ _ inner ih => exact ih (inner start)

/-- What becomes of an expression sets nothing. -/
theorem Operands.targets_eq (h : Operands ctx st es es' last) : Node.targets es' = [] := by
  induction h with
  | nil => rfl
  | identifier _ _ _ ih | literal _ _ _ ih | placeholder _ _ ih | binary _ _ _ _ _ _ _ ih
  | filter _ _ _ _ _ ih | call _ _ _ _ _ _ ih | list _ _ _ _ ih => exact ih

end Expressions

/-- The outcome of a walk over statements behind which the given aliases were introduced. -/
structure Tidied (table : AliasTable) (names : List String) (out : List Node) (last : State) :
    Prop where
  tracked : Tracked table (names ++ Node.aliasTargets table out) last
  empty : last.frame.pending = []
  tidy : ∀ block ∈ Node.branchesOf out, block.Tidy table

section Blocks

variable {table : AliasTable} {names : List String} {st last : State} {out : List Node}

theorem flat_of_pending (empty : st.frame.pending = []) : Node.Flat st.frame.pending := by
  rw [empty]
  exact .nil

theorem tracked_enter {scope : Scope} {assigned : Assigned String} (plain : scope.isPlain)
    (entered : st.frame = .enter scope assigned) : Tracked table [] st := by
  constructor
  · rw [entered]
    change scope.aliases.toList = []
    rw [Scope.aliases_of_isPlain plain]
    rfl
  · rw [entered]
    intro entry member
    cases member
  · rw [entered]
    rfl

/-- A whole block. -/
theorem Tidied.block {scope : Scope} (h : Tidied table [] out last) (plain : scope.isPlain) :
    Block.Tidy table ⟨out, last.frame.commit scope⟩ := by
  apply commit_tidy plain h.tracked.entries h.tracked.held
  have order := h.tracked.order
  rw [h.empty] at order
  exact order.trans (List.append_nil _)

/-- One statement with the definitions in front of it, and the statements behind. -/
theorem Tidied.splice {pending : List Node} {n : Node}
    (h : Tidied table (names ++ Node.aliasTargets table pending) out last)
    (flat : Node.Flat pending) (unset : Node.aliasTargets table [n] = [])
    (own : ∀ block ∈ n.branches, block.Tidy table) :
    Tidied table names (pending ++ n :: out) last := by
  refine ⟨?_, h.empty, ?_⟩
  · have split : Node.aliasTargets table (pending ++ n :: out) =
        Node.aliasTargets table pending ++
          (Node.aliasTargets table [n] ++ Node.aliasTargets table out) := by
      rw [← List.singleton_append]
      simp only [Node.aliasTargets, Node.targets_append, List.filter_append]
    rw [split, unset, List.nil_append, ← List.append_assoc]
    exact h.tracked
  · intro block member
    rw [Node.branchesOf_append, flat.branches, List.nil_append, Node.branchesOf] at member
    rcases List.mem_append.1 member with here | behind
    · exact own block here
    · exact h.tidy block behind

end Blocks

/-- The walk of a block makes its branches tidy, and gathers the aliases that its statements
define. -/
theorem Statements.tidied {ctx : Context} {table : AliasTable} {names : List String}
    {st last : State} {source out : List Node} (h : Statements ctx st source out last)
    (plain : Node.areStatements source)
    (free : ∀ target ∈ Node.assignmentsOf source, table target = none) (covers : Covers table last)
    (empty : st.frame.pending = []) (start : Tracked table names st) :
    Tidied table names out last := by
  -- a branch starts with no names, so the names are those of the statements passed in this block
  induction h generalizing names with
  | nil =>
    refine ⟨?_, empty, fun block member => by cases member⟩
    simpa [Node.aliasTargets, Node.targets] using start
  | @function ctx st inner last body walked rest rest' scope span name inside later _ ih =>
    rw [Node.areStatements, Bool.and_eq_true] at plain
    have behind := ih plain.2 free covers rfl (start.behind rfl rfl rfl)
    exact behind.splice (flat_of_pending empty) rfl fun block member => by cases member
  | @branch ctx st tested inThen last condition condition' thenBody thenBody' rest rest' thenScope
      span test thenWalk later thenIH ih =>
    simp only [Node.areStatements, Node.isStatement, Bool.and_eq_true] at plain
    obtain ⟨⟨⟨-, plainScope⟩, plainThen⟩, plainRest⟩ := plain
    simp only [Node.assignmentsOf, Node.assignments, List.mem_append] at free
    have coveredThen : Covers table inThen := later.covers covers
    have reached := test.tracked (thenWalk.covers coveredThen) (start.of_frame rfl)
    have inside := thenIH plainThen (fun target member => free target (.inl (.inr member)))
      coveredThen rfl (tracked_enter plainScope rfl)
    have behind := ih plainRest (fun target member => free target (.inr member)) covers rfl
      (reached.behind rfl rfl rfl)
    refine behind.splice (test.flat_pending (flat_of_pending empty)) rfl fun block member => ?_
    rw [Node.branches, test.flat.2.head.1, List.nil_append, List.mem_cons] at member
    rcases member with rfl | member
    · exact inside.block plainScope
    · exact inside.tidy block member
  | @branches ctx st tested inThen inElse last condition condition' thenBody thenBody' elseBody
      elseBody' rest rest' thenScope elseScope span test thenWalk elseWalk later thenIH elseIH ih =>
    simp only [Node.areStatements, Node.isStatement, Bool.and_eq_true] at plain
    obtain ⟨⟨⟨⟨⟨-, plainThenScope⟩, plainThen⟩, plainElseScope⟩, plainElse⟩, plainRest⟩ := plain
    simp only [Node.assignmentsOf, Node.assignments, List.mem_append] at free
    have coveredElse : Covers table inElse := later.covers covers
    have coveredThen : Covers table inThen := elseWalk.covers coveredElse
    have reached := test.tracked (thenWalk.covers coveredThen) (start.of_frame rfl)
    have inThen := thenIH plainThen (fun target member => free target (.inl (.inl (.inr member))))
      coveredThen rfl (tracked_enter plainThenScope rfl)
    have inElse := elseIH plainElse (fun target member => free target (.inl (.inr member)))
      coveredElse rfl (tracked_enter plainElseScope rfl)
    have behind := ih plainRest (fun target member => free target (.inr member)) covers rfl
      (reached.behind rfl rfl rfl)
    refine behind.splice (test.flat_pending (flat_of_pending empty)) rfl fun block member => ?_
    rw [Node.branches, test.flat.2.head.1, List.nil_append, List.mem_append, List.mem_cons,
      List.mem_cons] at member
    rcases member with (rfl | member) | (rfl | member)
    · exact inThen.block plainThenScope
    · exact inThen.tidy block member
    · exact inElse.block plainElseScope
    · exact inElse.tidy block member
  | @assign ctx st next last value value' rest rest' span target inner later ih =>
    rw [Node.areStatements, Bool.and_eq_true] at plain
    simp only [Node.assignmentsOf, Node.assignments, List.cons_append, List.mem_cons,
      List.mem_append] at free
    have reached := inner.tracked (later.covers covers) (start.of_frame rfl)
    have behind := ih plain.2 (fun name member => free name (.inr (.inr member))) covers rfl
      (reached.behind rfl rfl rfl)
    refine behind.splice (inner.flat_pending (flat_of_pending empty)) ?_ fun block member => ?_
    · simp [Node.aliasTargets, Node.targets, Node.target?, free target (.inl rfl)]
    · rw [Node.branches, inner.flat.2.head.1] at member
      cases member
  | @write ctx st next last operand operand' rest rest' span inner later ih =>
    rw [Node.areStatements, Bool.and_eq_true] at plain
    simp only [Node.assignmentsOf, List.mem_append] at free
    have reached := inner.tracked (later.covers covers) (start.of_frame rfl)
    have behind := ih plain.2 (fun name member => free name (.inr member)) covers rfl
      (reached.behind rfl rfl rfl)
    refine behind.splice (inner.flat_pending (flat_of_pending empty)) rfl fun block member => ?_
    rw [Node.branches, inner.flat.2.head.1] at member
    cases member
  | @expression ctx st next last e e' rest rest' isExpression inner later ih =>
    rw [Node.areStatements, Bool.and_eq_true] at plain
    simp only [Node.assignmentsOf, List.mem_append] at free
    have reached := inner.tracked (later.covers covers) (start.of_frame rfl)
    have behind := ih plain.2 (fun name member => free name (.inr member)) covers rfl
      (reached.behind rfl rfl rfl)
    refine behind.splice (inner.flat_pending (flat_of_pending empty)) ?_ fun block member => ?_
    · rw [Node.aliasTargets, inner.targets_eq, List.filter_nil]
    · rw [inner.flat.2.head.1] at member
      cases member

end Analysis

theorem exists_mem_of_forall₂ {α β : Type} {R : α → β → Prop} {as : List α} {bs : List β}
    (h : List.Forall₂ R as bs) {b : β} (member : b ∈ bs) : ∃ a ∈ as, R a b := by
  obtain ⟨i, bound, rfl⟩ := List.getElem_of_mem member
  exact ⟨_, List.getElem_mem _, h.get (h.length_eq ▸ bound) bound⟩

theorem exists_both_of_forall₂ {α β : Type} {R : α → β → Prop} {S : β → α → Prop} {as : List α}
    {bs : List β} (h : List.Forall₂ R as bs) (h' : List.Forall₂ S bs as) {a : α} (member : a ∈ as) :
    ∃ b, R a b ∧ S b a := by
  have both := (h.mp (fun _ _ one two => And.intro one two) h'.flip).flip
  obtain ⟨b, -, related⟩ := exists_mem_of_forall₂ both member
  exact ⟨b, related⟩

/-- Each computation has one alias. -/
def AliasTable.Injective (table : AliasTable) : Prop :=
  ∀ a b c, table a = some c → table b = some c → a = b

/-- The aliases of an analysed function: each has a computation of its own, no name that the source
declares or that is given from outside, and its place in the scope of every block that defines
it. -/
structure Registers (globals : OrderedSet String) (table : AliasTable)
    (source analyzed : Block Node) : Prop where
  injective : table.Injective
  undeclared : ∀ name c, table name = some c → ∀ scope ∈ source.scopes, name ∉ scope.locals
  foreign : ∀ name c, table name = some c → name ∉ globals
  tidy : ∀ block ∈ analyzed.blocks, block.Tidy table

namespace Analysis

theorem mem_plainNames_of_mem_locals {scope : Scope} {name : String} (plain : scope.isPlain)
    (member : name ∈ scope.locals) : name ∈ scope.plainNames := by
  rw [Scope.plainNames, Scope.aliases_of_isPlain plain]
  exact List.mem_filter.2 ⟨List.mem_append_left _ member, rfl⟩

/-- Every alias of a function of a source tree has the first name that is free. -/
theorem enterFunction_chosen {ctx : Context} {st inner : State} {body walked : List Node}
    {scope : Scope} (plain : scope.isPlain) (source : Node.areStatements body)
    (h : Statements (ctx.enterFunction ⟨body, scope⟩) (st.enterFunction ⟨body, scope⟩) body walked
      inner) : Chosen (ctx.enterFunction ⟨body, scope⟩) inner := by
  apply h.chosen
  intro name c held
  rw [enterFunction_holders st plain source] at held
  cases held

theorem enterFunction_registers {ctx : Context} {st inner : State} {body walked : List Node}
    {scope : Scope} (plain : scope.isPlain) (source : Node.areStatements body)
    (h : Statements (ctx.enterFunction ⟨body, scope⟩) (st.enterFunction ⟨body, scope⟩) body walked
      inner) :
    Registers st.globals inner.holders.get? ⟨body, scope⟩ ⟨walked, inner.frame.commit scope⟩ := by
  have chosen := enterFunction_chosen plain source h
  obtain ⟨-, free⟩ := enterFunction_table plain source h
  have tidied : Tidied inner.holders.get? [] walked inner :=
    h.tidied source free (fun _ _ held => held) rfl (tracked_enter plain rfl)
  refine ⟨fun a b c => chosen.injective, ?_, ?_, ?_⟩
  · intro name c held inner among declared
    have plainInner : inner.isPlain := by
      rcases List.mem_cons.1 among with rfl | below
      · exact plain
      · exact Node.isPlain_of_mem_scopesOf body source below
    apply (chosen.unclaimed held).2.1
    exact List.mem_flatMap.2 ⟨inner, among, mem_plainNames_of_mem_locals plainInner declared⟩
  · intro name c held given
    apply (chosen.unclaimed held).2.2
    rw [h.globals_eq]
    exact given
  · intro block member
    rcases List.mem_cons.1 member with rfl | below
    · exact tidied.block plain
    · exact tidied.tidy block below

/-- A function and what the analysis makes of it. -/
def Analyzed (globals : OrderedSet String) (source analyzed : Block Node) : Prop :=
  ∃ table after, Optimizes table after source analyzed ∧ Registers globals table source analyzed

/-- One statement with the definitions in front of it, and the statements behind. -/
theorem forall_functions_splice {R : Block Node → Block Node → Prop}
    {pending rest rest' : List Node} {n n' : Node} (flat : Node.Flat pending)
    (own : List.Forall₂ R n.functions n'.functions)
    (later : List.Forall₂ R (Node.functionsOf rest) (Node.functionsOf rest')) :
    List.Forall₂ R (Node.functionsOf (n :: rest)) (Node.functionsOf (pending ++ n' :: rest')) := by
  rw [Node.functionsOf_append, flat.functions, List.nil_append, Node.functionsOf_cons,
    Node.functionsOf_cons]
  exact List.rel_append own later

/-- A relation between functions that the walk of a function from any state establishes. -/
def Walked (options : Options) (globals : OrderedSet String) (R : Block Node → Block Node → Prop) :
    Prop :=
  ∀ {ctx : Context} {st inner : State} {body walked : List Node} {scope : Scope},
    scope.isPlain → Node.areStatements body → st.globals = globals → ctx.options = options →
    Statements (ctx.enterFunction ⟨body, scope⟩) (st.enterFunction ⟨body, scope⟩) body walked
      inner →
    R ⟨body, scope⟩ ⟨walked, inner.frame.commit scope⟩

/-- Every function that is walked. -/
theorem Statements.forall_functions {ctx : Context} {options : Options}
    {globals : OrderedSet String} {R : Block Node → Block Node → Prop} {st last : State}
    {source out : List Node} (h : Statements ctx st source out last)
    (each : Walked options globals R) (plain : Node.areStatements source)
    (empty : st.frame.pending = []) (given : st.globals = globals)
    (fixed : ctx.options = options) :
    List.Forall₂ R (Node.functionsOf source) (Node.functionsOf out) := by
  induction h with
  | nil => exact .nil
  | @function ctx st inner last body walked rest rest' scope span name inside later insideIH ih =>
    simp only [Node.areStatements, Node.isStatement, Bool.and_eq_true] at plain
    obtain ⟨⟨plainScope, plainBody⟩, plainRest⟩ := plain
    have begun : st.beginStatement.globals = globals := given
    apply forall_functions_splice (flat_of_pending empty)
    · exact .cons (each plainScope plainBody begun fixed inside)
        (insideIH plainBody rfl given fixed)
    · exact ih plainRest rfl (inside.globals_eq.trans given) fixed
  | @branch ctx st tested inThen last condition condition' thenBody thenBody' rest rest' thenScope
      span test thenWalk later thenIH ih =>
    simp only [Node.areStatements, Node.isStatement, Bool.and_eq_true] at plain
    obtain ⟨⟨-, plainThen⟩, plainRest⟩ := plain
    have before : tested.globals = globals := test.globals_eq.trans given
    apply forall_functions_splice (test.flat_pending (flat_of_pending empty))
    · rw [Node.functions_branch, Node.functions_branch, test.flat.1.head.2, test.flat.2.head.2]
      exact thenIH plainThen rfl before fixed
    · exact ih plainRest rfl (thenWalk.globals_eq.trans before) fixed
  | @branches ctx st tested inThen inElse last condition condition' thenBody thenBody' elseBody
      elseBody' rest rest' thenScope elseScope span test thenWalk elseWalk later thenIH elseIH ih =>
    simp only [Node.areStatements, Node.isStatement, Bool.and_eq_true] at plain
    obtain ⟨⟨⟨⟨-, plainThen⟩, -⟩, plainElse⟩, plainRest⟩ := plain
    have before : tested.globals = globals := test.globals_eq.trans given
    have between : inThen.globals = globals := thenWalk.globals_eq.trans before
    apply forall_functions_splice (test.flat_pending (flat_of_pending empty))
    · rw [Node.functions_branches, Node.functions_branches, test.flat.1.head.2,
        test.flat.2.head.2]
      exact List.rel_append (thenIH plainThen rfl before fixed) (elseIH plainElse rfl between fixed)
    · exact ih plainRest rfl (elseWalk.globals_eq.trans between) fixed
  | @assign ctx st next last value value' rest rest' span target inner later ih =>
    rw [Node.areStatements, Bool.and_eq_true] at plain
    apply forall_functions_splice (inner.flat_pending (flat_of_pending empty))
    · rw [Node.functions_assign, Node.functions_assign, inner.flat.1.head.2, inner.flat.2.head.2]
      exact .nil
    · exact ih plain.2 rfl (inner.globals_eq.trans given) fixed
  | @write ctx st next last operand operand' rest rest' span inner later ih =>
    rw [Node.areStatements, Bool.and_eq_true] at plain
    apply forall_functions_splice (inner.flat_pending (flat_of_pending empty))
    · rw [Node.functions_write, Node.functions_write, inner.flat.1.head.2, inner.flat.2.head.2]
      exact .nil
    · exact ih plain.2 rfl (inner.globals_eq.trans given) fixed
  | @expression ctx st next last e e' rest rest' isExpression inner later ih =>
    rw [Node.areStatements, Bool.and_eq_true] at plain
    apply forall_functions_splice (inner.flat_pending (flat_of_pending empty))
    · rw [inner.flat.1.head.2, inner.flat.2.head.2]
      exact .nil
    · exact ih plain.2 rfl (inner.globals_eq.trans given) fixed

/-- Every function of an analysed tree. -/
theorem analyze_forall_functions {options : Options} {root : Node} {analysis : Analysis}
    {R : Block Node → Block Node → Prop} (source : root.isSource)
    (h : root.analyze options = .ok analysis) (each : Walked options root.globals R) :
    List.Forall₂ R root.functions analysis.tree.functions := by
  obtain ⟨first, out, last, statements, frame, -, globals, shape⟩ := analyze_statements source h
  rw [Node.functions_eq_top root, shape.functions_eq]
  exact statements.forall_functions each source (congrArg Frame.pending frame) globals rfl

/-- Every function of an analysed tree is an optimised form of the one at its place, with its
aliases registered. -/
theorem analyze_functions {options : Options} {root : Node} {analysis : Analysis}
    (source : root.isSource) (h : root.analyze options = .ok analysis) :
    List.Forall₂ (Analyzed root.globals) root.functions analysis.tree.functions := by
  refine analyze_forall_functions source h fun plain source given _ inside => ?_
  exact ⟨_, _, enterFunction_optimizes plain source inside,
    given ▸ enterFunction_registers plain source inside⟩

/-- The blocks outside the functions of an analysed tree have no aliases. -/
theorem analyze_branches {options : Options} {root : Node} {analysis : Analysis}
    (source : root.isSource) (h : root.analyze options = .ok analysis) :
    ∀ block ∈ analysis.tree.branches, block.Tidy fun _ => none := by
  obtain ⟨first, out, last, statements, frame, holders, -, shape⟩ := analyze_statements source h
  have tidied := statements.tidied source (fun _ _ => rfl) (statements.covers_outside holders)
    (congrArg Frame.pending frame) (tracked_enter (by decide) frame)
  rw [shape.branches_eq]
  exact tidied.tidy

end Analysis

/-- The definitions of an analysed function are those of its aliases. -/
theorem Optimizes.definition {table : AliasTable} {after : Assigned String}
    {source optimized : Block Node} (h : Optimizes table after source optimized) {name : String}
    {value : Node} (member : (name, value) ∈ source.definitions optimized) :
    ∃ c, table name = some c ∧ value.computation? = some c := by
  obtain ⟨bound, new⟩ := List.mem_filter.1 member
  obtain ⟨n, statement, binding⟩ := List.mem_filterMap.1 bound
  obtain ⟨span, rfl⟩ := Node.exists_assign_of_binding binding
  rcases h.expanded.assign_cases statement with old | held
  · exact absurd old (of_decide_eq_true new)
  · exact held

/-- No variable of the source is assigned once more. -/
theorem Optimizes.assignments_filter {table : AliasTable} {after : Assigned String}
    {source optimized : Block Node} (h : Optimizes table after source optimized) :
    optimized.assignments.filter (· ∈ source.assignments) = source.assignments := by
  refine Eq.trans (List.filter_congr fun name member => ?_) h.expanded.assignments_filter
  rw [Bool.eq_iff_iff, decide_eq_true_eq, Option.isNone_iff_eq_none]
  exact (h.expanded.table_eq_none_iff member).symm

/-- Within a function of an analysed tree the names of introduced aliases and the computations they
hold correspond. They are no variables of the function, declared by no scope of it and not given
from outside, and the search for such a name always ends, on the first candidate that is free. -/
theorem analyze_alias_names_bijective (options : Options) (root : Node) (analysis : Analysis)
    (source : root.isSource) (h : root.analyze options = .ok analysis) :
    List.Forall₂ (fun f g =>
        (∀ d ∈ f.definitions g, ∀ e ∈ f.definitions g,
          d.1 = e.1 ↔ d.2.computation? = e.2.computation?) ∧
        (∀ d ∈ f.definitions g, d.2.computation?.isSome ∧ d.1 ∉ root.globals ∧
          ∀ scope ∈ f.scopes, d.1 ∉ scope.locals) ∧
        g.assignments.filter (· ∈ f.assignments) = f.assignments)
      root.functions analysis.tree.functions ∧
    ∀ (st : Analysis.State) (ctx : Analysis.Context) (c : Computation),
      st.FirstFree ctx c (st.freshAlias ctx c) := by
  refine ⟨(Analysis.analyze_functions source h).imp ?_, Analysis.freshAlias_firstFree⟩
  rintro f g ⟨table, after, optimizes, registers⟩
  refine ⟨?_, ?_, optimizes.assignments_filter⟩
  · rintro ⟨a, first⟩ hd ⟨b, second⟩ he
    obtain ⟨c, held, computed⟩ := optimizes.definition hd
    obtain ⟨c', held', computed'⟩ := optimizes.definition he
    simp only [computed, computed', Option.some.injEq]
    constructor
    · rintro rfl
      rw [held] at held'
      exact Option.some.inj held'
    · rintro rfl
      exact registers.injective a b c held held'
  · rintro ⟨name, value⟩ hd
    obtain ⟨c, held, computed⟩ := optimizes.definition hd
    refine ⟨?_, registers.foreign name c held, registers.undeclared name c held⟩
    rw [computed]
    rfl

/-- A function that sets the preferred alias of `foo`, and reads `foo` in one branch, filtered, and
behind it `foo_1`, whose preferred alias is the next candidate for `foo`. -/
def crowded : Block Node :=
  let foo := Node.placeholder .generated "foo" none
  .plain
    [.assign .generated "_rph_foo" (.identifier .generated "hello"),
      .conditional .generated (.identifier .generated "hello")
        (.plain [.write .generated (.filter .generated foo none none)])
        (some (.plain [.write .generated foo])),
      .write .generated (.placeholder .generated "foo_1" none),
      .write .generated (.placeholder .generated "bar" none)]

/-- A template with that function alone, to which the preferred alias of `bar` is given. -/
def crowdedPage : Node :=
  .template .generated "page" (.ofList ["_rph_bar"]) [.function .generated "crowded" crowded]

/-- Both branches define the same alias of `foo`, and each of the three placeholders has to give way
to a name that is taken. -/
theorem crowdedPage_analyze :
    ∃ analysis g, crowdedPage.analyze .caching = .ok analysis ∧ analysis.tree.functions = [g] ∧
      (crowded.definitions g).map Prod.fst =
        ["_rph_foo_1_1", "_rph_bar_1", "_rph_foo_1", "_fphCC3A988C", "_rph_foo_1"] :=
  ⟨_, _, rfl, rfl, by decide +kernel⟩

theorem crowded_alias_names_bijective :
    ∃ analysis g, crowdedPage.isSource = true ∧ crowdedPage.analyze .caching = .ok analysis ∧
      analysis.tree.functions = [g] ∧ (crowded.definitions g).length = 5 ∧
      (∀ d ∈ crowded.definitions g, ∀ e ∈ crowded.definitions g,
        d.1 = e.1 ↔ d.2.computation? = e.2.computation?) ∧
      ∀ d ∈ crowded.definitions g, d.1 ∉ crowdedPage.globals := by
  obtain ⟨analysis, g, analyzed, functions, names⟩ := crowdedPage_analyze
  have all := (analyze_alias_names_bijective .caching crowdedPage analysis (by decide) analyzed).1
  rw [functions] at all
  obtain ⟨bijective, apart, -⟩ := (List.forall₂_cons.1 all).1
  have many : (crowded.definitions g).length = 5 := by
    rw [← List.length_map, names]
    rfl
  exact ⟨analysis, g, by decide, analyzed, functions, many, bijective, fun d hd => (apart d hd).2.1⟩

end Stencil
