import Stencil.Proofs.Registration

/-!
# An alias in sight is not defined again

The analysis defines an alias only where the computation behind it has none in sight. What earlier
statements of a block and of the blocks around it have defined is in sight, so none of it is defined
again: neither in the same block nor in a branch.

* `Statements.novel`: the walk of a block defines novel aliases only.
* `Block.Grounded`: a block as the analysis leaves it, with the aliases that are defined around it.
* `analyze_grounded`: every block of an analysed function is grounded.
-/

namespace Stencil

section Novel

variable (table : AliasTable)

mutual

/-- The aliases that a statement defines are none of those that are defined in front of it. -/
def Node.Novel (defined : List String) : Node → Prop
  | .assign _ target _ => (table target).isSome → target ∉ defined
  | .conditional _ _ ⟨thenBody, _⟩ none => Node.NovelOf defined thenBody
  | .conditional _ _ ⟨thenBody, _⟩ (some ⟨elseBody, _⟩) =>
    Node.NovelOf defined thenBody ∧ Node.NovelOf defined elseBody
  | .template .. | .function .. | .identifier .. | .placeholder .. | .literal .. | .binary ..
  | .filter .. | .call .. | .list .. | .write .. => True
termination_by structural n => n

/-- The aliases that statements define are none of those that are defined in front of them. -/
def Node.NovelOf (defined : List String) : List Node → Prop
  | [] => True
  | n :: rest => n.Novel defined ∧ Node.NovelOf (defined ++ n.target?.toList) rest
termination_by structural ns => ns

end

end Novel

section Novel

variable {table : AliasTable} {defined : List String}

theorem Node.novelOf_append {first second : List Node} :
    Node.NovelOf table defined (first ++ second) ↔
      Node.NovelOf table defined first ∧
        Node.NovelOf table (defined ++ Node.targets first) second := by
  induction first generalizing defined with
  | nil => simp [Node.NovelOf, Node.targets]
  | cons n rest ih =>
    have targets : Node.targets (n :: rest) = n.target?.toList ++ Node.targets rest := by
      rw [Node.targets, List.filterMap_cons]
      cases n.target? <;> rfl
    rw [List.cons_append, Node.NovelOf, Node.NovelOf, ih, targets, List.append_assoc, and_assoc]

/-- A statement that sets nothing, behind definitions and in front of other statements. -/
theorem Node.NovelOf.splice {pending rest : List Node} {n : Node}
    (before : Node.NovelOf table defined pending) (unset : n.target? = none)
    (here : n.Novel table (defined ++ Node.targets pending))
    (behind : Node.NovelOf table (defined ++ Node.targets pending) rest) :
    Node.NovelOf table defined (pending ++ n :: rest) := by
  refine Node.novelOf_append.2 ⟨before, here, ?_⟩
  rw [unset]
  exact (List.append_nil _).symm ▸ behind

theorem Node.NovelOf.behind {n : Node} {rest : List Node}
    (novel : Node.NovelOf table defined (n :: rest)) (unset : n.target? = none) :
    Node.NovelOf table defined rest := by
  have behind := novel.2
  rw [unset] at behind
  exact List.append_nil defined ▸ behind

/-- What is defined in front of a body is set nowhere in it. -/
theorem Expanded.unset {assigned after : Assigned String} {source out : List Node} {name : String}
    (h : Expanded table assigned defined source out after)
    (novel : Node.NovelOf table defined out) (held : (table name).isSome)
    (there : name ∈ defined) : name ∉ Node.targets (Node.statementsOf out) := by
  induction h with
  | nil => exact List.not_mem_nil
  | define span _ definition _ ih =>
    have behind := ih novel.2 held (List.mem_append_left _ there)
    rw [Node.mem_targets_cons, Node.branches, definition.branches_eq]
    rintro (here | inside | later)
    · cases here
      exact novel.1 held there
    · cases inside
    · exact behind later
  | assign span free noted _ ih =>
    have behind := ih novel.2 held (List.mem_append_left _ there)
    rw [Node.mem_targets_cons, Node.branches, noted.branches_eq]
    rintro (here | inside | later)
    · cases here
      rw [free] at held
      cases held
    · cases inside
    · exact behind later
  | write span noted _ ih =>
    have behind := ih (novel.behind rfl) held there
    rw [Node.mem_targets_cons, Node.branches, noted.branches_eq]
    rintro (here | inside | later)
    · cases here
    · cases inside
    · exact behind later
  | expression noted _ ih =>
    have behind := ih (novel.behind noted.target_eq) held there
    rw [Node.mem_targets_cons, noted.branches_eq, noted.target_eq]
    rintro (here | inside | later)
    · cases here
    · cases inside
    · exact behind later
  | branch span noted _ _ _ thenIH ih =>
    have behind := ih (novel.behind rfl) held there
    have inThen := thenIH novel.1 held there
    rw [Node.mem_targets_cons, Node.branches, noted.branches_eq]
    rintro (here | inside | later)
    · cases here
    · exact inThen inside
    · exact behind later
  | branches span noted _ _ _ _ _ thenIH elseIH ih =>
    have behind := ih (novel.behind rfl) held there
    have inThen := thenIH novel.1.1 held there
    have inElse := elseIH novel.1.2 held there
    rw [Node.mem_targets_cons, Node.branches, noted.branches_eq, List.nil_append,
      List.flatMap_append, Node.targets_append, List.mem_append]
    rintro (here | (inside | inside) | later)
    · cases here
    · exact inThen inside
    · exact inElse inside
    · exact behind later
  | function _ _ _ _ _ _ _ _ ih =>
    have behind := ih (novel.behind rfl) held there
    rw [Node.mem_targets_cons]
    rintro (here | inside | later)
    · cases here
    · cases inside
    · exact behind later

end Novel

/-- A block as the analysis leaves it, where the given variables are set around it. -/
structure Block.Grounded (table : AliasTable) (outer : List String) (block : Block Node) :
    Prop where
  tidy : block.Tidy table
  expanded : ∃ assigned source after, Expanded table assigned outer source block.body after
  apart : ∀ name ∈ Node.targets (Node.statementsOf block.body), (table name).isSome → name ∉ outer

section Grounded

variable {table : AliasTable} {assigned after : Assigned String} {defined : List String}
  {source out : List Node}

theorem Expanded.grounded_block (h : Expanded table assigned defined source out after)
    {scope : Scope} (novel : Node.NovelOf table defined out)
    (tidy : Block.Tidy table ⟨out, scope⟩) : Block.Grounded table defined ⟨out, scope⟩ :=
  ⟨tidy, ⟨_, _, _, h⟩, fun _ member held there => h.unset novel held there member⟩

/-- The branches in a body whose aliases are novel. -/
theorem Expanded.grounded (h : Expanded table assigned defined source out after)
    (novel : Node.NovelOf table defined out)
    (tidy : ∀ block ∈ Node.branchesOf out, block.Tidy table) :
    ∀ block ∈ Node.branchesOf out, ∃ outer, block.Grounded table outer := by
  induction h with
  | nil => exact fun block member => by cases member
  | define span _ definition _ ih =>
    simp only [Node.branchesOf, Node.branches, definition.branches_eq, List.nil_append] at tidy ⊢
    exact ih novel.2 tidy
  | assign span _ noted _ ih =>
    simp only [Node.branchesOf, Node.branches, noted.branches_eq, List.nil_append] at tidy ⊢
    exact ih novel.2 tidy
  | write span noted _ ih =>
    simp only [Node.branchesOf, Node.branches, noted.branches_eq, List.nil_append] at tidy ⊢
    exact ih (novel.behind rfl) tidy
  | expression noted _ ih =>
    simp only [Node.branchesOf, noted.branches_eq, List.nil_append] at tidy ⊢
    exact ih (novel.behind noted.target_eq) tidy
  | branch span noted _ thenSide _ thenIH ih =>
    simp only [Node.branchesOf, Node.branches, noted.branches_eq, List.nil_append, List.cons_append,
      List.mem_cons, List.mem_append] at tidy ⊢
    rintro block (rfl | inside | behind)
    · exact ⟨_, thenSide.grounded_block novel.1 (tidy _ (.inl rfl))⟩
    · exact thenIH novel.1 (fun inner member => tidy inner (.inr (.inl member))) block inside
    · exact ih (novel.behind rfl) (fun inner member => tidy inner (.inr (.inr member))) block behind
  | branches span noted _ _ thenSide elseSide _ thenIH elseIH ih =>
    simp only [Node.branchesOf, Node.branches, noted.branches_eq, List.nil_append, List.cons_append,
      List.append_assoc, List.mem_cons, List.mem_append] at tidy ⊢
    rintro block (rfl | inThen | rfl | inElse | behind)
    · exact ⟨_, thenSide.grounded_block novel.1.1 (tidy _ (.inl rfl))⟩
    · exact thenIH novel.1.1 (fun inner member => tidy inner (.inr (.inl member))) block inThen
    · exact ⟨_, elseSide.grounded_block novel.1.2 (tidy _ (.inr (.inr (.inl rfl))))⟩
    · exact elseIH novel.1.2 (fun inner member => tidy inner (.inr (.inr (.inr (.inl member)))))
        block inElse
    · exact ih (novel.behind rfl) (fun inner member => tidy inner (.inr (.inr (.inr (.inr member))))) block
        behind
  | function _ _ _ _ _ _ _ _ ih =>
    simp only [Node.branchesOf, Node.branches, List.nil_append] at tidy ⊢
    exact ih (novel.behind rfl) tidy

end Grounded

namespace Analysis

/-- The aliases that are defined in front of the current statement, by the given variables or by
pending definitions, are in sight. -/
def Seen (ctx : Context) (table : AliasTable) (defined : List String) (st : State) : Prop :=
  ∀ name ∈ defined ++ Node.targets st.frame.pending, ∀ c, table name = some c →
    (st.visibleAlias? ctx c).isSome

section Expressions

variable {ctx : Context} {table : AliasTable} {defined : List String} {st next last : State}
  {es es' : List Node}

theorem Seen.of_aliases (h : Seen ctx table defined st)
    (aliases : next.frame.aliases = st.frame.aliases)
    (pending : next.frame.pending = st.frame.pending) : Seen ctx table defined next := by
  unfold Seen State.visibleAlias? at h ⊢
  rw [aliases, pending]
  exact h

theorem Seen.of_frame (h : Seen ctx table defined st) (same : next.frame = st.frame) :
    Seen ctx table defined next :=
  h.of_aliases (congrArg Frame.aliases same) (congrArg Frame.pending same)

/-- A new alias is defined by a pending definition, and was not in sight before. -/
theorem aliasFor_novel {c : Computation} {value : Node} {name : String}
    (seen : Seen ctx table defined st) (novel : Node.NovelOf table defined st.frame.pending)
    (made : st.aliasFor ctx c value = (name, next)) (covers : Covers table next) :
    Seen ctx table defined next ∧ Node.NovelOf table defined next.frame.pending := by
  rcases aliasFor_cases made with ⟨rfl, -⟩ | ⟨rfl, -, unseen⟩
  · exact ⟨seen, novel⟩
  · have held : table name = some c := by
      apply covers
      rw [OrderedMap.get?_insert, if_pos rfl]
    constructor
    · intro other member c' held'
      apply isSome_findSome_insert
      change other ∈ defined ++ Node.targets (st.frame.pending ++ [.assign .generated name value])
        at member
      rw [Node.targets_snoc, ← List.append_assoc, List.mem_append, List.mem_singleton] at member
      rcases member with old | rfl
      · exact .inr (seen other old c' held')
      · rw [held] at held'
        exact .inl (Option.some.inj held').symm
    · refine Node.novelOf_append.2 ⟨novel, fun _ there => ?_, trivial⟩
      have visible := seen name there c held
      rw [unseen] at visible
      cases visible

theorem Operands.novel (h : Operands ctx st es es' last) (covers : Covers table last)
    (seen : Seen ctx table defined st) (novel : Node.NovelOf table defined st.frame.pending) :
    Seen ctx table defined last ∧ Node.NovelOf table defined last.frame.pending := by
  induction h with
  | nil => exact ⟨seen, novel⟩
  | identifier _ _ _ ih | literal _ _ _ ih => exact ih covers seen novel
  | placeholder read later ih =>
    have coveredNext := later.covers covers
    rcases read_cases read with ⟨-, -, same⟩ | ⟨-, same⟩ | ⟨_, _, -, -, -, -, made, same⟩
    · exact ih covers (seen.of_frame same.frame) (same.frame ▸ novel)
    · exact ih covers (seen.of_frame same.frame) (same.frame ▸ novel)
    · obtain ⟨seen, novel⟩ := aliasFor_novel seen novel made (coveredNext.of_alike same)
      exact ih covers (seen.of_frame same.frame) (same.frame ▸ novel)
  | binary _ _ _ second later firstIH secondIH laterIH =>
    have coveredNext := later.covers covers
    obtain ⟨seen, novel⟩ := firstIH (second.covers coveredNext) seen novel
    obtain ⟨seen, novel⟩ := secondIH coveredNext (seen.of_frame rfl) novel
    exact laterIH covers (seen.of_frame rfl) novel
  | filter _ check cache later innerIH laterIH =>
    have same := checkFilter_alike check
    have coveredNext := later.covers covers
    have checked := (cacheFilter_covers cache coveredNext).of_alike same
    obtain ⟨seen, novel⟩ := innerIH checked seen novel
    rw [← same.frame] at novel
    rcases cacheFilter_cases cache with ⟨-, rfl⟩ | ⟨_, _, -, -, -, -, made⟩
    · exact laterIH covers (seen.of_frame same.frame) novel
    · obtain ⟨seen, novel⟩ := aliasFor_novel (seen.of_frame same.frame) novel made coveredNext
      exact laterIH covers seen novel
  | call _ _ second later firstIH secondIH laterIH =>
    have coveredNext := later.covers covers
    obtain ⟨seen, novel⟩ := firstIH (second.covers coveredNext) seen novel
    obtain ⟨seen, novel⟩ := secondIH coveredNext seen novel
    exact laterIH covers seen novel
  | list _ _ later innerIH laterIH =>
    obtain ⟨seen, novel⟩ := innerIH (later.covers covers) seen novel
    exact laterIH covers seen novel

/-- What becomes of an expression defines nothing itself. -/
theorem Operands.novel_self {e e' : Node} (h : Operands ctx st [e] [e'] last) :
    e'.target? = none ∧ e'.Novel table defined := by
  cases h with
  | identifier | literal | placeholder | binary | filter | call | list => exact ⟨rfl, trivial⟩

/-- The expression of a statement: what it needs in front is novel, and in sight afterwards. -/
theorem Operands.novel_pending {e e' : Node} (h : Operands ctx st.beginStatement [e] [e'] next)
    (covers : Covers table next) (seen : Seen ctx table defined st)
    (empty : st.frame.pending = []) :
    Node.NovelOf table defined next.frame.pending ∧
      Seen ctx table (defined ++ Node.targets next.frame.pending) next.endStatement := by
  have start : Node.NovelOf table defined st.beginStatement.frame.pending := by
    change Node.NovelOf table defined st.frame.pending
    rw [empty]
    trivial
  obtain ⟨after, novel⟩ := h.novel covers (seen.of_frame rfl) start
  refine ⟨novel, fun name member c held => after name ?_ c held⟩
  simpa [State.endStatement, Node.targets] using member

/-- A branch of a source tree sees what the block around it sees. -/
theorem Seen.enterBranch {scope : Scope} (seen : Seen ctx table defined st.endStatement)
    (plain : scope.isPlain) :
    Seen (ctx.enterBranch st.frame.aliases) table defined (st.enterBranch scope) := by
  intro name member c held
  have visible := seen name member c held
  change ((scope.aliases :: st.frame.aliases :: ctx.enclosing).findSome? (·.get? c)).isSome
  rw [Scope.aliases_of_isPlain plain, List.findSome?_cons, OrderedMap.get?_empty]
  exact visible

end Expressions

/-- The walk of a block defines novel aliases only. -/
theorem Statements.novel {ctx : Context} {table : AliasTable} {defined : List String}
    {st last : State} {source out : List Node} (h : Statements ctx st source out last)
    (plain : Node.areStatements source)
    (free : ∀ target ∈ Node.assignmentsOf source, table target = none) (covers : Covers table last)
    (empty : st.frame.pending = []) (seen : Seen ctx table defined st) :
    Node.NovelOf table defined out := by
  induction h generalizing defined with
  | nil => trivial
  | @function ctx st inner last body walked rest rest' scope span name inside later _ ih =>
    rw [Node.areStatements, Bool.and_eq_true] at plain
    rw [empty]
    have begun : Seen ctx table defined (st.beginStatement.leaveFunction inner).endStatement := by
      intro name member c held
      apply seen name _ c held
      rwa [empty]
    have behind := ih plain.2 free covers rfl begun
    exact ⟨trivial, (List.append_nil defined).symm ▸ behind⟩
  | @branch ctx st tested inThen last condition condition' thenBody thenBody' rest rest' thenScope
      span test thenWalk later thenIH ih =>
    simp only [Node.areStatements, Node.isStatement, Bool.and_eq_true] at plain
    obtain ⟨⟨⟨-, plainScope⟩, plainThen⟩, plainRest⟩ := plain
    simp only [Node.assignmentsOf, Node.assignments, List.mem_append] at free
    have coveredThen : Covers table inThen := later.covers covers
    obtain ⟨novel, seen⟩ := test.novel_pending (thenWalk.covers coveredThen) seen empty
    refine novel.splice rfl ?_ ?_
    · exact thenIH plainThen (fun target member => free target (.inl (.inr member))) coveredThen
        rfl (seen.enterBranch plainScope)
    · exact ih plainRest (fun target member => free target (.inr member)) covers rfl
        (seen.of_aliases rfl rfl)
  | @branches ctx st tested inThen inElse last condition condition' thenBody thenBody' elseBody
      elseBody' rest rest' thenScope elseScope span test thenWalk elseWalk later thenIH elseIH ih =>
    simp only [Node.areStatements, Node.isStatement, Bool.and_eq_true] at plain
    obtain ⟨⟨⟨⟨⟨-, plainThenScope⟩, plainThen⟩, plainElseScope⟩, plainElse⟩, plainRest⟩ := plain
    simp only [Node.assignmentsOf, Node.assignments, List.mem_append] at free
    have coveredElse : Covers table inElse := later.covers covers
    have coveredThen : Covers table inThen := elseWalk.covers coveredElse
    obtain ⟨novel, seen⟩ := test.novel_pending (thenWalk.covers coveredThen) seen empty
    refine novel.splice rfl ⟨?_, ?_⟩ ?_
    · exact thenIH plainThen (fun target member => free target (.inl (.inl (.inr member))))
        coveredThen rfl (seen.enterBranch plainThenScope)
    · exact elseIH plainElse (fun target member => free target (.inl (.inr member))) coveredElse rfl
        ((seen.enterBranch plainElseScope).of_frame rfl)
    · exact ih plainRest (fun target member => free target (.inr member)) covers rfl
        (seen.of_aliases rfl rfl)
  | @assign ctx st next last value value' rest rest' span target inner later ih =>
    rw [Node.areStatements, Bool.and_eq_true] at plain
    simp only [Node.assignmentsOf, Node.assignments, List.cons_append, List.mem_cons,
      List.mem_append] at free
    obtain ⟨novel, seen⟩ := inner.novel_pending (later.covers covers) seen empty
    have unaliased : table target = none := free target (.inl rfl)
    refine Node.novelOf_append.2 ⟨novel, fun held => ?_, ?_⟩
    · rw [unaliased] at held
      cases held
    · refine ih plain.2 (fun name member => free name (.inr (.inr member))) covers rfl ?_
      intro name member c held
      refine seen name ?_ c held
      simp only [List.append_assoc, List.mem_append] at member ⊢
      rcases member with earlier | pending | now | none
      · exact .inl earlier
      · exact .inr (.inl pending)
      · rw [List.mem_singleton.1 now, unaliased] at held
        cases held
      · cases none
  | @write ctx st next last operand operand' rest rest' span inner later ih =>
    rw [Node.areStatements, Bool.and_eq_true] at plain
    simp only [Node.assignmentsOf, List.mem_append] at free
    obtain ⟨novel, seen⟩ := inner.novel_pending (later.covers covers) seen empty
    exact novel.splice rfl trivial
      (ih plain.2 (fun name member => free name (.inr member)) covers rfl seen)
  | @expression ctx st next last e e' rest rest' isExpression inner later ih =>
    rw [Node.areStatements, Bool.and_eq_true] at plain
    simp only [Node.assignmentsOf, List.mem_append] at free
    obtain ⟨novel, seen⟩ := inner.novel_pending (later.covers covers) seen empty
    obtain ⟨unset, trivially⟩ := inner.novel_self
    exact novel.splice unset trivially
      (ih plain.2 (fun name member => free name (.inr member)) covers rfl seen)

/-- A function and what the analysis makes of it, with every block grounded. -/
def AnalyzedGrounded (globals : OrderedSet String) (source analyzed : Block Node) : Prop :=
  ∃ table after, Optimizes table after source analyzed ∧
    Registers globals table source analyzed ∧
    ∀ block ∈ analyzed.blocks, ∃ outer, block.Grounded table outer

theorem enterFunction_grounded {ctx : Context} {st inner : State} {body walked : List Node}
    {scope : Scope} (plain : scope.isPlain) (source : Node.areStatements body)
    (h : Statements (ctx.enterFunction ⟨body, scope⟩) (st.enterFunction ⟨body, scope⟩) body walked
      inner) :
    ∀ block ∈ Block.blocks ⟨walked, inner.frame.commit scope⟩,
      ∃ outer, block.Grounded inner.holders.get? outer := by
  obtain ⟨-, free⟩ := enterFunction_table plain source h
  have expanded := (enterFunction_optimizes plain source h).expanded
  have tidy := (enterFunction_registers plain source h).tidy
  have novel : Node.NovelOf inner.holders.get? [] walked :=
    h.novel source free (fun _ _ held => held) rfl fun name member => by cases member
  intro block member
  rcases List.mem_cons.1 member with rfl | below
  · exact ⟨_, expanded.grounded_block novel (tidy _ List.mem_cons_self)⟩
  · exact expanded.grounded novel (fun inner among => tidy inner (List.mem_cons_of_mem _ among))
      block below

/-- Every function of an analysed tree has grounded blocks only. -/
theorem analyze_grounded {options : Options} {root : Node} {analysis : Analysis}
    (source : root.isSource) (h : root.analyze options = .ok analysis) :
    List.Forall₂ (AnalyzedGrounded root.globals) root.functions analysis.tree.functions := by
  refine analyze_forall_functions source h fun plain source given _ inside => ?_
  exact ⟨_, _, enterFunction_optimizes plain source inside,
    given ▸ enterFunction_registers plain source inside, enterFunction_grounded plain source inside⟩

end Analysis

end Stencil
