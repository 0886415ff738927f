import Stencil.Proofs.AliasNames
import Stencil.Proofs.Expansion

/-!
# The analysis introduces aliases soundly

The table of a function is what its holders are in the end. `Enriched` says how they got there:
no entry is ever lost or changed, and a new one has a name that is no variable of the function.
`Ready` says what the state of a walk knows of that table: the definitions that are pending can
run, and every visible alias is defined by them or by an earlier statement.

Main statement: `analyze_expanded`, that the analysis of a source tree gives its optimised form.
-/

namespace Stencil.Analysis

/-- What a new alias is: it belongs to a function, its name is no variable of it, and if it stands
for a placeholder, then for one that the function reads and never assigns. -/
structure Admissible (ctx : Context) (mentions : List String) (name : String) (c : Computation) :
    Prop where
  inFunction : ctx.inFunction = true
  name : name ∉ ctx.assignedAnywhere
  constant : ∀ n, c = .placeholder n → n ∈ mentions ∧ n ∉ ctx.assignedAnywhere

/-- The holders keep what they hold, and gain admissible aliases only. -/
structure Enriched (ctx : Context) (mentions : List String) (a b : OrderedMap String Computation) :
    Prop where
  keeps : ∀ name c, a.get? name = some c → b.get? name = some c
  origin : ∀ name c, b.get? name = some c →
    a.get? name = some c ∨ Admissible ctx mentions name c

section Holders

variable {ctx : Context} {mentions : List String}

theorem Enriched.refl (a : OrderedMap String Computation) : Enriched ctx mentions a a :=
  ⟨fun _ _ h => h, fun _ _ h => .inl h⟩

theorem Enriched.trans {a b c : OrderedMap String Computation} (first : Enriched ctx mentions a b)
    (second : Enriched ctx mentions b c) : Enriched ctx mentions a c := by
  constructor
  · intro name held h
    exact second.keeps name held (first.keeps name held h)
  · intro name held h
    rcases second.origin name held h with old | new
    · exact first.origin name held old
    · exact .inr new

/-- A branch belongs to the same function. -/
theorem Enriched.ofBranch {aliases : AliasMap} {a b : OrderedMap String Computation}
    (h : Enriched (ctx.enterBranch aliases) mentions a b) : Enriched ctx mentions a b := by
  refine ⟨h.keeps, fun name c held => ?_⟩
  rcases h.origin name c held with old | new
  · exact .inl old
  · exact .inr ⟨new.inFunction, new.name, new.constant⟩

/-- A new alias takes no name from another one. -/
theorem freshAlias_held {st : State} {c c' : Computation}
    (h : st.holders.get? (st.freshAlias ctx c) = some c') : c' = c := by
  have free := freshAlias_free st ctx c
  rw [State.isTaken, h, Bool.or_eq_false_iff] at free
  simpa using free.1

theorem freshAlias_not_assigned {st : State} {c : Computation} :
    st.freshAlias ctx c ∉ ctx.assignedAnywhere := by
  have free := freshAlias_free st ctx c
  rw [State.isTaken, Bool.or_eq_false_iff, State.isUserName] at free
  intro assigned
  simp [assigned] at free

/-- What is held stays held. -/
theorem aliasFor_keeps {st next : State} {c held : Computation} {value : Node}
    {name other : String} (made : st.aliasFor ctx c value = (name, next))
    (h : st.holders.get? other = some held) : next.holders.get? other = some held := by
  rcases aliasFor_cases made with ⟨rfl, -⟩ | ⟨rfl, rfl, -⟩
  · exact h
  · rw [OrderedMap.get?_insert]
    split
    · rename_i same
      rw [← same] at h
      rw [freshAlias_held h]
    · exact h

theorem aliasFor_enriched {st next : State} {c : Computation} {value : Node} {name : String}
    (made : st.aliasFor ctx c value = (name, next)) (inside : ctx.inFunction = true)
    (constant : ∀ n, c = .placeholder n → n ∈ mentions ∧ n ∉ ctx.assignedAnywhere) :
    Enriched ctx mentions st.holders next.holders := by
  refine ⟨fun other held h => aliasFor_keeps made h, ?_⟩
  rcases aliasFor_cases made with ⟨rfl, -⟩ | ⟨rfl, rfl, -⟩
  · exact fun other held h => .inl h
  · intro other held h
    rw [OrderedMap.get?_insert] at h
    split at h
    · rename_i same
      cases h
      exact .inr ⟨inside, same ▸ freshAlias_not_assigned, constant⟩
    · exact .inl h

theorem Operands.enriched {st last : State} {es es' : List Node} (h : Operands ctx st es es' last)
    (read : ∀ n ∈ Node.mentionsOf es, n ∈ mentions) :
    Enriched ctx mentions st.holders last.holders := by
  induction h with
  | nil => exact .refl _
  | identifier _ _ _ ih =>
    apply ih
    intro n member
    exact read n (List.mem_append_right _ member)
  | literal _ _ _ ih => exact ih read
  | @placeholder _ _ _ _ _ _ name _ walked _ ih =>
    have here : name ∈ mentions := read name (List.mem_append_left _ List.mem_cons_self)
    have rest := ih fun n member => read n (List.mem_append_right _ member)
    rcases read_cases walked with ⟨-, -, same⟩ | ⟨-, same⟩ | ⟨_, _, -, -, inside, free, made, same⟩
    · exact same.holders ▸ rest
    · exact same.holders ▸ rest
    · rw [same.holders] at rest
      refine (aliasFor_enriched made inside ?_).trans rest
      intro n equal
      cases equal
      exact ⟨here, free⟩
  | binary _ _ _ _ _ first second later =>
    simp only [Node.mentionsOf, Node.mentions, List.append_nil, List.mem_append] at *
    have one := first fun n member => read n (.inl (.inl member))
    have two := second fun n member => read n (.inl (.inr member))
    exact one.trans (two.trans (later fun n member => read n (.inr member)))
  | filter _ check cache _ inner later =>
    simp only [Node.mentionsOf, Node.mentions, List.append_nil, List.mem_append] at *
    have one := inner fun n member => read n (.inl member)
    have two := later fun n member => read n (.inr member)
    rw [← (checkFilter_alike check).holders] at one
    rcases cacheFilter_cases cache with ⟨-, rfl⟩ | ⟨_, _, -, -, inside, -, made⟩
    · exact one.trans two
    · refine one.trans ((aliasFor_enriched made inside ?_).trans two)
      intro n equal
      cases equal
  | call _ _ _ _ first second later =>
    simp only [Node.mentionsOf, Node.mentions, List.append_nil, List.mem_append] at *
    have one := first fun n member => read n (.inl (.inl member))
    have two := second fun n member => read n (.inl (.inr member))
    exact one.trans (two.trans (later fun n member => read n (.inr member)))
  | list _ _ _ inner later =>
    simp only [Node.mentionsOf, Node.mentions, List.mem_append] at *
    have one := inner fun n member => read n (.inl member)
    exact one.trans (later fun n member => read n (.inr member))

/-- One expression, as for several. -/
theorem Operands.enriched_one {st last : State} {e e' : Node} (h : Operands ctx st [e] [e'] last)
    (read : ∀ n ∈ e.mentions, n ∈ mentions) : Enriched ctx mentions st.holders last.holders := by
  apply h.enriched
  simpa [Node.mentionsOf] using read

end Holders

theorem Statements.enriched {ctx : Context} {mentions : List String} {st last : State}
    {source out : List Node} (h : Statements ctx st source out last)
    (read : ∀ n ∈ Node.mentionsOf source, n ∈ mentions) :
    Enriched ctx mentions st.holders last.holders := by
  induction h with
  | nil => exact .refl _
  | function _ _ _ _ _ ih => exact ih read
  | branch _ test _ _ thenSide ih =>
    simp only [Node.mentionsOf, Node.mentions, List.mem_append] at *
    have one := test.enriched_one fun n member => read n (.inl (.inl member))
    have two := thenSide fun n member => read n (.inl (.inr member))
    exact one.trans (two.ofBranch.trans (ih fun n member => read n (.inr member)))
  | branches _ test _ _ _ thenSide elseSide ih =>
    simp only [Node.mentionsOf, Node.mentions, List.mem_append] at *
    have one := test.enriched_one fun n member => read n (.inl (.inl (.inl member)))
    have two := thenSide fun n member => read n (.inl (.inl (.inr member)))
    have three := elseSide fun n member => read n (.inl (.inr member))
    have four := ih fun n member => read n (.inr member)
    exact one.trans (two.ofBranch.trans (three.ofBranch.trans four))
  | assign _ _ inner _ ih | write _ inner _ ih | expression _ inner _ ih =>
    simp only [Node.mentionsOf, Node.mentions, List.mem_append] at *
    have one := inner.enriched_one fun n member => read n (.inl member)
    exact one.trans (ih fun n member => read n (.inr member))

/-- The table has all that the holders of a state have. -/
def Covers (table : AliasTable) (st : State) : Prop :=
  ∀ name c, st.holders.get? name = some c → table name = some c

/-- What a state knows of the table, where the given variables are set in front of the current
statement. -/
structure Ready (ctx : Context) (table : AliasTable) (defined : List String) (st : State) :
    Prop where
  pending : Definitions table defined st.frame.pending
  visible : ∀ aliases ∈ st.frame.aliases :: ctx.enclosing, ∀ entry ∈ aliases.toList,
    table entry.2 = some entry.1 ∧ entry.2 ∈ defined ++ Node.targets st.frame.pending
  introduced : ∀ entry ∈ st.frame.introduced, table entry.2 = some entry.1

/-- What an expression leaves alone: the assigned names, and the definitions that were pending. -/
structure Follows (st next : State) : Prop where
  assigned : next.frame.assigned = st.frame.assigned
  assignedHere : next.frame.assignedHere = st.frame.assignedHere
  targets : Node.targets st.frame.pending ⊆ Node.targets next.frame.pending

section Expressions

variable {ctx : Context} {table : AliasTable} {defined : List String}

theorem Covers.of_alike {st next : State} (covers : Covers table next) (same : next.Alike st) :
    Covers table st := by
  intro name c held
  exact covers name c (same.holders ▸ held)

theorem Ready.of_frame {st next : State} (ready : Ready ctx table defined st)
    (same : next.frame = st.frame) : Ready ctx table defined next := by
  obtain ⟨pending, visible, introduced⟩ := ready
  rw [← same] at pending visible introduced
  exact ⟨pending, visible, introduced⟩

theorem Follows.refl (st : State) : Follows st st := ⟨rfl, rfl, fun _ h => h⟩

theorem Follows.trans {a b c : State} (first : Follows a b) (second : Follows b c) : Follows a c :=
  ⟨second.assigned.trans first.assigned, second.assignedHere.trans first.assignedHere,
    fun _ h => second.targets (first.targets h)⟩

theorem Follows.of_alike {st next : State} (same : next.Alike st) : Follows st next := by
  refine ⟨congrArg Frame.assigned same.frame, congrArg Frame.assignedHere same.frame, ?_⟩
  rw [same.frame]
  exact fun _ h => h

theorem aliasFor_follows {st next : State} {c : Computation} {value : Node} {name : String}
    (made : st.aliasFor ctx c value = (name, next)) : Follows st next := by
  rcases aliasFor_cases made with ⟨rfl, -⟩ | ⟨rfl, -⟩
  · exact .refl _
  · refine ⟨rfl, rfl, fun target member => ?_⟩
    change target ∈ Node.targets (st.frame.pending ++ [.assign .generated name value])
    rw [Node.targets_snoc]
    exact List.mem_append_left _ member

theorem Operands.follows {st last : State} {es es' : List Node} (h : Operands ctx st es es' last) :
    Follows st last := by
  induction h with
  | nil => exact .refl _
  | identifier _ _ _ ih | literal _ _ _ ih => exact ih
  | placeholder read _ ih =>
    rcases read_cases read with ⟨-, -, same⟩ | ⟨-, same⟩ | ⟨_, _, -, -, -, -, made, same⟩
    · exact (Follows.of_alike same).trans ih
    · exact (Follows.of_alike same).trans ih
    · exact (aliasFor_follows made).trans ((Follows.of_alike same).trans ih)
  | binary _ _ _ _ _ first second later =>
    refine ⟨later.assigned.trans (second.assigned.trans first.assigned),
      later.assignedHere.trans (second.assignedHere.trans first.assignedHere), ?_⟩
    intro target member
    exact later.targets (second.targets (first.targets member))
  | filter _ check cache _ inner later =>
    have checked := inner.trans (Follows.of_alike (checkFilter_alike check))
    rcases cacheFilter_cases cache with ⟨-, rfl⟩ | ⟨_, _, -, -, -, -, made⟩
    · exact checked.trans later
    · exact checked.trans ((aliasFor_follows made).trans later)
  | call _ _ _ _ first second later => exact first.trans (second.trans later)
  | list _ _ _ inner later => exact inner.trans later

/-- The alias of a computation is ready for use. -/
theorem aliasFor_ready {st next : State} {c : Computation} {value : Node} {name : String}
    (ready : Ready ctx table defined st) (made : st.aliasFor ctx c value = (name, next))
    (covers : Covers table next)
    (definition : Definition table (defined ++ Node.targets st.frame.pending) c value) :
    Ready ctx table defined next ∧ table name = some c ∧
      name ∈ defined ++ Node.targets next.frame.pending := by
  rcases aliasFor_cases made with ⟨rfl, found⟩ | ⟨rfl, -⟩
  · obtain ⟨aliases, member, entry⟩ := List.exists_of_findSome?_eq_some found
    exact ⟨ready, ready.visible aliases member (c, name) (OrderedMap.mem_of_get? entry)⟩
  · have held : table name = some c := by
      apply covers
      rw [OrderedMap.get?_insert, if_pos rfl]
    have targets : defined ++ Node.targets (st.frame.define c name value).pending =
        defined ++ Node.targets st.frame.pending ++ [name] := by
      change defined ++ Node.targets (st.frame.pending ++ [.assign .generated name value]) = _
      rw [Node.targets_snoc, List.append_assoc]
    have last : name ∈ defined ++ Node.targets (st.frame.define c name value).pending := by
      rw [targets]
      exact List.mem_append_right _ List.mem_cons_self
    refine ⟨⟨ready.pending.snoc .generated held definition, ?_, ?_⟩, held, last⟩
    · intro aliases member entry inside
      have old (h : table entry.2 = some entry.1 ∧
          entry.2 ∈ defined ++ Node.targets st.frame.pending) :
          table entry.2 = some entry.1 ∧
            entry.2 ∈ defined ++ Node.targets (st.frame.define c name value).pending := by
        rw [targets]
        exact ⟨h.1, List.mem_append_left _ h.2⟩
      rcases List.mem_cons.1 member with rfl | around
      · rcases OrderedMap.mem_insert inside with rfl | inside
        · exact ⟨held, last⟩
        · exact old (ready.visible _ List.mem_cons_self entry inside)
      · exact old (ready.visible _ (List.mem_cons_of_mem _ around) entry inside)
    · intro entry member
      rcases List.mem_append.1 member with earlier | new
      · exact ready.introduced entry earlier
      · rw [List.mem_singleton.1 new]
        exact held

/-- The operand of a filter that is kept stands for an alias that is ready for use. -/
theorem aliasedOperand_ready {st : State} {operand : Node} {source : String}
    {assigned : Assigned String} (ready : Ready ctx table defined st)
    (found : st.aliasedOperand? ctx operand = some source)
    (resolved : operand.Resolved table assigned (defined ++ Node.targets st.frame.pending)) :
    operand.standsFor source ∧ (table source).isSome ∧
      source ∈ defined ++ Node.targets st.frame.pending := by
  unfold State.aliasedOperand? at found
  split at found
  · cases found
    obtain ⟨there, held⟩ := resolved _ rfl
    exact ⟨⟨_, rfl⟩, by rw [held]; rfl, there⟩
  · split at found
    · rename_i visible
      cases found
      obtain ⟨aliases, member, inside⟩ := List.any_eq_true.1 visible
      obtain ⟨entry, listed, rfl⟩ := List.mem_map.1 (of_decide_eq_true inside)
      obtain ⟨held, there⟩ := ready.visible aliases member entry listed
      exact ⟨rfl, by rw [held]; rfl, there⟩
    · cases found
  · cases found

theorem Follows.subset {st next : State} (h : Follows st next) (defined : List String) :
    defined ++ Node.targets st.frame.pending ⊆ defined ++ Node.targets next.frame.pending := by
  intro name member
  rcases List.mem_append.1 member with earlier | pending
  · exact List.mem_append_left _ earlier
  · exact List.mem_append_right _ (h.targets pending)

theorem Operands.covers {st last : State} {es es' : List Node} (h : Operands ctx st es es' last)
    (covers : Covers table last) : Covers table st := by
  intro name c held
  exact covers name c ((h.enriched fun _ member => member).keeps name c held)

theorem cacheFilter_covers {st next : State} {span : Span} {operand : Node}
    {name cached : Option String} (cache : st.cacheFilter ctx span operand name = (cached, next))
    (covers : Covers table next) : Covers table st := by
  rcases cacheFilter_cases cache with ⟨-, rfl⟩ | ⟨_, _, -, -, inside, -, made⟩
  · exact covers
  · have grown : Enriched ctx [] st.holders next.holders :=
      aliasFor_enriched made inside (fun _ equal => by cases equal)
    intro other c held
    exact covers other c (grown.keeps other c held)

/-- A filter that is kept in an alias has an operand that stands for the source of the alias. -/
theorem cacheFilter_ready {st next : State} {span : Span} {operand : Node}
    {name cached : Option String} {assigned : Assigned String} (ready : Ready ctx table defined st)
    (cache : st.cacheFilter ctx span operand name = (cached, next)) (covers : Covers table next)
    (resolved : operand.Resolved table assigned (defined ++ Node.targets st.frame.pending)) :
    Ready ctx table defined next ∧ Follows st next ∧ ∀ kept, cached = some kept →
      kept ∈ defined ++ Node.targets next.frame.pending ∧
      ∃ source, table kept = some (.filter name (.identifier source)) ∧
        operand.standsFor source := by
  rcases cacheFilter_cases cache with ⟨rfl, rfl⟩ | ⟨source, kept, rfl, -, -, found, made⟩
  · exact ⟨ready, .refl _, fun _ equal => by cases equal⟩
  · obtain ⟨stands, held, there⟩ := aliasedOperand_ready ready found resolved
    obtain ⟨after, heldNew, readyNew⟩ :=
      aliasFor_ready ready made covers (.filter span .generated name there held)
    refine ⟨after, aliasFor_follows made, ?_⟩
    rintro _ ⟨⟩
    exact ⟨readyNew, source, heldNew, stands⟩

/-- The analysis notes on expressions what is sound there, and nothing else changes in them. -/
theorem Operands.annotated {st last : State} {es es' : List Node} {assigned : Assigned String}
    (h : Operands ctx st es es' last) (covers : Covers table last)
    (ready : Ready ctx table defined st) (same : st.frame.assigned = assigned) :
    Ready ctx table defined last ∧ Node.bareEach es' = es ∧
      Node.ResolvedEach table assigned (defined ++ Node.targets last.frame.pending) es' := by
  induction h with
  | nil => exact ⟨ready, rfl, trivial⟩
  | identifier span name _ ih =>
    obtain ⟨after, bare, resolved⟩ := ih covers ready same
    exact ⟨after, by rw [Node.bareEach, bare]; rfl, trivial, resolved⟩
  | literal span value _ ih =>
    obtain ⟨after, bare, resolved⟩ := ih covers ready same
    exact ⟨after, by rw [Node.bareEach, bare]; rfl, trivial, resolved⟩
  | @placeholder st next last rest rest' span name resolution read later ih =>
    -- Every way of reading leaves a state that is ready, and a note that is sound there.
    have noted : Ready ctx table defined next ∧ next.frame.assigned = assigned ∧
        resolution.access.Sound table assigned (defined ++ Node.targets next.frame.pending)
          name := by
      rcases read_cases read with ⟨access, there, alike⟩ | ⟨access, alike⟩ |
        ⟨alternative, middle, access, -, -, -, made, alike⟩
      · rw [access]
        exact ⟨ready.of_frame alike.frame, by rw [alike.frame, same], rfl, same ▸ there⟩
      · rw [access]
        exact ⟨ready.of_frame alike.frame, by rw [alike.frame, same], trivial⟩
      · have covered : Covers table middle := (later.covers covers).of_alike alike
        obtain ⟨after, held, there⟩ := aliasFor_ready ready made covered (.lookup span name)
        rw [access]
        refine ⟨after.of_frame alike.frame, ?_, ?_, held⟩
        · rw [alike.frame, (aliasFor_follows made).assigned, same]
        · rw [alike.frame]
          exact there
    obtain ⟨after, bare, resolved⟩ := ih covers noted.1 noted.2.1
    refine ⟨after, by rw [Node.bareEach, bare]; rfl, ?_, resolved⟩
    rintro r ⟨⟩
    exact noted.2.2.mono (later.follows.subset defined)
  | @binary st middle next last left left' right right' rest rest' span op firstWalk secondWalk
      laterWalk first second later =>
    have coveredNext : Covers table next := laterWalk.covers covers
    have coveredMiddle : Covers table middle := secondWalk.covers coveredNext
    obtain ⟨readyMiddle, bareLeft, resolvedLeft⟩ := first coveredMiddle ready same
    have assignedMiddle := firstWalk.follows.assigned.trans same
    obtain ⟨readyNext, bareRight, resolvedRight⟩ :=
      second coveredNext (readyMiddle.of_frame rfl) assignedMiddle
    have assignedNext := secondWalk.follows.assigned.trans assignedMiddle
    obtain ⟨after, bare, resolved⟩ := later covers (readyNext.of_frame rfl) assignedNext
    have onwards := laterWalk.follows.subset defined
    have fromMiddle := secondWalk.follows.subset defined
    refine ⟨after, ?_, ⟨?_, ?_⟩, resolved⟩
    · cases bareLeft
      cases bareRight
      rw [Node.bareEach, bare]
      rfl
    · exact Node.Resolved.mono (fun _ member => onwards (fromMiddle member)) left' resolvedLeft.1
    · exact Node.Resolved.mono onwards right' resolvedRight.1
  | @filter st middle checked next last operand operand' rest rest' span name cached innerWalk check
      cache laterWalk inner later =>
    have alike := checkFilter_alike check
    have coveredNext : Covers table next := laterWalk.covers covers
    have coveredMiddle : Covers table middle :=
      (cacheFilter_covers cache coveredNext).of_alike alike
    obtain ⟨readyMiddle, bareOperand, resolvedOperand⟩ := inner coveredMiddle ready same
    have resolvedHere : operand'.Resolved table assigned
        (defined ++ Node.targets checked.frame.pending) := by
      rw [alike.frame]
      exact resolvedOperand.1
    obtain ⟨readyNext, follows, kept⟩ :=
      cacheFilter_ready (readyMiddle.of_frame alike.frame) cache coveredNext resolvedHere
    have assignedNext : next.frame.assigned = assigned := by
      rw [follows.assigned, alike.frame, innerWalk.follows.assigned, same]
    obtain ⟨after, bare, resolved⟩ := later covers readyNext assignedNext
    have onwards := (follows.trans laterWalk.follows).subset defined
    refine ⟨after, ?_, ⟨?_, ?_⟩, resolved⟩
    · cases bareOperand
      rw [Node.bareEach, bare]
      rfl
    · exact Node.Resolved.mono onwards operand' resolvedHere
    · intro alternative equal
      obtain ⟨there, source, held, stands⟩ := kept alternative equal
      exact ⟨laterWalk.follows.subset defined there, source, held, stands⟩
  | @call st middle next last callee callee' arguments arguments' rest rest' span firstWalk
      secondWalk laterWalk first second later =>
    have coveredNext : Covers table next := laterWalk.covers covers
    have coveredMiddle : Covers table middle := secondWalk.covers coveredNext
    obtain ⟨readyMiddle, bareCallee, resolvedCallee⟩ := first coveredMiddle ready same
    have assignedMiddle := firstWalk.follows.assigned.trans same
    obtain ⟨readyNext, bareArguments, resolvedArguments⟩ :=
      second coveredNext readyMiddle assignedMiddle
    have assignedNext := secondWalk.follows.assigned.trans assignedMiddle
    obtain ⟨after, bare, resolved⟩ := later covers readyNext assignedNext
    have onwards := laterWalk.follows.subset defined
    have fromMiddle := secondWalk.follows.subset defined
    refine ⟨after, ?_, ⟨?_, ?_⟩, resolved⟩
    · cases bareCallee
      rw [Node.bareEach, bare, Node.bare, bareArguments]
    · exact Node.Resolved.mono (fun _ member => onwards (fromMiddle member)) callee'
        resolvedCallee.1
    · exact Node.ResolvedEach.mono onwards arguments' resolvedArguments
  | @list st next last items items' rest rest' span innerWalk laterWalk inner later =>
    have coveredNext : Covers table next := laterWalk.covers covers
    obtain ⟨readyNext, bareItems, resolvedItems⟩ := inner coveredNext ready same
    obtain ⟨after, bare, resolved⟩ :=
      later covers readyNext (innerWalk.follows.assigned.trans same)
    refine ⟨after, ?_, ?_, resolved⟩
    · rw [Node.bareEach, bare, Node.bare, bareItems]
    · exact Node.ResolvedEach.mono (laterWalk.follows.subset defined) items' resolvedItems

/-- A new definition costs what its computation does. -/
theorem aliasFor_affordable {st next : State} {c : Computation} {value : Node} {name : String}
    (made : st.aliasFor ctx c value = (name, next)) (covers : Covers table next)
    (p : Step → Bool) :
    Node.savingsOf p table st.frame.pending ≤
      Node.savingsOf p table next.frame.pending + c.price p := by
  rcases aliasFor_cases made with ⟨rfl, -⟩ | ⟨rfl, -⟩
  · omega
  · have held : table name = some c := by
      apply covers
      rw [OrderedMap.get?_insert, if_pos rfl]
    change _ ≤ Node.savingsOf p table (st.frame.pending ++ [.assign .generated name value]) + _
    rw [savingsOf_append]
    simp only [Node.savingsOf, Node.savings, held]
    omega

/-- The notes on expressions save what the definitions cost that they add. -/
theorem Operands.affordable {st last : State} {es es' : List Node}
    (h : Operands ctx st es es' last) (covers : Covers table last) (p : Step → Bool) :
    Node.savingsOf p table st.frame.pending ≤
      Node.savingsOf p table last.frame.pending + Node.creditEach p es' := by
  induction h with
  | nil => simp [Node.creditEach]
  | identifier _ _ _ ih | literal _ _ _ ih =>
    have rest := ih covers
    simpa [Node.creditEach, Node.credit] using rest
  | @placeholder st next last rest rest' span name resolution read later ih =>
    have rest := ih covers
    rw [Node.creditEach]
    rcases read_cases read with ⟨-, -, alike⟩ | ⟨-, alike⟩ |
      ⟨alternative, middle, access, -, -, -, made, alike⟩
    · rw [alike.frame] at rest
      omega
    · rw [alike.frame] at rest
      omega
    · have covered : Covers table middle := (later.covers covers).of_alike alike
      have paid := aliasFor_affordable made covered p
      obtain ⟨eligible, access'⟩ := resolution
      cases access
      rw [alike.frame] at rest
      simp only [Node.credit, Computation.price] at *
      omega
  | @binary st middle next last left left' right right' rest rest' span op firstWalk secondWalk
      laterWalk first second later =>
    have coveredNext : Covers table next := laterWalk.covers covers
    have coveredMiddle : Covers table middle := secondWalk.covers coveredNext
    have one := first coveredMiddle
    have two := second coveredNext
    have three := later covers
    simp only [Node.creditEach, Node.credit, State.evaluating] at *
    split
    · rename_i either
      have skipped :
          (middle.evaluating (st.evaluation.rightOperand op)).evaluation = .conditional := by
        simp [State.evaluating, Evaluation.rightOperand, Operator.shortCircuits_iff.2 either]
      have still := (secondWalk.idle (.inr skipped)).1
      rw [still] at three
      simp only at three
      omega
    · omega
  | @filter st middle checked next last operand operand' rest rest' span name cached innerWalk check
      cache laterWalk inner later =>
    have alike := checkFilter_alike check
    have coveredNext : Covers table next := laterWalk.covers covers
    have coveredMiddle : Covers table middle :=
      (cacheFilter_covers cache coveredNext).of_alike alike
    have one := inner coveredMiddle
    have two := later covers
    rw [← alike.frame] at one
    simp only [Node.creditEach] at *
    rcases cacheFilter_cases cache with ⟨rfl, rfl⟩ | ⟨source, kept, rfl, -, -, -, made⟩
    · simp only [Node.credit]
      omega
    · have paid := aliasFor_affordable made coveredNext p
      simp only [Node.credit, Computation.price] at *
      omega
  | @call st middle next last callee callee' arguments arguments' rest rest' span firstWalk
      secondWalk laterWalk first second later =>
    have coveredNext : Covers table next := laterWalk.covers covers
    have one := first (secondWalk.covers coveredNext)
    have two := second coveredNext
    have three := later covers
    simp only [Node.creditEach, Node.credit] at *
    omega
  | @list st next last items items' rest rest' span innerWalk laterWalk inner later =>
    have one := inner (laterWalk.covers covers)
    have two := later covers
    simp only [Node.creditEach, Node.credit] at *
    omega

/-- The expression of a statement together with the definitions that it needs in front. -/
structure Spliced (ctx : Context) (table : AliasTable) (assigned : Assigned String)
    (defined : List String) (e e' : Node) (next : State) : Prop where
  unchanged : next.frame.assigned = assigned
  definitions : Definitions table defined next.frame.pending
  noted : Annotated table assigned (defined ++ Node.targets next.frame.pending) e e'
  ready : Ready ctx table (defined ++ Node.targets next.frame.pending) next.endStatement
  affordable : ∀ p, 0 ≤ Node.savingsOf p table next.frame.pending + e'.credit p

theorem Operands.spliced {st next : State} {e e' : Node} {assigned : Assigned String}
    (h : Operands ctx st.beginStatement [e] [e'] next) (covers : Covers table next)
    (ready : Ready ctx table defined st) (empty : st.frame.pending = [])
    (same : st.frame.assigned = assigned) : Spliced ctx table assigned defined e e' next := by
  have begun : Ready ctx table defined st.beginStatement := ready.of_frame rfl
  obtain ⟨after, bare, resolved⟩ := h.annotated covers begun same
  refine ⟨h.follows.assigned.trans same, after.pending, ⟨?_, resolved.1⟩, ⟨.nil _, ?_, ?_⟩, ?_⟩
  · cases bare
    rfl
  · intro aliases member entry inside
    obtain ⟨held, there⟩ := after.visible aliases member entry inside
    exact ⟨held, List.mem_append_left _ there⟩
  · exact after.introduced
  · intro p
    have paid := h.affordable covers p
    have start : st.beginStatement.frame.pending = [] := empty
    simpa [start, Node.savingsOf, Node.creditEach] using paid

/-- What the expression of a statement saves pays for the definitions in front of it. -/
theorem Spliced.affordable_cons {e e' n : Node} {assigned : Assigned String} {next : State}
    {rest : List Node} (h : Spliced ctx table assigned defined e e' next)
    (keeps : ∀ p, e'.credit p ≤ n.savings p table)
    (later : ∀ p, 0 ≤ Node.savingsOf p table rest) (p : Step → Bool) :
    0 ≤ Node.savingsOf p table (next.frame.pending ++ n :: rest) := by
  have paid := h.affordable p
  have here := keeps p
  have behind := later p
  rw [savingsOf_append, Node.savingsOf]
  omega

end Expressions

theorem register_lists {table : AliasTable} {scope : Scope} {c : Computation} {name : String}
    (lists : scope.Lists table) (held : table name = some c) :
    (scope.register c name).Lists table := by
  intro entry member
  rcases OrderedMap.mem_insertIfNew member with rfl | old
  · exact held
  · exact lists entry old

/-- The scope of a walked block lists aliases of the table. -/
theorem commit_lists {table : AliasTable} {frame : Frame} {scope : Scope} (plain : scope.isPlain)
    (introduced : ∀ entry ∈ frame.introduced, table entry.2 = some entry.1) :
    (frame.commit scope).Lists table := by
  have fold (entries : List (Computation × String)) (start : Scope) (lists : start.Lists table)
      (held : ∀ entry ∈ entries, table entry.2 = some entry.1) :
      (entries.foldl (fun scope entry => scope.register entry.1 entry.2) start).Lists table := by
    induction entries generalizing start with
    | nil => exact lists
    | cons first rest ih =>
      apply ih
      · exact register_lists lists (held first List.mem_cons_self)
      · intro entry member
        exact held entry (List.mem_cons_of_mem _ member)
  apply fold _ _ _ introduced
  intro entry member
  change entry ∈ scope.aliases.toList at member
  rw [Scope.aliases_of_isPlain plain] at member
  cases member

theorem Ready.enterBranch {ctx : Context} {table : AliasTable} {defined : List String} {st : State}
    {scope : Scope} (ready : Ready ctx table defined st.endStatement) (plain : scope.isPlain) :
    Ready (ctx.enterBranch st.frame.aliases) table defined (st.enterBranch scope) := by
  refine ⟨.nil _, ?_, fun entry member => by cases member⟩
  intro aliases member entry inside
  rcases List.mem_cons.1 member with rfl | around
  · change entry ∈ scope.aliases.toList at inside
    rw [Scope.aliases_of_isPlain plain] at inside
    cases inside
  · exact ready.visible aliases around entry inside

theorem Ready.enterFunction {ctx : Context} {table : AliasTable} {st : State} {body : List Node}
    {scope : Scope} (plain : scope.isPlain) :
    Ready (ctx.enterFunction ⟨body, scope⟩) table [] (st.enterFunction ⟨body, scope⟩) := by
  refine ⟨.nil _, ?_, fun entry member => by cases member⟩
  intro aliases member entry listed
  rw [List.mem_singleton.1 member] at listed
  change entry ∈ scope.aliases.toList at listed
  rw [Scope.aliases_of_isPlain plain] at listed
  cases listed

theorem Statements.covers {ctx : Context} {table : AliasTable} {st last : State}
    {source out : List Node} (h : Statements ctx st source out last) (covers : Covers table last) :
    Covers table st := by
  intro name c held
  exact covers name c ((h.enriched fun _ member => member).keeps name c held)

/-- A function of a source tree begins without aliases. -/
theorem enterFunction_holders (st : State) {body : List Node} {scope : Scope}
    (plain : scope.isPlain) (source : Node.areStatements body) :
    (st.enterFunction ⟨body, scope⟩).holders = ∅ := by
  rw [State.enterFunction, Block.declaredAliases_of_source plain source]
  rfl

/-- What the walk of a function makes of it. -/
theorem enterFunction_table {ctx : Context} {st inner : State} {body walked : List Node}
    {scope : Scope} (plain : scope.isPlain) (source : Node.areStatements body)
    (h : Statements (ctx.enterFunction ⟨body, scope⟩) (st.enterFunction ⟨body, scope⟩) body walked
      inner) :
    AliasTable.Constant inner.holders.get? body ∧
      ∀ target ∈ Node.assignmentsOf body, inner.holders.get? target = none := by
  have grown := h.enriched fun _ member => member
  have start := enterFunction_holders st plain source
  have admissible (name : String) (c : Computation) (held : inner.holders.get? name = some c) :
      Admissible (ctx.enterFunction ⟨body, scope⟩) (Node.mentionsOf body) name c := by
    rcases grown.origin name c held with old | new
    · rw [start] at old
      cases old
    · exact new
  constructor
  · intro alternative name held
    exact (admissible alternative _ held).constant name rfl
  · intro target assigned
    cases held : inner.holders.get? target with
    | none => rfl
    | some c => exact absurd assigned (admissible target c held).name

/-- The analysis of a block gives an optimised form of it. -/
theorem Statements.expanded {ctx : Context} {table : AliasTable} {assigned : Assigned String}
    {defined : List String} {st last : State} {source out : List Node}
    (h : Statements ctx st source out last) (plain : Node.areStatements source)
    (free : ∀ target ∈ Node.assignmentsOf source, table target = none) (covers : Covers table last)
    (ready : Ready ctx table defined st) (empty : st.frame.pending = [])
    (same : st.frame.assigned = assigned) :
    Expanded table assigned defined source out last.frame.assigned ∧
      (∀ entry ∈ last.frame.introduced, table entry.2 = some entry.1) ∧
      ∀ p, 0 ≤ Node.savingsOf p table out := by
  induction h generalizing table assigned defined with
  | nil =>
    subst same
    exact ⟨.nil _ _ _, ready.introduced, fun p => Int.le_refl 0⟩
  | @function ctx st inner last body walked rest rest' scope span name inside later insideIH
      laterIH =>
    rw [Node.areStatements, Bool.and_eq_true, Node.isStatement, Bool.and_eq_true] at plain
    obtain ⟨⟨plainScope, plainBody⟩, plainRest⟩ := plain
    have begun : Ready ctx table defined (st.beginStatement.leaveFunction inner).endStatement :=
      ⟨.nil _, fun aliases member entry listed => by
        have := ready.visible aliases member entry listed
        rwa [empty] at this, ready.introduced⟩
    obtain ⟨expanded, introduced, affordable⟩ := laterIH plainRest free covers begun rfl same
    obtain ⟨constant, freeInside⟩ := enterFunction_table plainScope plainBody inside
    obtain ⟨within, listed, affordableInside⟩ :=
      insideIH plainBody freeInside (fun _ _ held => held) (.enterFunction plainScope) rfl rfl
    rw [empty]
    refine ⟨.function span name constant (commit_lists plainScope listed) affordableInside within
      expanded, introduced, fun p => ?_⟩
    have rest := affordable p
    simp only [List.nil_append, Node.savingsOf, Node.savings]
    omega
  | @branch ctx st tested inThen last condition condition' thenBody thenBody' rest rest' thenScope
      span test thenWalk later thenIH laterIH =>
    simp only [Node.areStatements, Node.isStatement, Bool.and_eq_true] at plain
    obtain ⟨⟨⟨-, plainScope⟩, plainThen⟩, plainRest⟩ := plain
    simp only [Node.assignmentsOf, Node.assignments, List.mem_append] at free
    have coveredThen : Covers table inThen := later.covers covers
    have spliced := test.spliced (thenWalk.covers coveredThen) ready empty same
    obtain ⟨thenSide, thenIntroduced, thenAffordable⟩ :=
      thenIH plainThen (fun target member => free target (.inl (.inr member))) coveredThen
        (spliced.ready.enterBranch plainScope) rfl spliced.unchanged
    have joined : tested.frame.assigned.join [inThen.frame.assigned, tested.frame.assigned] =
        assigned.join [inThen.frame.assigned, assigned] := by
      rw [spliced.unchanged]
    obtain ⟨expanded, introduced, affordable⟩ :=
      laterIH plainRest (fun target member => free target (.inr member)) covers
        ⟨spliced.ready.pending, spliced.ready.visible, spliced.ready.introduced⟩ rfl joined
    refine ⟨spliced.definitions.expanded (.branch span spliced.noted
      (commit_lists plainScope thenIntroduced) thenSide expanded), introduced,
      spliced.affordable_cons (fun p => ?_) affordable⟩
    have inside := thenAffordable p
    rw [Node.savings]
    omega
  | @branches ctx st tested inThen inElse last condition condition' thenBody thenBody' elseBody
      elseBody' rest rest' thenScope elseScope span test thenWalk elseWalk later thenIH elseIH
      laterIH =>
    simp only [Node.areStatements, Node.isStatement, Bool.and_eq_true] at plain
    obtain ⟨⟨⟨⟨⟨-, plainThenScope⟩, plainThen⟩, plainElseScope⟩, plainElse⟩, plainRest⟩ := plain
    simp only [Node.assignmentsOf, Node.assignments, List.mem_append] at free
    have coveredElse : Covers table inElse := later.covers covers
    have coveredThen : Covers table inThen := elseWalk.covers coveredElse
    have spliced := test.spliced (thenWalk.covers coveredThen) ready empty same
    obtain ⟨thenSide, thenIntroduced, thenAffordable⟩ :=
      thenIH plainThen (fun target member => free target (.inl (.inl (.inr member)))) coveredThen
        (spliced.ready.enterBranch plainThenScope) rfl spliced.unchanged
    obtain ⟨elseSide, elseIntroduced, elseAffordable⟩ :=
      elseIH plainElse (fun target member => free target (.inl (.inr member))) coveredElse
        ((spliced.ready.enterBranch plainElseScope).of_frame rfl) rfl spliced.unchanged
    have joined : tested.frame.assigned.join [inThen.frame.assigned, inElse.frame.assigned] =
        assigned.join [inThen.frame.assigned, inElse.frame.assigned] := by
      rw [spliced.unchanged]
    obtain ⟨expanded, introduced, affordable⟩ :=
      laterIH plainRest (fun target member => free target (.inr member)) covers
        ⟨spliced.ready.pending, spliced.ready.visible, spliced.ready.introduced⟩ rfl joined
    refine ⟨spliced.definitions.expanded (.branches span spliced.noted
      (commit_lists plainThenScope thenIntroduced) (commit_lists plainElseScope elseIntroduced)
      thenSide elseSide expanded), introduced, spliced.affordable_cons (fun p => ?_) affordable⟩
    have insideThen := thenAffordable p
    have insideElse := elseAffordable p
    rw [Node.savings]
    omega
  | @assign ctx st next last value value' rest rest' span target inner later ih =>
    rw [Node.areStatements, Bool.and_eq_true] at plain
    simp only [Node.assignmentsOf, Node.assignments, List.cons_append, List.mem_cons,
      List.mem_append] at free
    have spliced := inner.spliced (later.covers covers) ready empty same
    have unaliased : table target = none := free target (.inl rfl)
    have inserted : next.frame.assigned.insert target = assigned.insert target := by
      rw [spliced.unchanged]
    have readyBehind : Ready ctx table (defined ++ Node.targets next.frame.pending ++ [target])
        (next.assign ctx target).endStatement := by
      refine ⟨.nil _, ?_, spliced.ready.introduced⟩
      intro aliases member entry listed
      obtain ⟨held, there⟩ := spliced.ready.visible aliases member entry listed
      refine ⟨held, ?_⟩
      rw [List.append_assoc]
      exact List.mem_append_left _ (by simpa [Node.targets, State.endStatement] using there)
    obtain ⟨expanded, introduced, affordable⟩ :=
      ih plain.2 (fun name member => free name (.inr (.inr member))) covers readyBehind rfl inserted
    refine ⟨spliced.definitions.expanded (.assign span unaliased spliced.noted expanded),
      introduced, spliced.affordable_cons (fun p => ?_) affordable⟩
    simp only [Node.savings, unaliased]
    exact Int.le_refl _
  | @write ctx st next last operand operand' rest rest' span inner later ih =>
    rw [Node.areStatements, Bool.and_eq_true] at plain
    simp only [Node.assignmentsOf, Node.assignments, List.mem_append] at free
    have spliced := inner.spliced (later.covers covers) ready empty same
    obtain ⟨expanded, introduced, affordable⟩ :=
      ih plain.2 (fun name member => free name (.inr member)) covers spliced.ready rfl
        spliced.unchanged
    exact ⟨spliced.definitions.expanded (.write span spliced.noted expanded), introduced,
      spliced.affordable_cons (fun p => Int.le_refl _) affordable⟩
  | @expression ctx st next last e e' rest rest' isExpression inner later ih =>
    rw [Node.areStatements, Bool.and_eq_true] at plain
    simp only [Node.assignmentsOf, List.mem_append] at free
    have spliced := inner.spliced (later.covers covers) ready empty same
    obtain ⟨expanded, introduced, affordable⟩ :=
      ih plain.2 (fun name member => free name (.inr member)) covers spliced.ready rfl
        spliced.unchanged
    refine ⟨spliced.definitions.expanded (.expression spliced.noted expanded), introduced,
      spliced.affordable_cons (fun p => ?_) affordable⟩
    exact Int.le_of_eq (spliced.noted.resolved.savings_eq p table).symm

/-- The analysis of a function gives an optimised form of it. -/
theorem enterFunction_optimizes {ctx : Context} {st inner : State} {body walked : List Node}
    {scope : Scope} (plain : scope.isPlain) (source : Node.areStatements body)
    (h : Statements (ctx.enterFunction ⟨body, scope⟩) (st.enterFunction ⟨body, scope⟩) body walked
      inner) :
    Optimizes inner.holders.get? inner.frame.assigned ⟨body, scope⟩
      ⟨walked, inner.frame.commit scope⟩ := by
  obtain ⟨constant, free⟩ := enterFunction_table plain source h
  obtain ⟨within, listed, affordable⟩ :=
    h.expanded source free (fun _ _ held => held) (.enterFunction plain) rfl rfl
  exact ⟨constant, commit_lists plain listed, affordable, within⟩

/-- Outside functions no alias is introduced. -/
theorem Statements.covers_outside {options : Options} {st last : State} {source out : List Node}
    (h : Statements (.top options) st source out last) (holders : st.holders = ∅) :
    Covers (fun _ => none) last := by
  intro name c held
  rcases (h.enriched fun _ member => member).origin name c held with old | new
  · rw [holders] at old
    cases old
  · cases new.inFunction

/-- The analysis of a source tree gives an optimised form of it, without aliases outside its
functions. -/
theorem analyze_expanded {options : Options} {root : Node} {analysis : Analysis}
    (source : root.isSource) (h : root.analyze options = .ok analysis) :
    ∃ out after, Expanded (fun _ => none) ∅ [] root.top out after ∧
      root.Retopped out analysis.tree := by
  obtain ⟨first, out, last, statements, frame, holders, -, tree⟩ := analyze_statements source h
  have ready : Ready (.top options) (fun _ => none) [] first := by
    constructor
    · rw [frame]
      exact .nil _
    · intro aliases member entry listed
      rw [frame] at member
      rw [List.mem_singleton.1 member] at listed
      cases listed
    · intro entry member
      rw [frame] at member
      cases member
  have empty : first.frame.pending = [] := by
    rw [frame]
    rfl
  have unassigned : first.frame.assigned = ∅ := by
    rw [frame]
    rfl
  obtain ⟨expanded, -, -⟩ :=
    statements.expanded source (fun _ _ => rfl) (statements.covers_outside holders) ready empty
      unassigned
  exact ⟨out, _, expanded, tree⟩

end Stencil.Analysis
