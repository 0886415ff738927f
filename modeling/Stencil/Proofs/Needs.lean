import Stencil.Proofs.Capture

/-!
# What an expression needs

An expression uses a computation where a note on it takes the value from an alias. The walk of an
expression asks for a definition of every computation that it comes to use and that is not in sight
yet, in the order of first use.

`Widens` says that a walk only adds aliases, and `Draws` what the walk of an expression adds to a
block. Both compose along an expression.

Main statement: `Operands.draws`.
-/

namespace Stencil

/-- The computations of a list that are not known before, each where it occurs first. -/
def firstNeeds (known : List Computation) : List Computation → List Computation
  | [] => []
  | c :: rest =>
    if c ∈ known then firstNeeds known rest else c :: firstNeeds (known ++ [c]) rest

theorem firstNeeds_congr {known known' : List Computation} (same : ∀ c, c ∈ known ↔ c ∈ known')
    (uses : List Computation) : firstNeeds known uses = firstNeeds known' uses := by
  induction uses generalizing known known' with
  | nil => rfl
  | cons c rest ih =>
    have more : ∀ d, d ∈ known ++ [c] ↔ d ∈ known' ++ [c] := by
      intro d
      simp only [List.mem_append, same d]
    simp only [firstNeeds, same c, ih same, ih more]

theorem firstNeeds_append (known first second : List Computation) :
    firstNeeds known (first ++ second) =
      firstNeeds known first ++ firstNeeds (known ++ first) second := by
  induction first generalizing known with
  | nil => rw [List.append_nil]; rfl
  | cons c rest ih =>
    simp only [List.cons_append, firstNeeds]
    by_cases there : c ∈ known
    · have same : ∀ d, d ∈ known ++ rest ↔ d ∈ known ++ c :: rest := by
        intro d
        simp only [List.mem_append, List.mem_cons]
        constructor
        · rintro (old | new)
          · exact .inl old
          · exact .inr (.inr new)
        · rintro (old | rfl | new)
          · exact .inl old
          · exact .inl there
          · exact .inr new
      rw [if_pos there, if_pos there, ih, firstNeeds_congr same]
    · rw [if_neg there, if_neg there, ih, List.append_assoc, List.singleton_append,
        List.cons_append]

theorem mem_firstNeeds {known uses : List Computation} {c : Computation} :
    c ∈ firstNeeds known uses ↔ c ∈ uses ∧ c ∉ known := by
  induction uses generalizing known with
  | nil => simp [firstNeeds]
  | cons d rest ih =>
    simp only [firstNeeds]
    by_cases there : d ∈ known
    · rw [if_pos there, ih, List.mem_cons]
      constructor
      · rintro ⟨used, new⟩
        exact ⟨.inr used, new⟩
      · rintro ⟨rfl | used, new⟩
        · exact absurd there new
        · exact ⟨used, new⟩
    · rw [if_neg there, List.mem_cons, ih, List.mem_cons, List.mem_append, List.mem_singleton,
        not_or]
      by_cases same : c = d
      · simp [same, there]
      · simp [same]

namespace Node

/-- The variable that an operand is, or that it is read from. -/
def standIn? : Node → Option String
  | .identifier _ name => some name
  | .placeholder _ _ (some ⟨_, .cached name⟩) => some name
  | _ => none

mutual

/-- The computations that an expression takes from aliases, in the order of evaluation. -/
def uses : Node → List Computation
  | .placeholder _ name (some ⟨_, .cached _⟩) => [.placeholder name]
  | .filter _ operand name (some _) =>
    operand.uses ++ (operand.standIn?.map fun source => .filter name (.identifier source)).toList
  | .filter _ operand _ none => operand.uses
  | .binary _ _ left right => left.uses ++ right.uses
  | .call _ callee arguments => callee.uses ++ usesEach arguments
  | .list _ items => usesEach items
  | .template .. | .function .. | .conditional .. | .assign .. | .write .. | .identifier ..
  | .placeholder .. | .literal .. => []
termination_by structural n => n

/-- The computations that expressions take from aliases. -/
def usesEach : List Node → List Computation
  | [] => []
  | e :: rest => e.uses ++ usesEach rest
termination_by structural es => es

end

/-- The expression of a statement: its value, what it writes, its condition, or the statement itself
if it is an expression. -/
def own? : Node → Option Node
  | .template .. | .function .. => none
  | .conditional _ e _ _ | .assign _ _ e | .write _ e => some e
  | e@(.identifier ..) | e@(.placeholder ..) | e@(.literal ..) | e@(.binary ..) | e@(.filter ..)
  | e@(.call ..) | e@(.list ..) => some e

/-- The computations that a statement takes from aliases, the branches apart. -/
def needs (n : Node) : List Computation := (n.own?.map uses).getD []

/-- The computation that an assignment keeps. -/
def defines? (n : Node) : Option Computation := n.binding?.bind fun binding => binding.2.computation?

/-- The computations that assignments keep. -/
def defined (body : List Node) : List Computation := body.filterMap defines?

theorem defined_append (first second : List Node) :
    defined (first ++ second) = defined first ++ defined second := List.filterMap_append

/-- Whether the node sets one of the given variables. -/
def setsOne (names : String → Bool) (n : Node) : Bool := n.target?.any names

end Node

namespace Analysis

/-- A walk adds aliases of computations that were not in sight, and changes none. -/
structure Widens (ctx : Context) (st next : State) : Prop where
  keeps : ∀ c name, st.frame.aliases.get? c = some name → next.frame.aliases.get? c = some name
  unseen : ∀ c, (next.frame.aliases.get? c).isSome → (st.frame.aliases.get? c).isSome ∨
    ∀ aliases ∈ ctx.enclosing, aliases.get? c = none

/-- The aliases in sight hold their computations. -/
def Sighted (ctx : Context) (st : State) : Prop :=
  ∀ aliases ∈ st.frame.aliases :: ctx.enclosing, ∀ c name, aliases.get? c = some name →
    st.holders.get? name = some c

section Expressions

variable {ctx : Context} {st middle next last : State}

theorem Widens.of_aliases (same : next.frame.aliases = st.frame.aliases) : Widens ctx st next := by
  constructor
  · intro c name found
    rw [same]
    exact found
  · intro c found
    rw [same] at found
    exact .inl found

theorem Widens.trans (first : Widens ctx st middle) (second : Widens ctx middle next) :
    Widens ctx st next := by
  constructor
  · intro c name found
    exact second.keeps c name (first.keeps c name found)
  · intro c found
    rcases second.unseen c found with before | outside
    · exact first.unseen c before
    · exact .inr outside

theorem visibleAlias_eq (st : State) (c : Computation) :
    st.visibleAlias? ctx c =
      (st.frame.aliases.get? c).or (ctx.enclosing.findSome? (·.get? c)) := by
  rw [State.visibleAlias?, List.findSome?_cons]
  cases st.frame.aliases.get? c <;> rfl

/-- What is in sight stays in sight, as the same alias. -/
theorem Widens.visible (h : Widens ctx st next) {c : Computation} {name : String}
    (found : st.visibleAlias? ctx c = some name) : next.visibleAlias? ctx c = some name := by
  rw [visibleAlias_eq] at found ⊢
  cases here : st.frame.aliases.get? c with
  | some own =>
    rw [here] at found
    rw [h.keeps c own here]
    exact found
  | none =>
    rw [here, Option.none_or] at found
    cases there : next.frame.aliases.get? c with
    | none => rwa [Option.none_or]
    | some own =>
      rcases h.unseen c (by rw [there]; rfl) with before | outside
      · rw [here] at before
        cases before
      · rw [List.findSome?_eq_none_iff.2 outside] at found
        cases found

theorem Widens.isVisibleAlias (h : Widens ctx st next) {name : String}
    (visible : st.isVisibleAlias ctx name = true) : next.isVisibleAlias ctx name = true := by
  rw [State.isVisibleAlias, List.any_cons, Bool.or_eq_true] at visible ⊢
  apply visible.imp_left
  simp only [decide_eq_true_eq, OrderedMap.mem_values_iff]
  rintro ⟨c, found⟩
  exact ⟨c, h.keeps c name found⟩

theorem isVisibleAlias_of_visibleAlias {c : Computation} {name : String}
    (found : st.visibleAlias? ctx c = some name) : st.isVisibleAlias ctx name = true := by
  obtain ⟨aliases, member, here⟩ := List.exists_of_findSome?_eq_some found
  apply List.any_eq_true.2
  exact ⟨aliases, member, decide_eq_true (OrderedMap.mem_values_iff.2 ⟨c, here⟩)⟩

theorem aliasFor_widens {c : Computation} {value : Node} {name : String}
    (made : st.aliasFor ctx c value = (name, next)) : Widens ctx st next := by
  rcases aliasFor_cases made with ⟨rfl, -⟩ | ⟨rfl, -, unseen⟩
  · exact .of_aliases rfl
  · have absent := List.findSome?_eq_none_iff.1 unseen
    have added (d : Computation) : (st.frame.define c name value).aliases.get? d =
        if c = d then some name else st.frame.aliases.get? d := OrderedMap.get?_insert _ _ _ _
    constructor
    · intro d other found
      have different : c ≠ d := by
        rintro rfl
        rw [absent _ List.mem_cons_self] at found
        cases found
      rw [added, if_neg different]
      exact found
    · intro d found
      rw [added] at found
      by_cases same : c = d
      · subst same
        exact .inr fun aliases member => absent aliases (List.mem_cons_of_mem _ member)
      · rw [if_neg same] at found
        exact .inl found

/-- The alias that a computation is given is in sight from then on. -/
theorem aliasFor_visible {c : Computation} {value : Node} {name : String}
    (made : st.aliasFor ctx c value = (name, next)) : next.visibleAlias? ctx c = some name := by
  rcases aliasFor_cases made with ⟨rfl, found⟩ | ⟨rfl, -, -⟩
  · exact found
  · rw [visibleAlias_eq]
    change ((st.frame.aliases.insert c name).get? c).or _ = _
    rw [OrderedMap.get?_insert, if_pos rfl]
    rfl

theorem Operands.widens {es es' : List Node} (h : Operands ctx st es es' last) :
    Widens ctx st last := by
  induction h with
  | nil => exact .of_aliases rfl
  | identifier _ _ _ ih | literal _ _ _ ih => exact ih
  | placeholder read _ ih =>
    apply Widens.trans _ ih
    rcases read_cases read with ⟨-, -, same⟩ | ⟨-, same⟩ | ⟨_, _, -, -, -, -, made, same⟩
    · exact .of_aliases (by rw [same.frame])
    · exact .of_aliases (by rw [same.frame])
    · exact (aliasFor_widens made).trans (.of_aliases (by rw [same.frame]))
  | @binary st middle next _ _ _ _ _ _ _ _ _ _ _ _ first second later =>
    have right : Widens ctx middle next := ⟨second.keeps, second.unseen⟩
    exact (first.trans right).trans ⟨later.keeps, later.unseen⟩
  | filter _ check cache _ inner later =>
    have same := checkFilter_alike check
    have checked := inner.trans (Widens.of_aliases (by rw [same.frame]))
    rcases cacheFilter_cases cache with ⟨-, rfl⟩ | ⟨_, _, -, -, -, -, made⟩
    · exact checked.trans later
    · exact (checked.trans (aliasFor_widens made)).trans later
  | call _ _ _ _ first second later => exact (first.trans second).trans later
  | list _ _ _ inner later => exact inner.trans later

/-- What the walk of an expression adds to a block, when the expression comes to use the given
computations: definitions of those that are not in sight, in the order of first use, under names
that are no alias in sight. -/
structure Draws (ctx : Context) (st : State) (uses : List Computation) (definitions : List Node)
    (next : State) : Prop where
  pending : next.frame.pending = st.frame.pending ++ definitions
  widens : Widens ctx st next
  keeps : ∀ name c, st.holders.get? name = some c → next.holders.get? name = some c
  sighted : Sighted ctx next
  keys : ∀ known, (∀ c, c ∈ known ↔ (st.visibleAlias? ctx c).isSome) →
    Node.defined definitions = firstNeeds known uses ∧
      ∀ c, c ∈ known ++ uses ↔ (next.visibleAlias? ctx c).isSome
  held : ∀ d ∈ definitions, ∃ name c, d.target? = some name ∧ d.defines? = some c ∧
    next.holders.get? name = some c ∧ st.isVisibleAlias ctx name = false ∧
    ∀ source ∈ c.identifiers, next.isVisibleAlias ctx source = true
  sources : definitions.Pairwise fun d later =>
    ∀ c, d.defines? = some c → ∀ name ∈ c.identifiers, later.target? ≠ some name

/-- An expression that uses nothing. -/
theorem Draws.nothing (sighted : Sighted ctx st) (frame : next.frame = st.frame)
    (holders : next.holders = st.holders) : Draws ctx st [] [] next := by
  have visible (c : Computation) : next.visibleAlias? ctx c = st.visibleAlias? ctx c := by
    rw [State.visibleAlias?, State.visibleAlias?, frame]
  constructor
  · rw [frame, List.append_nil]
  · exact .of_aliases (by rw [frame])
  · intro name c held
    rwa [holders]
  · intro aliases member c name found
    rw [frame] at member
    rw [holders]
    exact sighted aliases member c name found
  · intro known same
    refine ⟨rfl, fun c => ?_⟩
    rw [List.append_nil, visible c]
    exact same c
  · intro d member
    cases member
  · exact .nil

theorem Draws.trans {first second : List Computation} {front back : List Node}
    (h : Draws ctx st first front middle) (h' : Draws ctx middle second back next) :
    Draws ctx st (first ++ second) (front ++ back) next := by
  constructor
  · rw [h'.pending, h.pending, List.append_assoc]
  · exact h.widens.trans h'.widens
  · intro name c held
    exact h'.keeps name c (h.keeps name c held)
  · exact h'.sighted
  · intro known same
    obtain ⟨keys, seen⟩ := h.keys known same
    obtain ⟨keys', seen'⟩ := h'.keys (known ++ first) seen
    refine ⟨?_, ?_⟩
    · rw [Node.defined_append, firstNeeds_append, keys, keys']
    · rw [← List.append_assoc]
      exact seen'
  · intro d member
    rcases List.mem_append.1 member with early | late
    · obtain ⟨name, c, target, kept, held, new, sources⟩ := h.held d early
      exact ⟨name, c, target, kept, h'.keeps name c held, new,
        fun source among => h'.widens.isVisibleAlias (sources source among)⟩
    · obtain ⟨name, c, target, kept, held, new, sources⟩ := h'.held d late
      refine ⟨name, c, target, kept, held, ?_, sources⟩
      rw [Bool.eq_false_iff] at new ⊢
      intro visible
      exact new (h.widens.isVisibleAlias visible)
  · refine List.pairwise_append.2 ⟨h.sources, h'.sources, ?_⟩
    intro d early later late c kept source among target
    -- what the first definition reads was in sight before the second one got its name
    obtain ⟨name, c', -, kept', -, -, sources⟩ := h.held d early
    obtain ⟨other, -, target', -, -, new, -⟩ := h'.held later late
    rw [kept] at kept'
    cases kept'
    rw [target] at target'
    cases target'
    rw [sources source among] at new
    cases new

theorem aliasFor_sighted {c : Computation} {value : Node} {name : String}
    (made : st.aliasFor ctx c value = (name, next)) (sighted : Sighted ctx st) :
    Sighted ctx next := by
  intro aliases member d other found
  have inherited (old : aliases ∈ st.frame.aliases :: ctx.enclosing) :
      next.holders.get? other = some d := aliasFor_keeps made (sighted aliases old d other found)
  rcases aliasFor_cases made with ⟨rfl, -⟩ | ⟨rfl, -, -⟩
  · exact inherited member
  · rcases List.mem_cons.1 member with rfl | outside
    · change (st.frame.aliases.insert c name).get? d = some other at found
      rw [OrderedMap.get?_insert] at found
      by_cases same : c = d
      · rw [if_pos same] at found
        cases found
        change (st.holders.insert name c).get? name = some d
        rw [OrderedMap.get?_insert, if_pos rfl, same]
      · rw [if_neg same] at found
        exact aliasFor_keeps made (sighted _ List.mem_cons_self d other found)
    · exact inherited (List.mem_cons_of_mem _ outside)

/-- A computation that has no alias gets one whose name is no alias in sight. -/
theorem freshAlias_not_visible {c : Computation} (sighted : Sighted ctx st)
    (unseen : st.visibleAlias? ctx c = none) :
    st.isVisibleAlias ctx (st.freshAlias ctx c) = false := by
  rw [Bool.eq_false_iff]
  intro visible
  obtain ⟨aliases, member, listed⟩ := List.any_eq_true.1 visible
  obtain ⟨d, found⟩ := OrderedMap.mem_values_iff.1 (of_decide_eq_true listed)
  have same : d = c := freshAlias_held (sighted aliases member d _ found)
  subst same
  rw [List.findSome?_eq_none_iff.1 unseen aliases member] at found
  cases found

/-- The use of a computation. -/
theorem aliasFor_draws {c : Computation} {value : Node} {name : String}
    (made : st.aliasFor ctx c value = (name, next)) (sighted : Sighted ctx st)
    (computed : value.computation? = some c)
    (sources : ∀ source ∈ c.identifiers, st.isVisibleAlias ctx source = true) :
    ∃ definitions, Draws ctx st [c] definitions next := by
  have seen (known : List Computation) (same : ∀ d, d ∈ known ↔ (st.visibleAlias? ctx d).isSome)
      (d : Computation) : d ∈ known ++ [c] ↔ (next.visibleAlias? ctx d).isSome := by
    rw [List.mem_append, List.mem_singleton, same d]
    constructor
    · rintro (before | rfl)
      · obtain ⟨other, found⟩ := Option.isSome_iff_exists.1 before
        rw [(aliasFor_widens made).visible found]
        rfl
      · rw [aliasFor_visible made]
        rfl
    · intro after
      by_cases this : d = c
      · exact .inr this
      · left
        rcases aliasFor_cases made with ⟨rfl, -⟩ | ⟨rfl, -, -⟩
        · exact after
        · rw [visibleAlias_eq] at after ⊢
          change (((st.frame.aliases.insert c name).get? d).or _).isSome at after
          rwa [OrderedMap.get?_insert, if_neg (Ne.symm this)] at after
  rcases aliasFor_cases made with ⟨same, found⟩ | ⟨same, fresh, unseen⟩
  · refine ⟨[], ?_, aliasFor_widens made, fun _ _ => aliasFor_keeps made,
      aliasFor_sighted made sighted, fun known before => ⟨?_, seen known before⟩, ?_, .nil⟩
    · rw [same, List.append_nil]
    · have there : c ∈ known := (before c).2 (by rw [found]; rfl)
      rw [firstNeeds, if_pos there]
      rfl
    · intro d member
      cases member
  · refine ⟨[.assign .generated name value], ?_, aliasFor_widens made,
      fun _ _ => aliasFor_keeps made, aliasFor_sighted made sighted,
      fun known before => ⟨?_, seen known before⟩, ?_, List.pairwise_singleton _ _⟩
    · rw [same]
      rfl
    · have new : c ∉ known := by
        rw [before c, unseen]
        exact Bool.false_ne_true
      rw [firstNeeds, if_neg new]
      simp [Node.defined, Node.defines?, Node.binding?, computed, firstNeeds]
    · intro d member
      rw [List.mem_singleton.1 member]
      refine ⟨name, c, rfl, ?_, ?_, ?_, ?_⟩
      · simp [Node.defines?, Node.binding?, computed]
      · rw [same, OrderedMap.get?_insert, if_pos rfl]
      · rw [fresh]
        exact freshAlias_not_visible sighted unseen
      · intro source among
        exact (aliasFor_widens made).isVisibleAlias (sources source among)

/-- The operand of a filter that is kept stands for an alias in sight. -/
theorem Operands.standIn {operand operand' : Node} {source : String}
    (h : Operands ctx st [operand] [operand'] next)
    (found : next.aliasedOperand? ctx operand' = some source) :
    operand'.standIn? = some source ∧ next.isVisibleAlias ctx source = true := by
  cases h with
  | identifier span name later =>
    cases later
    simp only [State.aliasedOperand?] at found
    split at found
    · rename_i visible
      cases found
      exact ⟨rfl, visible⟩
    · cases found
  | @placeholder _ _ _ _ _ _ _ resolution read later =>
    cases later
    obtain ⟨eligible, access⟩ := resolution
    cases access with
    | dynamic | direct => cases found
    | cached alternative =>
      cases found
      refine ⟨rfl, ?_⟩
      rcases read_cases read with ⟨other, -⟩ | ⟨other, -⟩ | ⟨_, middle, same, -, -, -, made, alike⟩
      · cases other
      · cases other
      · cases same
        have visible := aliasFor_visible made
        rw [State.visibleAlias?, ← alike.frame] at visible
        exact isVisibleAlias_of_visibleAlias visible
  | literal | binary | filter | call | list => cases found

/-- The walk of expressions only adds notes. -/
theorem Operands.bareEach_eq {es es' : List Node} (h : Operands ctx st es es' last) :
    Node.bareEach es' = es := by
  induction h with
  | nil => rfl
  | identifier _ _ _ ih | literal _ _ _ ih | placeholder _ _ ih =>
    rw [Node.bareEach, ih]
    rfl
  | binary _ _ _ _ _ first second later =>
    cases first
    cases second
    rw [Node.bareEach, later]
    rfl
  | filter _ _ _ _ inner later =>
    cases inner
    rw [Node.bareEach, later]
    rfl
  | call _ _ _ _ first second later =>
    cases first
    rw [Node.bareEach, later, Node.bare, second]
  | list _ _ _ inner later => rw [Node.bareEach, later, Node.bare, inner]

theorem Operands.bare_eq {e e' : Node} (h : Operands ctx st [e] [e'] next) : e'.bare = e :=
  (List.cons.inj h.bareEach_eq).1

/-- An expression by itself is its own expression. It sets nothing. -/
theorem Operands.own_eq {e e' : Node} (h : Operands ctx st [e] [e'] next) :
    e.own? = some e ∧ e'.own? = some e' ∧ e.target? = none ∧ e'.target? = none := by
  cases h <;> exact ⟨rfl, rfl, rfl, rfl⟩

/-- An expression asks for exactly what it uses and what is not in sight yet. -/
theorem Operands.draws {es es' : List Node} (h : Operands ctx st es es' last)
    (sighted : Sighted ctx st) :
    ∃ definitions, Draws ctx st (Node.usesEach es') definitions last := by
  induction h with
  | nil => exact ⟨[], .nothing sighted rfl rfl⟩
  | identifier _ _ _ ih | literal _ _ _ ih => exact ih sighted
  | @placeholder st next last rest rest' span name resolution read later ih =>
    obtain ⟨eligible, access⟩ := resolution
    rcases read_cases read with ⟨same, -, alike⟩ | ⟨same, alike⟩ |
      ⟨alternative, middle, same, -, -, -, made, alike⟩
    · cases same
      have first : Draws ctx st [] [] next := .nothing sighted alike.frame alike.holders
      obtain ⟨definitions, second⟩ := ih first.sighted
      exact ⟨_, first.trans second⟩
    · cases same
      have first : Draws ctx st [] [] next := .nothing sighted alike.frame alike.holders
      obtain ⟨definitions, second⟩ := ih first.sighted
      exact ⟨_, first.trans second⟩
    · cases same
      obtain ⟨front, first⟩ := aliasFor_draws made sighted rfl (fun _ among => by cases among)
      have passed : Draws ctx middle [] [] next :=
        .nothing first.sighted alike.frame alike.holders
      obtain ⟨definitions, second⟩ := ih passed.sighted
      exact ⟨_, first.trans (passed.trans second)⟩
  | @binary st middle next last left left' right right' rest rest' span op _ _ _ first second
      later =>
    obtain ⟨front, one⟩ := first sighted
    have turn : Draws ctx middle [] [] (middle.evaluating (st.evaluation.rightOperand op)) :=
      .nothing one.sighted rfl rfl
    obtain ⟨middle', two⟩ := second turn.sighted
    have back : Draws ctx next [] [] (next.evaluating st.evaluation) :=
      .nothing two.sighted rfl rfl
    obtain ⟨definitions, three⟩ := later back.sighted
    have all := (one.trans (turn.trans two)).trans (back.trans three)
    simp only [Node.usesEach, Node.uses, List.nil_append, List.append_nil] at all ⊢
    exact ⟨_, all⟩
  | @filter st middle checked next last operand operand' rest rest' span name cached innerWalk check
      cache laterWalk inner later =>
    obtain ⟨front, one⟩ := inner sighted
    have alike := checkFilter_alike check
    have pass : Draws ctx middle [] [] checked := .nothing one.sighted alike.frame alike.holders
    rcases cacheFilter_cases cache with ⟨rfl, rfl⟩ | ⟨source, kept, rfl, -, -, found, made⟩
    · obtain ⟨definitions, two⟩ := later pass.sighted
      have all := (one.trans pass).trans two
      simp only [Node.usesEach, Node.uses, List.append_nil] at all ⊢
      exact ⟨_, all⟩
    · have found' : middle.aliasedOperand? ctx operand' = some source := by
        unfold State.aliasedOperand? State.isVisibleAlias at found ⊢
        rwa [alike.frame] at found
      obtain ⟨standIn, visible⟩ := innerWalk.standIn found'
      have ready : ∀ other ∈ (Computation.filter name (.identifier source)).identifiers,
          checked.isVisibleAlias ctx other = true := by
        intro other among
        rw [List.mem_singleton.1 among]
        exact pass.widens.isVisibleAlias visible
      obtain ⟨new, use⟩ := aliasFor_draws made pass.sighted rfl ready
      obtain ⟨definitions, two⟩ := later use.sighted
      have all := ((one.trans pass).trans use).trans two
      simp only [Node.usesEach, Node.uses, standIn, Option.map_some, Option.toList_some,
        List.append_nil] at all ⊢
      exact ⟨_, all⟩
  | call _ _ _ _ first second later =>
    obtain ⟨_, one⟩ := first sighted
    obtain ⟨_, two⟩ := second one.sighted
    obtain ⟨_, three⟩ := later two.sighted
    have all := (one.trans two).trans three
    simp only [Node.usesEach, Node.uses, List.append_nil] at all ⊢
    exact ⟨_, all⟩
  | list _ _ _ inner later =>
    obtain ⟨_, one⟩ := inner sighted
    obtain ⟨_, two⟩ := later one.sighted
    exact ⟨_, one.trans two⟩

end Expressions

theorem Statements.keeps {ctx : Context} {st last : State} {source out : List Node}
    (h : Statements ctx st source out last) (name : String) (c : Computation)
    (held : st.holders.get? name = some c) : last.holders.get? name = some c :=
  (h.enriched fun _ member => member).keeps name c held

/-- The statements of a block add aliases to it, and their branches none. -/
theorem Statements.widens {ctx : Context} {st last : State} {source out : List Node}
    (h : Statements ctx st source out last) : Widens ctx st last := by
  have own {ctx : Context} {st next : State} {es es' : List Node}
      (inner : Operands ctx st.beginStatement es es' next) : Widens ctx st next :=
    ⟨inner.widens.keeps, inner.widens.unseen⟩
  induction h with
  | nil => exact .of_aliases rfl
  | function _ _ _ _ _ ih => exact ⟨ih.keeps, ih.unseen⟩
  | branch _ test _ _ _ ih | branches _ test _ _ _ _ _ ih =>
    exact (own test).trans ⟨ih.keeps, ih.unseen⟩
  | assign _ _ inner _ ih | write _ inner _ ih | expression _ inner _ ih =>
    exact (own inner).trans ⟨ih.keeps, ih.unseen⟩

/-! ### Walks of source trees -/

/-- The walk of a block of a source tree, in a function that holds no names but the given ones. -/
structure Orderly (names : String → Bool) (ctx : Context) (st : State) (source : List Node)
    (last : State) : Prop where
  plain : Node.areStatements source = true
  free : ∀ target ∈ Node.assignmentsOf source, names target = false
  listed : ∀ name c, last.holders.get? name = some c → names name = true
  empty : st.frame.pending = []
  sighted : Sighted ctx st

section Orderly

variable {names : String → Bool} {ctx : Context} {st tested between next inner last : State}
  {source rest thenBody elseBody : List Node} {n condition : Node} {span : Span}
  {thenScope elseScope : Scope} {elseBranch : Option (Block Node)}

theorem Sighted.of_keeps (h : Sighted ctx st) (same : next.frame.aliases = st.frame.aliases)
    (keeps : ∀ name c, st.holders.get? name = some c → next.holders.get? name = some c) :
    Sighted ctx next := by
  intro maps member c name found
  rw [same] at member
  exact keeps name c (h maps member c name found)

theorem Sighted.enterBranch {scope : Scope} (h : Sighted ctx st) (plain : scope.isPlain)
    (keeps : ∀ name c, st.holders.get? name = some c → next.holders.get? name = some c) :
    Sighted (ctx.enterBranch st.frame.aliases) (next.enterBranch scope) := by
  intro maps member c name found
  rcases List.mem_cons.1 member with rfl | around
  · change scope.aliases.get? c = some name at found
    rw [Scope.aliases_of_isPlain plain] at found
    cases found
  · exact keeps name c (h maps around c name found)

/-- In front of the first statement of a branch one sees what one sees in front of the branch. -/
theorem visibleAlias_enterBranch {scope : Scope} (plain : scope.isPlain) (c : Computation) :
    (next.enterBranch scope).visibleAlias? (ctx.enterBranch st.frame.aliases) c =
      st.visibleAlias? ctx c := by
  rw [visibleAlias_eq]
  change (scope.aliases.get? c).or _ = _
  rw [Scope.aliases_of_isPlain plain]
  rfl

/-- What an expression asks for, when it is the first thing to be walked. -/
theorem Orderly.draws {e e' : Node} (h : Orderly names ctx st source last)
    (walk : Operands ctx st.beginStatement [e] [e'] next)
    (keeps : ∀ name c, next.holders.get? name = some c → last.holders.get? name = some c) :
    Draws ctx st.beginStatement e'.uses next.frame.pending next ∧
      ∀ d ∈ next.frame.pending, d.setsOne names = true ∧ d.defines?.isSome := by
  obtain ⟨definitions, draws⟩ := walk.draws h.sighted
  have pending : next.frame.pending = definitions := by
    rw [draws.pending]
    change st.frame.pending ++ definitions = definitions
    rw [h.empty, List.nil_append]
  subst pending
  rw [Node.usesEach, Node.usesEach, List.append_nil] at draws
  refine ⟨draws, fun d member => ?_⟩
  obtain ⟨name, c, target, kept, held, -, -⟩ := draws.held d member
  rw [Node.setsOne, target, kept]
  exact ⟨h.listed name c (keeps name c held), rfl⟩

/-- Behind the first statement. -/
theorem Orderly.behind (h : Orderly names ctx st (n :: rest) last) (sighted : Sighted ctx next)
    (empty : next.frame.pending = []) : Orderly names ctx next rest last := by
  obtain ⟨plain, free, listed, -, -⟩ := h
  rw [Node.areStatements, Bool.and_eq_true] at plain
  refine ⟨plain.2, fun target member => free target ?_, listed, empty, sighted⟩
  rw [Node.assignmentsOf]
  exact List.mem_append_right _ member

/-- In the first branch of a conditional. -/
theorem Orderly.thenSide
    (h : Orderly names ctx st (.conditional span condition ⟨thenBody, thenScope⟩ elseBranch :: rest)
      last) (sighted : Sighted ctx tested)
    (keeps : ∀ name c, inner.holders.get? name = some c → last.holders.get? name = some c) :
    thenScope.isPlain = true ∧
      Orderly names (ctx.enterBranch tested.frame.aliases) (tested.enterBranch thenScope) thenBody
        inner := by
  obtain ⟨plain, free, listed, -, -⟩ := h
  have inherited : ∀ name c, inner.holders.get? name = some c → names name = true :=
    fun name c held => listed name c (keeps name c held)
  cases elseBranch with
  | none =>
    simp only [Node.areStatements, Node.isStatement, Bool.and_eq_true] at plain
    simp only [Node.assignmentsOf, Node.assignments, List.mem_append] at free
    obtain ⟨⟨⟨-, plainScope⟩, plainThen⟩, -⟩ := plain
    exact ⟨plainScope, plainThen, fun target member => free target (.inl (.inr member)), inherited,
      rfl, sighted.enterBranch plainScope fun _ _ held => held⟩
  | some block =>
    obtain ⟨elseBody, elseScope⟩ := block
    simp only [Node.areStatements, Node.isStatement, Bool.and_eq_true] at plain
    simp only [Node.assignmentsOf, Node.assignments, List.mem_append] at free
    obtain ⟨⟨⟨⟨⟨-, plainScope⟩, plainThen⟩, -⟩, -⟩, -⟩ := plain
    exact ⟨plainScope, plainThen, fun target member => free target (.inl (.inl (.inr member))),
      inherited, rfl, sighted.enterBranch plainScope fun _ _ held => held⟩

/-- In the second branch of a conditional, which is walked behind the first. -/
theorem Orderly.elseSide
    (h : Orderly names ctx st
      (.conditional span condition ⟨thenBody, thenScope⟩ (some ⟨elseBody, elseScope⟩) :: rest) last)
    (sighted : Sighted ctx tested)
    (before : ∀ name c, tested.holders.get? name = some c → between.holders.get? name = some c)
    (keeps : ∀ name c, inner.holders.get? name = some c → last.holders.get? name = some c) :
    elseScope.isPlain = true ∧
      Orderly names (ctx.enterBranch tested.frame.aliases)
        ((tested.leaveBranch between).enterBranch elseScope) elseBody inner := by
  obtain ⟨plain, free, listed, -, -⟩ := h
  simp only [Node.areStatements, Node.isStatement, Bool.and_eq_true] at plain
  simp only [Node.assignmentsOf, Node.assignments, List.mem_append] at free
  obtain ⟨⟨⟨-, plainScope⟩, plainElse⟩, -⟩ := plain
  exact ⟨plainScope, plainElse, fun target member => free target (.inl (.inr member)),
    fun name c held => listed name c (keeps name c held), rfl,
    sighted.enterBranch plainScope before⟩

end Orderly

section Functions

variable {ctx : Context} {st inner : State} {body walked : List Node} {scope : Scope}

/-- At the start of a function of a source tree nothing is in sight. -/
theorem visibleAlias_enterFunction (plain : scope.isPlain) (c : Computation) :
    (st.enterFunction ⟨body, scope⟩).visibleAlias? (ctx.enterFunction ⟨body, scope⟩) c = none := by
  rw [visibleAlias_eq]
  change (scope.aliases.get? c).or none = none
  rw [Scope.aliases_of_isPlain plain]
  rfl

/-- A function of a source tree holds the aliases of its analysed form. -/
theorem enterFunction_orderly (plain : scope.isPlain) (source : Node.areStatements body)
    (h : Statements (ctx.enterFunction ⟨body, scope⟩) (st.enterFunction ⟨body, scope⟩) body walked
      inner) :
    Orderly (· ∈ Block.aliasNames ⟨walked, inner.frame.commit scope⟩)
      (ctx.enterFunction ⟨body, scope⟩) (st.enterFunction ⟨body, scope⟩) body inner := by
  have names := enterFunction_aliasNames plain source h
  obtain ⟨-, free⟩ := enterFunction_table plain source h
  refine ⟨source, ?_, ?_, rfl, ?_⟩
  · intro target assigned
    rw [decide_eq_false_iff_not, names, free target assigned]
    exact Bool.false_ne_true
  · intro name c held
    rw [decide_eq_true_eq, names, held]
    rfl
  · intro maps member c name found
    have absent := List.findSome?_eq_none_iff.1 (visibleAlias_enterFunction plain c) maps member
    rw [absent] at found
    cases found

end Functions

end Analysis

end Stencil
