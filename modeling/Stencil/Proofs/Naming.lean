import Stencil.Proofs.Introduction

/-!
# The choice of alias names

A new alias gets the first candidate that is free for its computation. What is taken stays taken
while a function is walked, so that a computation which is met again, in another branch, is given
the name it had, and no other computation is given that name.

* `freshAlias_firstFree`: the search for a name ends, on the first candidate that is free.
* `Statements.chosen`: at every point of a function each alias has that name.
* `Chosen.injective`, `Chosen.unclaimed`: so two aliases of one computation are the same, and no
  alias has a name of the function or of the template.
-/

namespace Stencil

namespace Alias

/-- The search passes over taken candidates only. -/
theorem search_passes (taken : String → Bool) (base : String) (bound number : Nat) :
    ∃ k, search taken base bound number = candidate base (number + k) ∧
      ∀ j < k, taken (candidate base (number + j)) = true := by
  induction bound generalizing number with
  | zero => exact ⟨0, rfl, fun j below => absurd below (Nat.not_lt_zero j)⟩
  | succ bound ih =>
    unfold search
    split
    · rename_i busy
      obtain ⟨k, found, passed⟩ := ih (number + 1)
      refine ⟨k + 1, ?_, fun j below => ?_⟩
      · rw [found, Nat.add_assoc, Nat.add_comm 1 k]
      · cases j with
        | zero => exact busy
        | succ j =>
          have earlier := passed j (by omega)
          rwa [Nat.add_assoc, Nat.add_comm 1 j] at earlier
    · exact ⟨0, rfl, fun j below => absurd below (Nat.not_lt_zero j)⟩

end Alias

namespace Analysis

/-- A name is the first candidate for the alias of a computation that is not taken. -/
def State.FirstFree (st : State) (ctx : Context) (c : Computation) (name : String) : Prop :=
  ∃ k, name = Alias.candidate c.preferredAlias k ∧
    st.isTaken ctx c (Alias.candidate c.preferredAlias k) = false ∧
    ∀ j < k, st.isTaken ctx c (Alias.candidate c.preferredAlias j) = true

/-- The search for a name ends in every state. -/
theorem freshAlias_firstFree (st : State) (ctx : Context) (c : Computation) :
    st.FirstFree ctx c (st.freshAlias ctx c) := by
  have free := freshAlias_free st ctx c
  obtain ⟨k, found, passed⟩ :=
    Alias.search_passes (st.isTaken ctx c) c.preferredAlias (st.takenBound ctx) 0
  simp only [Nat.zero_add] at found passed
  change st.freshAlias ctx c = _ at found
  rw [found] at free ⊢
  exact ⟨k, rfl, free, passed⟩

section Choice

variable {ctx : Context} {st next : State} {c : Computation} {name : String}

theorem State.FirstFree.unique {other : String} (h : st.FirstFree ctx c name)
    (h' : st.FirstFree ctx c other) : name = other := by
  obtain ⟨k, rfl, free, passed⟩ := h
  obtain ⟨k', rfl, free', passed'⟩ := h'
  rcases Nat.lt_trichotomy k k' with below | rfl | above
  · rw [passed' k below] at free
    cases free
  · rfl
  · rw [passed k' above] at free'
    cases free'

theorem State.FirstFree.not_user (h : st.FirstFree ctx c name) :
    st.isUserName ctx name = false := by
  obtain ⟨k, rfl, free, -⟩ := h
  rw [State.isTaken, Bool.or_eq_false_iff] at free
  exact free.2

/-- What the search for a name depends on only grows. -/
structure Keeps (st next : State) : Prop where
  globals : next.globals = st.globals
  holders : ∀ name c, st.holders.get? name = some c → next.holders.get? name = some c

theorem Keeps.isUserName_eq (h : Keeps st next) (ctx : Context) (name : String) :
    next.isUserName ctx name = st.isUserName ctx name := by
  rw [State.isUserName, State.isUserName, h.globals]

theorem Keeps.isTaken (h : Keeps st next) (busy : st.isTaken ctx c name = true) :
    next.isTaken ctx c name = true := by
  rw [State.isTaken, Bool.or_eq_true] at busy ⊢
  rw [h.isUserName_eq ctx name]
  rcases busy with held | user
  · cases found : st.holders.get? name with
    | none => simp [found] at held
    | some other =>
      rw [found] at held
      rw [h.holders name other found]
      exact .inl held
  · exact .inr user

/-- A name that was the first free one and is held by its computation is so still. -/
theorem State.FirstFree.keeps (h : st.FirstFree ctx c name) (kept : Keeps st next)
    (held : next.holders.get? name = some c) : next.FirstFree ctx c name := by
  have user := h.not_user
  obtain ⟨k, rfl, -, passed⟩ := h
  refine ⟨k, rfl, ?_, fun j below => kept.isTaken (passed j below)⟩
  rw [State.isTaken, held, kept.isUserName_eq, user]
  simp

/-- Every alias of the function has the first name that is free for its computation. -/
def Chosen (ctx : Context) (st : State) : Prop :=
  ∀ name c, st.holders.get? name = some c → st.FirstFree ctx c name

theorem Chosen.of_same (h : Chosen ctx st) (globals : next.globals = st.globals)
    (holders : next.holders = st.holders) : Chosen ctx next := by
  intro name c held
  have before : st.holders.get? name = some c := holders ▸ held
  exact (h name c before).keeps ⟨globals, fun _ _ old => holders ▸ old⟩ held

theorem Chosen.of_alike (h : Chosen ctx st) (same : next.Alike st) : Chosen ctx next :=
  h.of_same same.globals same.holders

theorem Chosen.injective (h : Chosen ctx st) {a b : String} (first : st.holders.get? a = some c)
    (second : st.holders.get? b = some c) : a = b :=
  (h a c first).unique (h b c second)

theorem Chosen.unclaimed (h : Chosen ctx st) (held : st.holders.get? name = some c) :
    name ∉ ctx.assignedAnywhere ∧ name ∉ ctx.declared ∧ name ∉ st.globals := by
  simpa [State.isUserName, and_assoc] using (h name c held).not_user

theorem aliasFor_globals {value : Node} (made : st.aliasFor ctx c value = (name, next)) :
    next.globals = st.globals := by
  rcases aliasFor_cases made with ⟨rfl, -⟩ | ⟨rfl, -⟩ <;> rfl

theorem aliasFor_chosen {value : Node} (h : Chosen ctx st)
    (made : st.aliasFor ctx c value = (name, next)) : Chosen ctx next := by
  have kept : Keeps st next := ⟨aliasFor_globals made, fun _ _ old => aliasFor_keeps made old⟩
  rcases aliasFor_cases made with ⟨rfl, -⟩ | ⟨rfl, rfl, -⟩
  · exact h
  · intro other held now
    have first : st.FirstFree ctx held other := by
      rw [OrderedMap.get?_insert] at now
      split at now
      · rename_i same
        cases now
        exact same ▸ freshAlias_firstFree st ctx c
      · exact h other held now
    exact first.keeps kept now

theorem read_chosen {span : Span} {resolution : Resolution} (h : Chosen ctx st)
    (read : st.read ctx span name = .ok (resolution, next)) : Chosen ctx next := by
  rcases read_cases read with ⟨-, -, same⟩ | ⟨-, same⟩ | ⟨_, _, -, -, -, -, made, same⟩
  · exact h.of_alike same
  · exact h.of_alike same
  · exact (aliasFor_chosen h made).of_alike same

theorem cacheFilter_chosen {span : Span} {operand : Node} {filter cached : Option String}
    (h : Chosen ctx st) (cache : st.cacheFilter ctx span operand filter = (cached, next)) :
    Chosen ctx next := by
  rcases cacheFilter_cases cache with ⟨-, rfl⟩ | ⟨_, _, -, -, -, -, made⟩
  · exact h
  · exact aliasFor_chosen h made

end Choice

theorem Operands.chosen {ctx : Context} {st last : State} {es es' : List Node}
    (h : Operands ctx st es es' last) (start : Chosen ctx st) : Chosen ctx last := by
  induction h with
  | nil => exact start
  | identifier _ _ _ ih | literal _ _ _ ih => exact ih start
  | placeholder read _ ih => exact ih (read_chosen start read)
  | binary _ _ _ _ _ first second later => exact later (second (first start))
  | filter _ check cache _ inner later =>
    have checked := (inner start).of_alike (checkFilter_alike check)
    exact later (cacheFilter_chosen checked cache)
  | call _ _ _ _ first second later => exact later (second (first start))
  | list _ _ _ inner later => exact later (inner start)

theorem Operands.globals_eq {ctx : Context} {st last : State} {es es' : List Node}
    (h : Operands ctx st es es' last) : last.globals = st.globals := by
  induction h with
  | nil => rfl
  | identifier _ _ _ ih | literal _ _ _ ih => exact ih
  | placeholder read _ ih =>
    rcases read_cases read with ⟨-, -, same⟩ | ⟨-, same⟩ | ⟨_, _, -, -, -, -, made, same⟩
    · exact ih.trans same.globals
    · exact ih.trans same.globals
    · exact ih.trans (same.globals.trans (aliasFor_globals made))
  | binary _ _ _ _ _ first second later => exact later.trans (second.trans first)
  | filter _ check cache _ inner later =>
    have checked := (checkFilter_alike check).globals.trans inner
    rcases cacheFilter_cases cache with ⟨-, rfl⟩ | ⟨_, _, -, -, -, -, made⟩
    · exact later.trans checked
    · exact later.trans ((aliasFor_globals made).trans checked)
  | call _ _ _ _ first second later => exact later.trans (second.trans first)
  | list _ _ _ inner later => exact later.trans inner

/-- Only a template changes the names that are given from outside. -/
theorem Statements.globals_eq {ctx : Context} {st last : State} {source out : List Node}
    (h : Statements ctx st source out last) : last.globals = st.globals := by
  induction h with
  | nil => rfl
  | function _ _ _ _ inside later => exact later.trans inside
  | branch _ test _ _ thenSide later => exact later.trans (thenSide.trans test.globals_eq)
  | branches _ test _ _ _ thenSide elseSide later =>
    exact later.trans (elseSide.trans (thenSide.trans test.globals_eq))
  | assign _ _ inner _ later | write _ inner _ later | expression _ inner _ later =>
    exact later.trans inner.globals_eq

/-- A function inside has names of its own, and the names of the code around it hold again behind
it. -/
theorem Statements.chosen {ctx : Context} {st last : State} {source out : List Node}
    (h : Statements ctx st source out last) (start : Chosen ctx st) : Chosen ctx last := by
  induction h with
  | nil => exact start
  | function _ _ inside _ _ later => exact later (start.of_same inside.globals_eq rfl)
  | branch _ test _ _ thenSide later => exact later (thenSide (test.chosen start))
  | branches _ test _ _ _ thenSide elseSide later =>
    exact later (elseSide (thenSide (test.chosen start)))
  | assign _ _ inner _ later | write _ inner _ later | expression _ inner _ later =>
    exact later (inner.chosen start)

end Analysis

end Stencil
