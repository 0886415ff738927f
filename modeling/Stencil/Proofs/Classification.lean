import Stencil.Proofs.StaleFilters

/-!
# What a ledger of filters answers

A ledger keeps three things about a variable: how often it was assigned, whether it was filtered
since, and the number of assignments before its first filter. They tell what the whole history of
the variable has to tell about its next filter.

* `FilterHistory.Tells`: the three things, read off the calls that were made so far. Each call keeps
  them (`FilterLedger.tells_call`).
* `FilterHistory.Tells.classified`: so the next filter is answered by the calls before it.
* `FilterLedger.answers_about`: what is answered about a variable depends on its own calls alone.
* `ledger_classifies_filters`: the answers over every history.
-/

namespace Stencil

/-- A call of a ledger: a variable is assigned, or it is filtered. -/
inductive LedgerCall (α : Type) where
  | assign (name : α)
  | filter (name : α)
deriving DecidableEq, Repr

namespace LedgerCall

variable {α : Type} [DecidableEq α]

/-- The variable of a call. -/
def name : LedgerCall α → α
  | .assign name | .filter name => name

/-- How often some calls assign a variable. -/
def timesAssigned (name : α) (calls : List (LedgerCall α)) : Nat := calls.count (.assign name)

/-- The calls in front of the first filter of a variable, or all of them. -/
def untilFilter (name : α) (calls : List (LedgerCall α)) : List (LedgerCall α) :=
  calls.takeWhile (· ≠ .filter name)

/-- One of the calls filters a variable that was assigned so many times before. -/
def FilteredAt (name : α) (epoch : Nat) (calls : List (LedgerCall α)) : Prop :=
  ∃ early, early ++ [.filter name] <+: calls ∧ timesAssigned name early = epoch

variable {name : α} {epoch : Nat} {calls : List (LedgerCall α)} {call : LedgerCall α}

theorem timesAssigned_of_ne (calls : List (LedgerCall α)) (other : call ≠ .assign name) :
    timesAssigned name (calls ++ [call]) = timesAssigned name calls := by
  rw [timesAssigned, List.count_append, List.count_singleton, if_neg (by simpa using other)]
  rfl

theorem timesAssigned_self (name : α) (calls : List (LedgerCall α)) :
    timesAssigned name (calls ++ [.assign name]) = timesAssigned name calls + 1 := by
  rw [timesAssigned, List.count_append, List.count_singleton_self]
  rfl

theorem FilteredAt.le (h : FilteredAt name epoch calls) : epoch ≤ timesAssigned name calls := by
  obtain ⟨early, stands, rfl⟩ := h
  exact ((List.prefix_append _ _).trans stands).sublist.count_le _

theorem filteredAt_append_singleton :
    FilteredAt name epoch (calls ++ [call]) ↔
      FilteredAt name epoch calls ∨ call = .filter name ∧ timesAssigned name calls = epoch := by
  unfold FilteredAt
  simp only [List.prefix_concat_iff]
  constructor
  · rintro ⟨early, last | before, count⟩
    · obtain ⟨rfl, same⟩ := List.append_inj' last rfl
      exact .inr ⟨(List.cons.inj same).1.symm, count⟩
    · exact .inl ⟨early, before, count⟩
  · rintro (⟨early, before, count⟩ | ⟨rfl, count⟩)
    · exact ⟨early, .inr before, count⟩
    · exact ⟨calls, .inl rfl, count⟩

theorem untilFilter_append_of_mem (before : .filter name ∈ calls) (more : List (LedgerCall α)) :
    untilFilter name (calls ++ more) = untilFilter name calls := by
  induction calls with
  | nil => cases before
  | cons first rest ih =>
    by_cases same : first = .filter name
    · simp [untilFilter, same]
    · have later := ih ((List.mem_cons.1 before).resolve_left (Ne.symm same))
      unfold untilFilter at later ⊢
      rw [List.cons_append, List.takeWhile_cons_of_pos (by simpa using same), later,
        List.takeWhile_cons_of_pos (by simpa using same)]

/-- A first filter has all calls in front of it. -/
theorem untilFilter_append_self (new : .filter name ∉ calls) :
    untilFilter name (calls ++ [.filter name]) = calls := by
  have others : ∀ call ∈ calls, decide (call ≠ .filter name) = true := by
    intro call member
    exact decide_eq_true fun same => new (same ▸ member)
  rw [untilFilter, List.takeWhile_append_of_pos others, List.takeWhile_cons_of_neg (by simp),
    List.append_nil]

/-- The first filter of a variable is one of its filters. -/
theorem filteredAt_untilFilter (before : .filter name ∈ calls) :
    FilteredAt name (timesAssigned name (untilFilter name calls)) calls := by
  obtain ⟨early, late, rfl, new⟩ := List.eq_append_cons_of_mem before
  have front : untilFilter name (early ++ .filter name :: late) = early := by
    rw [List.append_cons, untilFilter_append_of_mem (by simp), untilFilter_append_self new]
  exact ⟨early, ⟨late, (List.append_cons _ _ _).symm⟩, by rw [front]⟩

/-- How often a variable was assigned before its first filter, if it has one. -/
def firstEpoch? (name : α) (calls : List (LedgerCall α)) : Option Nat :=
  if .filter name ∈ calls then some (timesAssigned name (untilFilter name calls)) else none

theorem firstEpoch?_append_of_ne (other : call ≠ .filter name) :
    firstEpoch? name (calls ++ [call]) = firstEpoch? name calls := by
  unfold firstEpoch?
  by_cases before : .filter name ∈ calls
  · rw [if_pos before, if_pos (List.mem_append_left _ before), untilFilter_append_of_mem before]
  · rw [if_neg before, if_neg]
    simpa [before] using Ne.symm other

theorem firstEpoch?_append_self (name : α) (calls : List (LedgerCall α)) :
    firstEpoch? name (calls ++ [.filter name]) =
      some ((firstEpoch? name calls).getD (timesAssigned name calls)) := by
  unfold firstEpoch?
  rw [if_pos (by simp)]
  by_cases before : .filter name ∈ calls
  · rw [if_pos before, untilFilter_append_of_mem before]
    rfl
  · rw [if_neg before, untilFilter_append_self before]
    rfl

theorem firstEpoch?_eq_some {first : Nat} (h : firstEpoch? name calls = some first) :
    .filter name ∈ calls ∧ first = timesAssigned name (untilFilter name calls) := by
  unfold firstEpoch? at h
  split at h
  · rename_i before
    exact ⟨before, (Option.some.inj h).symm⟩
  · cases h

theorem firstEpoch?_eq_none (h : firstEpoch? name calls = none) : .filter name ∉ calls := by
  intro before
  rw [firstEpoch?, if_pos before] at h
  cases h

end LedgerCall

open LedgerCall

/-- What the calls before a filter of a variable say about it: whether the value that the variable
has now was filtered before, or else an earlier one. -/
structure FilterUse.Classifies {α : Type} [DecidableEq α] (name : α) (before : List (LedgerCall α))
    (use : FilterUse) : Prop where
  again : use = .again ↔ FilteredAt name (timesAssigned name before) before
  stale : use ≠ .again → .filter name ∈ before → ∃ previous epoch, use = .stale previous epoch ∧
    epoch.toNat = timesAssigned name before ∧
    previous.toNat = timesAssigned name (untilFilter name before) ∧ previous < epoch
  fresh : use ≠ .again → .filter name ∉ before → use = .fresh

namespace FilterHistory

variable {α : Type} [DecidableEq α] {name : α} {calls : List (LedgerCall α)} {h : FilterHistory}

/-- The history of a variable tells of the calls that were made. -/
structure Tells (h : FilterHistory) (name : α) (calls : List (LedgerCall α)) : Prop where
  epoch : h.epoch.toNat = timesAssigned name calls
  filtered : h.filtered = true ↔ FilteredAt name (timesAssigned name calls) calls
  first : h.first.map UInt32.toNat = firstEpoch? name calls

theorem tells_start (name : α) : start.Tells name [] := by
  refine ⟨rfl, ?_, rfl⟩
  simp [start, FilteredAt]

theorem Tells.other (tells : h.Tells name calls) {call : LedgerCall α} (other : call.name ≠ name) :
    h.Tells name (calls ++ [call]) := by
  have notAssign : call ≠ .assign name := fun same => other (same ▸ rfl)
  have notFilter : call ≠ .filter name := fun same => other (same ▸ rfl)
  have count := timesAssigned_of_ne calls notAssign
  refine ⟨tells.epoch.trans count.symm, ?_, ?_⟩
  · rw [tells.filtered, count, filteredAt_append_singleton]
    simp [notFilter]
  · rw [tells.first, firstEpoch?_append_of_ne notFilter]

theorem Tells.assign (tells : h.Tells name calls)
    (few : timesAssigned name (calls ++ [.assign name]) < 2 ^ 32) :
    h.assign.Tells name (calls ++ [.assign name]) := by
  rw [timesAssigned_self, ← tells.epoch] at few
  refine ⟨?_, ?_, ?_⟩
  · rw [toNat_assign few, tells.epoch, timesAssigned_self]
  · -- no filter has seen the new number of assignments
    refine ⟨fun filtered => (Bool.false_ne_true filtered).elim, fun again => ?_⟩
    rw [timesAssigned_self, filteredAt_append_singleton] at again
    rcases again with before | ⟨same, -⟩
    · exact absurd before.le (by omega)
    · cases same
  · rw [firstEpoch?_append_of_ne (by simp)]
    exact tells.first

/-- No filter has seen the value of now. -/
theorem Tells.not_filteredAt (tells : h.Tells name calls) (unfiltered : h.filtered = false) :
    ¬ FilteredAt name (timesAssigned name calls) calls := by
  rw [← tells.filtered, unfiltered]
  exact Bool.false_ne_true

/-- A variable that was filtered, but not since it was assigned, has been assigned since. -/
theorem Tells.previous_lt (tells : h.Tells name calls) {previous : UInt32}
    (first : h.first = some previous) (unfiltered : h.filtered = false) : previous < h.epoch := by
  have told := tells.first
  rw [first] at told
  obtain ⟨before, previous_eq⟩ := firstEpoch?_eq_some told.symm
  have earlier := filteredAt_untilFilter before
  have different : timesAssigned name (untilFilter name calls) ≠ timesAssigned name calls := by
    intro same
    rw [same] at earlier
    exact tells.not_filteredAt unfiltered earlier
  have bound := earlier.le
  rw [UInt32.lt_iff_toNat_lt, previous_eq, tells.epoch]
  omega

/-- A filter, by what was recorded. The ledger looks whether the first filter came before the last
assignment; where it looks, this is always so. -/
theorem Tells.filter_cases (tells : h.Tells name calls) :
    (h.filtered = true ∧ h.filter = (h, .again)) ∨
    (h.filtered = false ∧ h.first = none ∧
      h.filter = ({ h with filtered := true, first := some h.epoch }, .fresh)) ∨
    ∃ previous, h.filtered = false ∧ h.first = some previous ∧ previous < h.epoch ∧
      h.filter = ({ h with filtered := true }, .stale previous h.epoch) := by
  cases filtered : h.filtered with
  | true => exact .inl ⟨rfl, by simp [FilterHistory.filter, filtered]⟩
  | false =>
    cases first : h.first with
    | none => exact .inr (.inl ⟨rfl, rfl, by simp [FilterHistory.filter, filtered, first]⟩)
    | some previous =>
      have before := tells.previous_lt first filtered
      exact .inr (.inr ⟨previous, rfl, rfl, before, by
        simp [FilterHistory.filter, filtered, first, before]⟩)

theorem Tells.filter (tells : h.Tells name calls) :
    h.filter.1.Tells name (calls ++ [.filter name]) := by
  have count : timesAssigned name (calls ++ [.filter name]) = timesAssigned name calls :=
    timesAssigned_of_ne calls (by simp)
  have here : FilteredAt name (timesAssigned name (calls ++ [.filter name]))
      (calls ++ [.filter name]) := filteredAt_append_singleton.2 (.inr ⟨rfl, count.symm⟩)
  have told := tells.first
  rcases tells.filter_cases with ⟨filtered, same⟩ | ⟨unfiltered, first, same⟩ |
    ⟨previous, unfiltered, first, -, same⟩
  · rw [same]
    refine ⟨tells.epoch.trans count.symm, iff_of_true filtered here, ?_⟩
    obtain ⟨early, stands, -⟩ := tells.filtered.1 filtered
    have before : .filter name ∈ calls := stands.subset (by simp)
    rw [firstEpoch?_append_self, told, firstEpoch?, if_pos before]
    rfl
  · rw [same]
    refine ⟨tells.epoch.trans count.symm, iff_of_true rfl here, ?_⟩
    rw [first] at told
    rw [firstEpoch?_append_self, ← told]
    exact congrArg some tells.epoch
  · rw [same]
    refine ⟨tells.epoch.trans count.symm, iff_of_true rfl here, ?_⟩
    rw [firstEpoch?_append_self, ← told, first]
    rfl

/-- The next filter is answered by the calls before it. -/
theorem Tells.classified (tells : h.Tells name calls) : h.filter.2.Classifies name calls := by
  have told := tells.first
  rcases tells.filter_cases with ⟨filtered, same⟩ | ⟨unfiltered, first, same⟩ |
    ⟨previous, unfiltered, first, before, same⟩
  · rw [same]
    exact ⟨iff_of_true rfl (tells.filtered.1 filtered), fun other => absurd rfl other,
      fun other => absurd rfl other⟩
  · rw [first] at told
    rw [same]
    exact ⟨iff_of_false (by simp) (tells.not_filteredAt unfiltered),
      fun _ before => absurd before (firstEpoch?_eq_none told.symm), fun _ _ => rfl⟩
  · rw [first] at told
    obtain ⟨among, previous_eq⟩ := firstEpoch?_eq_some told.symm
    rw [same]
    exact ⟨iff_of_false (by simp) (tells.not_filteredAt unfiltered),
      fun _ _ => ⟨previous, h.epoch, rfl, tells.epoch, previous_eq, before⟩,
      fun _ new => absurd among new⟩

end FilterHistory

namespace FilterLedger

variable {α : Type} [DecidableEq α] {ledger ledger' : FilterLedger α} {name : α}
  {passed calls : List (LedgerCall α)}

/-- Makes a call, which is answered if it is a filter. -/
def call (ledger : FilterLedger α) : LedgerCall α → FilterLedger α × Option FilterUse
  | .assign name => (ledger.assign name, none)
  | .filter name => ((ledger.filter name).1, some (ledger.filter name).2)

/-- The answers to some calls, one after another. -/
def answers (ledger : FilterLedger α) : List (LedgerCall α) → List (Option FilterUse)
  | [] => []
  | call :: rest => (ledger.call call).2 :: (ledger.call call).1.answers rest

/-- The answers to those of the calls that are about a variable. -/
def answersAbout (ledger : FilterLedger α) (name : α) (calls : List (LedgerCall α)) :
    List (Option FilterUse) :=
  ((calls.zip (ledger.answers calls)).filter (·.1.name = name)).map Prod.snd

theorem answersAbout_cons (ledger : FilterLedger α) (name : α) (call : LedgerCall α)
    (rest : List (LedgerCall α)) :
    ledger.answersAbout name (call :: rest) =
      if call.name = name then (ledger.call call).2 :: (ledger.call call).1.answersAbout name rest
      else (ledger.call call).1.answersAbout name rest := by
  unfold answersAbout
  rw [answers, List.zip_cons_cons, List.filter_cons]
  by_cases same : call.name = name <;> simp [same]

theorem history_call_of_ne {call : LedgerCall α} (other : call.name ≠ name) :
    (ledger.call call).1.history name = ledger.history name := by
  cases call with
  | assign target => exact (history_assign ledger target name).trans (if_neg other)
  | filter target => exact (history_filter ledger target name).trans (if_neg other)

/-- What a call of a variable does to its history and answers does not depend on other histories. -/
theorem call_eq_of_history (same : ledger'.history name = ledger.history name)
    {call : LedgerCall α} (here : call.name = name) :
    (ledger'.call call).2 = (ledger.call call).2 ∧
      (ledger'.call call).1.history name = (ledger.call call).1.history name := by
  subst here
  cases call with
  | assign target =>
    refine ⟨rfl, ?_⟩
    simp only [call, history_assign, LedgerCall.name, if_true] at same ⊢
    rw [same]
  | filter target =>
    simp only [LedgerCall.name] at same
    refine ⟨?_, ?_⟩
    · simp only [call, filter, same]
    · simp only [call, history_filter, LedgerCall.name, if_true, same]

/-- What is answered about a variable depends on its own calls alone. -/
theorem answers_about (same : ledger'.history name = ledger.history name) :
    ledger.answersAbout name calls = ledger'.answers (calls.filter (·.name = name)) := by
  induction calls generalizing ledger ledger' with
  | nil => rfl
  | cons call rest ih =>
    rw [answersAbout_cons]
    by_cases here : call.name = name
    · obtain ⟨answer, next⟩ := call_eq_of_history same here
      rw [if_pos here, List.filter_cons_of_pos (by simpa using here), answers, ih next, answer]
    · rw [if_neg here, List.filter_cons_of_neg (by simpa using here)]
      exact ih (same.trans (history_call_of_ne here).symm)

/-- A call keeps the histories true. -/
theorem tells_call (call : LedgerCall α) (tells : (ledger.history name).Tells name passed)
    (few : timesAssigned name (passed ++ [call]) < 2 ^ 32) :
    ((ledger.call call).1.history name).Tells name (passed ++ [call]) := by
  by_cases here : call.name = name
  · subst here
    cases call with
    | assign target =>
      simp only [FilterLedger.call, history_assign, LedgerCall.name, if_true] at tells few ⊢
      exact tells.assign few
    | filter target =>
      simp only [FilterLedger.call, history_filter, LedgerCall.name, if_true] at tells ⊢
      exact tells.filter
  · rw [history_call_of_ne here]
    exact tells.other here

/-- A run of calls is answered, filter by filter, by the calls before. -/
theorem answers_classify (tells : ∀ name, (ledger.history name).Tells name passed)
    (few : ∀ name, timesAssigned name (passed ++ calls) < 2 ^ 32) {i : Nat}
    (here : calls[i]? = some (.filter name)) :
    ∃ use, (ledger.answers calls)[i]? = some (some use) ∧
      use.Classifies name (passed ++ calls.take i) := by
  induction calls generalizing ledger passed i with
  | nil => simp at here
  | cons call rest ih =>
    cases i with
    | zero =>
      cases here
      refine ⟨(ledger.filter name).2, rfl, ?_⟩
      rw [List.take_zero, List.append_nil]
      exact (tells name).classified
    | succ i =>
      have room (name : α) : timesAssigned name (passed ++ [call]) < 2 ^ 32 := by
        have total := few name
        simp only [timesAssigned, List.count_append, List.count_cons, List.count_nil] at total ⊢
        omega
      have next (name : α) := tells_call call (tells name) (room name)
      have later := ih next (by simpa using few) here
      simpa [answers] using later

end FilterLedger

/-- Over every history of calls, a filter of a variable is answered by the calls before it: it finds
the value of now if and only if the variable was filtered when it had been assigned as often as now;
else a stale one if it was filtered at all, namely by its very first filter, which came before the
last assignment; and else none. What is answered about a variable is what its own calls alone come
to. -/
theorem ledger_classifies_filters {α : Type} [DecidableEq α] (calls : List (LedgerCall α))
    (few : ∀ name, timesAssigned name calls < 2 ^ 32) :
    (∀ (i : Nat) (name : α), calls[i]? = some (.filter name) →
      ∃ use : FilterUse, ((∅ : FilterLedger α).answers calls)[i]? = some (some use) ∧
        use.Classifies name (calls.take i)) ∧
    ∀ name, (∅ : FilterLedger α).answersAbout name calls =
      (∅ : FilterLedger α).answers (calls.filter (·.name = name)) := by
  refine ⟨fun i name here => ?_, fun name => FilterLedger.answers_about rfl⟩
  have start (name : α) : ((∅ : FilterLedger α).history name).Tells name [] :=
    FilterHistory.tells_start name
  have classified := FilterLedger.answers_classify start few here
  rwa [List.nil_append] at classified

/-- Two variables by turns. The first is filtered after one assignment and again after three, the
second is filtered before it is assigned. -/
def alternating : List (LedgerCall String) :=
  [.assign "line", .filter "line", .filter "page", .assign "line", .assign "page", .assign "line",
    .filter "line", .filter "line", .filter "page"]

/-- The second value of the first variable is never filtered, and the third is compared with the
first. -/
theorem alternating_classified :
    (∅ : FilterLedger String).answers alternating =
      [none, some .fresh, some .fresh, none, none, none, some (.stale 1 3), some .again,
        some (.stale 0 1)] ∧
    (∀ name, timesAssigned name alternating < 2 ^ 32) ∧
    (FilterUse.stale 1 3).Classifies "line" (alternating.take 6) ∧
    (∅ : FilterLedger String).answersAbout "page" alternating =
      (∅ : FilterLedger String).answers
        [.filter "page", .assign "page", .filter "page"] := by
  have few (name : String) : timesAssigned name alternating < 2 ^ 32 :=
    Nat.lt_of_le_of_lt List.count_le_length (by decide)
  have answers : (∅ : FilterLedger String).answers alternating =
      [none, some .fresh, some .fresh, none, none, none, some (.stale 1 3), some .again,
        some (.stale 0 1)] := by decide
  obtain ⟨classified, alone⟩ := ledger_classifies_filters alternating few
  obtain ⟨use, answer, classifies⟩ := classified 6 "line" rfl
  rw [answers] at answer
  cases answer
  exact ⟨answers, few, classifies, alone "page"⟩

end Stencil
