import Stencil.Ordered.Map

/-!
# Filters between assignments

A cache of filtered values that is keyed by the name of a variable goes stale when the variable is
filtered, assigned again and filtered again. The ledger counts the assignments of each variable and
tells, at each filter, whether it would find a stale value.
-/

namespace Stencil

/-- What a filter of a variable finds in a cache that is keyed by the variable's name. -/
inductive FilterUse where
  /-- Nothing: the variable was not filtered before. -/
  | fresh
  /-- A value that is still right. -/
  | again
  /-- A value that was filtered after assignment number `previous`, while the variable holds the
  value of assignment number `epoch`. -/
  | stale (previous epoch : UInt32)
deriving DecidableEq, Repr

/-- The history of one variable. -/
structure FilterHistory where
  /-- How often the variable was assigned. -/
  epoch : UInt32
  /-- Whether the variable was filtered since its last assignment. -/
  filtered : Bool
  /-- The number of assignments before the first filter. -/
  first : Option UInt32
deriving DecidableEq, Repr

namespace FilterHistory

/-- The history of a variable that was neither assigned nor filtered. -/
def start : FilterHistory := ⟨0, false, none⟩

/-- An assignment. -/
def assign (h : FilterHistory) : FilterHistory := { h with epoch := h.epoch + 1, filtered := false }

/-- A filter, and what it finds. Only the first filter after an assignment can find a stale
value. -/
def filter (h : FilterHistory) : FilterHistory × FilterUse :=
  if h.filtered then (h, .again)
  else
    match h.first with
    | none => ({ h with filtered := true, first := some h.epoch }, .fresh)
    | some previous =>
      ({ h with filtered := true },
        if previous < h.epoch then .stale previous h.epoch else .again)

end FilterHistory

/-- The histories of variables. -/
@[ext]
structure FilterLedger (α : Type) where
  histories : OrderedMap α FilterHistory

namespace FilterLedger

variable {α : Type}

/-- The ledger in which nothing happened. -/
def empty : FilterLedger α := ⟨∅⟩

instance : EmptyCollection (FilterLedger α) := ⟨empty⟩

variable [DecidableEq α]

/-- The history of a variable. -/
def history (ledger : FilterLedger α) (name : α) : FilterHistory :=
  (ledger.histories.get? name).getD .start

/-- Records an assignment. -/
def assign (ledger : FilterLedger α) (name : α) : FilterLedger α :=
  ⟨ledger.histories.insert name (ledger.history name).assign⟩

/-- Records a filter, and tells what it finds. -/
def filter (ledger : FilterLedger α) (name : α) : FilterLedger α × FilterUse :=
  let (history, use) := (ledger.history name).filter
  (⟨ledger.histories.insert name history⟩, use)

theorem history_assign (ledger : FilterLedger α) (name other : α) :
    (ledger.assign name).history other =
      if name = other then (ledger.history name).assign else ledger.history other := by
  by_cases h : name = other <;> simp [history, assign, h]

theorem history_filter (ledger : FilterLedger α) (name other : α) :
    (ledger.filter name).1.history other =
      if name = other then (ledger.history name).filter.1 else ledger.history other := by
  by_cases h : name = other <;> simp [history, filter, h]

end FilterLedger

end Stencil
