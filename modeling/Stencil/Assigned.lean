/-!
# Definitely assigned names

The set of the names that are assigned on every path that leads to a point of a program. At a
conditional the set is handed to each branch, and afterwards the outcomes of the branches are
joined: a name is promoted into the set when every branch assigned it.

A set is its members in increasing order, so two sets with the same members are equal.

Main statements: `mem_insert`, `mem_join`, and `pairwise_promoted`, that the promoted names are
listed in increasing order.
-/

namespace Stencil

/-- A set of names, in increasing order. -/
@[ext]
structure Assigned (α : Type) [Ord α] where
  toList : List α
  sorted : toList.Pairwise fun a b => compare a b = .lt
deriving DecidableEq

namespace Assigned

variable {α : Type} [Ord α]

/-- The set without names. -/
def empty : Assigned α := ⟨[], List.Pairwise.nil⟩

instance : EmptyCollection (Assigned α) := ⟨empty⟩

instance : Inhabited (Assigned α) := ⟨∅⟩

instance : Membership α (Assigned α) := ⟨fun s a => a ∈ s.toList⟩

theorem mem_def {s : Assigned α} {a : α} : a ∈ s ↔ a ∈ s.toList := Iff.rfl

@[simp]
theorem not_mem_empty (a : α) : a ∉ (∅ : Assigned α) := List.not_mem_nil

instance [DecidableEq α] (s : Assigned α) (a : α) : Decidable (a ∈ s) :=
  inferInstanceAs (Decidable (a ∈ s.toList))

/-- The number of names. -/
def size (s : Assigned α) : Nat := s.toList.length

/-- Whether the set has no names. -/
def isEmpty (s : Assigned α) : Bool := s.toList.isEmpty

/-- Puts a name at its place in an increasing list. -/
def place (a : α) : List α → List α
  | [] => [a]
  | b :: rest =>
    match compare a b with
    | .lt => a :: b :: rest
    | .eq => b :: rest
    | .gt => b :: place a rest

section Promotion

variable [DecidableEq α]

/-- The names of an outcome that the set has not. -/
def contribution (s outcome : Assigned α) : List α := outcome.toList.filter (· ∉ s)

/-- Those of some names that an outcome has too. -/
def narrow (shared : List α) (outcome : Assigned α) : List α := shared.filter (· ∈ outcome)

/-- The names that every outcome has and the set has not: the first outcome contributes names, and
the others narrow them down one after another. Without outcomes there are none. -/
def promoted (s : Assigned α) : List (Assigned α) → List α
  | [] => []
  | first :: rest => rest.foldl narrow (s.contribution first)

@[simp]
theorem mem_contribution {s outcome : Assigned α} {a : α} :
    a ∈ s.contribution outcome ↔ a ∈ outcome ∧ a ∉ s := by
  simp [contribution, mem_def (s := outcome)]

@[simp]
theorem mem_narrow {shared : List α} {outcome : Assigned α} {a : α} :
    a ∈ narrow shared outcome ↔ a ∈ shared ∧ a ∈ outcome := by
  simp [narrow]

/-- What is left when all outcomes have narrowed the names down. -/
theorem mem_foldl_narrow {outcomes : List (Assigned α)} {shared : List α} {a : α} :
    a ∈ outcomes.foldl narrow shared ↔ a ∈ shared ∧ ∀ outcome ∈ outcomes, a ∈ outcome := by
  induction outcomes generalizing shared with
  | nil => simp
  | cons outcome rest ih => rw [List.foldl_cons, ih, mem_narrow, List.forall_mem_cons, and_assoc]

theorem foldl_narrow_sublist (outcomes : List (Assigned α)) (shared : List α) :
    (outcomes.foldl narrow shared).Sublist shared := by
  induction outcomes generalizing shared with
  | nil => exact List.Sublist.refl _
  | cons outcome rest ih => exact (ih _).trans List.filter_sublist

theorem pairwise_promoted (s : Assigned α) (outcomes : List (Assigned α)) :
    (s.promoted outcomes).Pairwise fun a b => compare a b = .lt := by
  cases outcomes with
  | nil => exact List.Pairwise.nil
  | cons first rest => exact (first.sorted.filter _).sublist (foldl_narrow_sublist rest _)

theorem mem_promoted {s : Assigned α} {outcomes : List (Assigned α)} {a : α} :
    a ∈ s.promoted outcomes ↔
      a ∉ s ∧ outcomes ≠ [] ∧ ∀ outcome ∈ outcomes, a ∈ outcome := by
  cases outcomes with
  | nil => simp [promoted]
  | cons first rest =>
    rw [promoted, mem_foldl_narrow, mem_contribution, List.forall_mem_cons, and_right_comm]
    simp [and_comm]

end Promotion

variable [Std.LawfulEqOrd α]

theorem mem_place {a b : α} {names : List α} : b ∈ place a names ↔ b = a ∨ b ∈ names := by
  induction names with
  | nil => simp [place]
  | cons c rest ih =>
    unfold place
    cases order : compare a c with
    | lt => simp
    | eq =>
      have same : a = c := Std.LawfulEqOrd.eq_of_compare order
      simp [same]
    | gt =>
      simp only [List.mem_cons, ih]
      exact or_left_comm

variable [Std.TransOrd α]

theorem pairwise_place (a : α) {names : List α}
    (h : names.Pairwise fun a b => compare a b = .lt) :
    (place a names).Pairwise fun a b => compare a b = .lt := by
  induction names with
  | nil => exact List.pairwise_singleton _ _
  | cons c rest ih =>
    obtain ⟨least, later⟩ := List.pairwise_cons.1 h
    unfold place
    cases order : compare a c with
    | lt =>
      refine List.pairwise_cons.2 ⟨?_, h⟩
      intro b hb
      rcases List.mem_cons.1 hb with rfl | hb
      · exact order
      · exact Std.TransCmp.lt_trans order (least b hb)
    | eq => exact h
    | gt =>
      refine List.pairwise_cons.2 ⟨?_, ih later⟩
      intro b hb
      rcases mem_place.1 hb with rfl | hb
      · exact Std.OrientedCmp.lt_of_gt order
      · exact least b hb

/-- Adds a name. -/
def insert (s : Assigned α) (a : α) : Assigned α := ⟨place a s.toList, pairwise_place a s.sorted⟩

/-- Adds names one after another. -/
def extend (s : Assigned α) (names : List α) : Assigned α := names.foldl insert s

/-- The set of the names of a list. -/
def ofList (names : List α) : Assigned α := (∅ : Assigned α).extend names

@[simp]
theorem mem_insert {s : Assigned α} {a b : α} : b ∈ s.insert a ↔ b ∈ s ∨ b = a := by
  rw [mem_def, mem_def]
  exact mem_place.trans or_comm

@[simp]
theorem mem_extend {s : Assigned α} {names : List α} {b : α} :
    b ∈ s.extend names ↔ b ∈ s ∨ b ∈ names := by
  induction names generalizing s with
  | nil => simp [extend]
  | cons n rest ih =>
    have step : s.extend (n :: rest) = (s.insert n).extend rest := rfl
    rw [step, ih, mem_insert, List.mem_cons, or_assoc]

@[simp]
theorem mem_ofList {names : List α} {b : α} : b ∈ ofList names ↔ b ∈ names := by
  simp [ofList]

variable [DecidableEq α]

/-- Promotes into the set what every outcome has. -/
def join (s : Assigned α) (outcomes : List (Assigned α)) : Assigned α :=
  s.extend (s.promoted outcomes)

/-- A joined set has what the set had, and what every outcome has. -/
theorem mem_join {s : Assigned α} {outcomes : List (Assigned α)} {a : α} :
    a ∈ s.join outcomes ↔ a ∈ s ∨ (outcomes ≠ [] ∧ ∀ outcome ∈ outcomes, a ∈ outcome) := by
  rw [join, mem_extend, mem_promoted]
  by_cases h : a ∈ s <;> simp [h]

end Assigned

end Stencil
