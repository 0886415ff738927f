/-!
# Ordered sets

A finite set that remembers the order in which its members first arrived. Inserting a member
that is already there changes nothing, and erasing one keeps the order of the rest. The
absence of repetitions is part of the type, so two sets with the same list of members are equal.

Main statements: `mem_insert`, `mem_erase`, `mem_extend` and `mem_ofList` say which members an
operation leaves; `ofList_toList` says that a set is rebuilt from its own list.
-/

namespace Stencil

/-- A set of distinct members in order of first arrival. -/
@[ext]
structure OrderedSet (α : Type) where
  toList : List α
  nodup : toList.Nodup
deriving DecidableEq

namespace OrderedSet

variable {α : Type}

/-- The set with no members. -/
def empty : OrderedSet α := ⟨[], List.nodup_nil⟩

instance : EmptyCollection (OrderedSet α) := ⟨empty⟩

instance : Inhabited (OrderedSet α) := ⟨∅⟩

instance : Membership α (OrderedSet α) := ⟨fun s a => a ∈ s.toList⟩

theorem mem_def {s : OrderedSet α} {a : α} : a ∈ s ↔ a ∈ s.toList := Iff.rfl

@[simp]
theorem toList_empty : (∅ : OrderedSet α).toList = [] := rfl

variable [DecidableEq α]

instance (s : OrderedSet α) (a : α) : Decidable (a ∈ s) :=
  inferInstanceAs (Decidable (a ∈ s.toList))

/-- Adds a member at the end, unless it is there already. -/
def insert (s : OrderedSet α) (a : α) : OrderedSet α :=
  if h : a ∈ s.toList then s
  else
    ⟨s.toList ++ [a], by
      rw [List.nodup_append]
      refine ⟨s.nodup, List.nodup_cons.2 ⟨by simp, List.nodup_nil⟩, ?_⟩
      intro x hx y hy hxy
      rw [List.mem_singleton] at hy
      exact h (hy ▸ hxy ▸ hx)⟩

/-- Removes a member and closes the gap. -/
def erase (s : OrderedSet α) (a : α) : OrderedSet α :=
  ⟨s.toList.filter (· ≠ a), s.nodup.filter _⟩

/-- Adds members one after another. -/
def extend (s : OrderedSet α) (names : List α) : OrderedSet α :=
  names.foldl insert s

/-- The distinct members of a list, each at its first position. -/
def ofList (names : List α) : OrderedSet α :=
  (∅ : OrderedSet α).extend names

theorem insert_of_mem {s : OrderedSet α} {a : α} (h : a ∈ s) : s.insert a = s := by
  simp only [insert, dif_pos (mem_def.1 h)]

theorem toList_insert_of_not_mem {s : OrderedSet α} {a : α} (h : a ∉ s) :
    (s.insert a).toList = s.toList ++ [a] := by
  simp only [insert, dif_neg (mt mem_def.2 h)]

@[simp]
theorem mem_insert {s : OrderedSet α} {a b : α} : b ∈ s.insert a ↔ b ∈ s ∨ b = a := by
  by_cases h : a ∈ s
  · rw [insert_of_mem h]
    exact ⟨Or.inl, fun hb => hb.elim id (fun e => e ▸ h)⟩
  · simp only [mem_def, toList_insert_of_not_mem h, List.mem_append, List.mem_singleton]

@[simp]
theorem mem_erase {s : OrderedSet α} {a b : α} : b ∈ s.erase a ↔ b ∈ s ∧ b ≠ a := by
  simp [mem_def, erase]

@[simp]
theorem mem_extend {s : OrderedSet α} {names : List α} {b : α} :
    b ∈ s.extend names ↔ b ∈ s ∨ b ∈ names := by
  induction names generalizing s with
  | nil => simp [extend]
  | cons n rest ih =>
    have step : s.extend (n :: rest) = (s.insert n).extend rest := rfl
    rw [step, ih, mem_insert, List.mem_cons, or_assoc]

theorem extend_of_subset {s : OrderedSet α} {names : List α} (h : ∀ a ∈ names, a ∈ s) :
    s.extend names = s := by
  induction names with
  | nil => rfl
  | cons n rest ih =>
    have step : s.extend (n :: rest) = (s.insert n).extend rest := rfl
    rw [step, insert_of_mem (h n List.mem_cons_self), ih]
    exact fun a later => h a (List.mem_cons_of_mem n later)

@[simp]
theorem mem_ofList {names : List α} {b : α} : b ∈ ofList names ↔ b ∈ names := by
  simp [ofList, mem_def (s := (∅ : OrderedSet α))]

theorem toList_extend_of_nodup {s : OrderedSet α} {names : List α}
    (h : (s.toList ++ names).Nodup) : (s.extend names).toList = s.toList ++ names := by
  induction names generalizing s with
  | nil => simp [extend]
  | cons n rest ih =>
    have fresh : n ∉ s := fun hn =>
      (List.nodup_append.1 h).2.2 n (mem_def.1 hn) n List.mem_cons_self rfl
    have step : s.extend (n :: rest) = (s.insert n).extend rest := rfl
    rw [step, ih, toList_insert_of_not_mem fresh, List.append_assoc, List.singleton_append]
    rw [toList_insert_of_not_mem fresh, List.append_assoc, List.singleton_append]
    exact h

/-- A set is the set of its own list. -/
@[simp]
theorem ofList_toList (s : OrderedSet α) : ofList s.toList = s := by
  apply OrderedSet.ext
  have h : ((∅ : OrderedSet α).toList ++ s.toList).Nodup := by simpa using s.nodup
  simpa [ofList] using toList_extend_of_nodup h

end OrderedSet

end Stencil
