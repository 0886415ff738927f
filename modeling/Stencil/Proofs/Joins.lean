import Stencil.Assigned
import Stencil.NameTable

/-!
# Joining the outcomes of branches

Behind a conditional a name counts as assigned when every branch has assigned it. The join takes the
branches one after another, and does not treat them alike: from the first it leaves out what the set
had before, and from the names that remain the others only take away. What comes out is nevertheless
an intersection, so neither the order of the branches nor a repetition makes a difference.

* `Assigned.mergeSort_eq_promoted`: the promoted names are the shared names, sorted.
* `Assigned.promoted_congr`, `Assigned.join_congr`: only which outcomes there are counts.
* `Assigned.promoted_of_mem`, `Assigned.join_of_mem`: a branch that assigned nothing, such as one
  that is missing, is an outcome that promotes nothing.
* `join_intersects_outcomes`: the join as a whole.
-/

namespace Stencil

namespace Assigned

variable {α : Type} [Ord α]

theorem nodup_of_increasing [Std.LawfulEqOrd α] {names : List α}
    (h : names.Pairwise fun a b => compare a b = .lt) : names.Nodup := by
  refine h.imp fun {a b} less => ?_
  rintro rfl
  simp at less

/-- An increasing list is determined by its members. -/
theorem eq_of_increasing [Std.LawfulEqOrd α] [Std.TransOrd α] {names names' : List α}
    (same : ∀ a, a ∈ names ↔ a ∈ names') (h : names.Pairwise fun a b => compare a b = .lt)
    (h' : names'.Pairwise fun a b => compare a b = .lt) : names = names' := by
  have perm : names.Perm names' :=
    (List.perm_ext_iff_of_nodup (nodup_of_increasing h) (nodup_of_increasing h')).2 same
  refine perm.eq_of_pairwise ?_ h h'
  intro a b _ _ less greater
  exact absurd greater (Std.OrientedCmp.not_lt_of_lt less)

variable [DecidableEq α] {s : Assigned α} {outcomes others : List (Assigned α)}

/-- With an outcome that is the set itself there is no name to promote. -/
theorem promoted_of_mem (unchanged : s ∈ outcomes) : s.promoted outcomes = [] := by
  apply List.eq_nil_iff_forall_not_mem.2
  intro a promoted
  obtain ⟨new, -, every⟩ := mem_promoted.1 promoted
  exact new (every s unchanged)

variable [Std.LawfulEqOrd α] [Std.TransOrd α]

/-- The promoted names are what the shared names come to when they are sorted, in whatever order they
were gathered. -/
theorem mergeSort_eq_promoted {shared : List α} (gathered : shared.Perm (s.promoted outcomes)) :
    shared.mergeSort (fun a b => (compare a b).isLE) = s.promoted outcomes := by
  have perm : (shared.mergeSort fun a b => (compare a b).isLE).Perm (s.promoted outcomes) :=
    (List.mergeSort_perm shared _).trans gathered
  have sorted : (shared.mergeSort fun a b => (compare a b).isLE).Pairwise
      fun a b => (compare a b).isLE = true := by
    apply List.pairwise_mergeSort
    · intro a b c first second
      exact Std.TransCmp.isLE_trans first second
    · intro a b
      have turned : compare b a = (compare a b).swap := Std.OrientedCmp.eq_swap
      rw [turned]
      cases compare a b <;> rfl
  refine perm.eq_of_pairwise ?_ sorted ((pairwise_promoted s outcomes).imp fun less => by simp [less])
  intro a b _ _ first second
  exact Std.LawfulEqCmp.eq_of_compare (Std.OrientedCmp.isLE_antisymm first second)

theorem join_of_mem (unchanged : s ∈ outcomes) : s.join outcomes = s := by
  rw [join, promoted_of_mem unchanged]
  rfl

/-- The same outcomes, in another order or given more often, promote the same names. -/
theorem promoted_congr (same : ∀ outcome, outcome ∈ others ↔ outcome ∈ outcomes) :
    s.promoted others = s.promoted outcomes := by
  -- the loop starts from the outcome that comes first; in the members of its result this is lost
  apply eq_of_increasing _ (pairwise_promoted s others) (pairwise_promoted s outcomes)
  intro a
  have empty : others = [] ↔ outcomes = [] := by
    simp only [List.eq_nil_iff_forall_not_mem, same]
  simp only [mem_promoted, ne_eq, empty, same]

theorem join_congr (same : ∀ outcome, outcome ∈ others ↔ outcome ∈ outcomes) :
    s.join others = s.join outcomes := by
  rw [join, join, promoted_congr same]

/-- What is promoted is what the join adds. -/
theorem mem_promoted_iff_joined {a : α} :
    a ∈ s.promoted outcomes ↔ a ∈ s.join outcomes ∧ a ∉ s := by
  rw [mem_promoted, mem_join]
  constructor
  · rintro ⟨new, joined⟩
    exact ⟨.inr joined, new⟩
  · rintro ⟨before | joined, new⟩
    · exact absurd before new
    · exact ⟨new, joined⟩

end Assigned

/-- A joined set has what the set had before and, if there are outcomes at all, what is in every one
of them, be they extensions of the set or not. The promoted names are listed in increasing order,
and are those that the join has added. Both depend only on which outcomes there are, not on their
order or on how often they are given. With an outcome that is the set itself, wherever it stands,
nothing is promoted and the set stays as it is. -/
theorem join_intersects_outcomes {α : Type} [Ord α] [Std.LawfulEqOrd α] [Std.TransOrd α]
    [DecidableEq α] (s : Assigned α) (outcomes : List (Assigned α)) :
    (∀ a, a ∈ s.join outcomes ↔
      a ∈ s ∨ outcomes ≠ [] ∧ ∀ outcome ∈ outcomes, a ∈ outcome) ∧
    (s.promoted outcomes).Pairwise (fun a b => compare a b = .lt) ∧
    (∀ a, a ∈ s.promoted outcomes ↔ a ∈ s.join outcomes ∧ a ∉ s) ∧
    (∀ others : List (Assigned α), (∀ outcome, outcome ∈ others ↔ outcome ∈ outcomes) →
      s.promoted others = s.promoted outcomes ∧ s.join others = s.join outcomes) ∧
    (s ∈ outcomes → s.promoted outcomes = [] ∧ s.join outcomes = s) := by
  refine ⟨fun a => Assigned.mem_join, Assigned.pairwise_promoted s outcomes,
    fun a => Assigned.mem_promoted_iff_joined, ?_, ?_⟩
  · intro others same
    exact ⟨Assigned.promoted_congr same, Assigned.join_congr same⟩
  · intro unchanged
    exact ⟨Assigned.promoted_of_mem unchanged, Assigned.join_of_mem unchanged⟩

/-- What was assigned before a conditional, by number. -/
def beforehand : Assigned NameId := .ofList [⟨0⟩]

/-- The outcomes of three branches, none of which extends what was assigned before. -/
def threeWays : List (Assigned NameId) :=
  [.ofList [⟨7⟩, ⟨3⟩, ⟨1⟩], .ofList [⟨3⟩, ⟨7⟩], .ofList [⟨9⟩, ⟨7⟩, ⟨3⟩]]

/-- Three branches promote two names, also when they are given twice over and from the last to the
first; a fourth that assigns nothing leaves none of them. -/
theorem threeWays_intersected :
    beforehand.promoted threeWays = [⟨3⟩, ⟨7⟩] ∧
    beforehand.promoted (threeWays.reverse ++ threeWays) = [⟨3⟩, ⟨7⟩] ∧
    beforehand.join (threeWays ++ [beforehand]) = beforehand := by
  have promoted : beforehand.promoted threeWays = [⟨3⟩, ⟨7⟩] := by decide
  obtain ⟨-, -, -, symmetric, -⟩ := join_intersects_outcomes beforehand threeWays
  obtain ⟨-, -, -, -, unchanged⟩ := join_intersects_outcomes beforehand (threeWays ++ [beforehand])
  refine ⟨promoted, ?_, (unchanged (by simp)).2⟩
  rw [(symmetric (threeWays.reverse ++ threeWays) (by simp)).1, promoted]

end Stencil
