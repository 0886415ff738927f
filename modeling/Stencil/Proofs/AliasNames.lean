import Stencil.Proofs.Walk

/-!
# Alias names are free

The candidates for the name of an alias are pairwise different, so a search over more candidates
than there are taken names ends on a free one. The bound that the analysis gives is such a number.

Main statements: `Alias.freshName_free`, and for the analysis `Analysis.freshAlias_free`.
-/

namespace Stencil

namespace Alias

theorem toString_injective {m n : Nat} (h : toString m = toString n) : m = n := by
  have digits : Nat.toDigits 10 m = Nat.toDigits 10 n := by
    rw [← Nat.toList_repr, ← Nat.toList_repr]
    exact congrArg String.toList h
  rw [← Nat.ofDigitChars_ten_toDigits (n := m), digits, Nat.ofDigitChars_ten_toDigits]

theorem candidate_injective {base : String} {m n : Nat} (h : candidate base m = candidate base n) :
    m = n := by
  have longer (k : Nat) : base ≠ base ++ "_" ++ toString (k + 1) := by
    intro same
    have lengths := congrArg String.length same
    simp only [String.length_append] at lengths
    have mark : "_".length = 1 := rfl
    omega
  cases m with
  | zero =>
    cases n with
    | zero => rfl
    | succ n => exact absurd h (longer n)
  | succ m =>
    cases n with
    | zero => exact absurd h.symm (longer m)
    | succ n => exact toString_injective ((String.append_right_inj _).1 h)

/-- The search ends on a free candidate when one of those it can reach is free. -/
theorem search_free {taken : String → Bool} {base : String} {bound number k : Nat}
    (near : k ≤ bound) (free : taken (candidate base (number + k)) = false) :
    taken (search taken base bound number) = false := by
  induction bound generalizing number k with
  | zero =>
    obtain rfl : k = 0 := by omega
    exact free
  | succ bound ih =>
    unfold search
    split
    · rename_i busy
      cases k with
      | zero => rw [Nat.add_zero, busy] at free; cases free
      | succ k => exact ih (by omega : k ≤ bound) (by rwa [Nat.add_right_comm])
    · rename_i unclaimed
      simpa using unclaimed

/-- More candidates than taken names: one of them is free. -/
theorem exists_free {taken : String → Bool} {names : List String} {bound : Nat}
    (listed : ∀ name, taken name = true → name ∈ names) (few : names.length ≤ bound)
    (base : String) : ∃ k, k ≤ bound ∧ taken (candidate base k) = false := by
  apply Classical.byContradiction
  intro none
  have all (k : Nat) (hk : k ≤ bound) : taken (candidate base k) = true := by
    cases busy : taken (candidate base k) with
    | true => rfl
    | false => exact absurd ⟨k, hk, busy⟩ none
  have distinct : ((List.range (bound + 1)).map (candidate base)).Nodup := by
    refine List.nodup_iff_pairwise_ne.2 (List.pairwise_map.2 ?_)
    exact List.nodup_range.imp fun different same => different (candidate_injective same)
  have inside : (List.range (bound + 1)).map (candidate base) ⊆ names := by
    intro name member
    obtain ⟨k, hk, rfl⟩ := List.mem_map.1 member
    exact listed _ (all k (by have := List.mem_range.1 hk; omega))
  have count := distinct.length_le_of_subset inside
  rw [List.length_map, List.length_range] at count
  omega

/-- The name found is free, when the bound counts all names that can be taken. -/
theorem freshName_free {taken : String → Bool} {names : List String} {bound : Nat}
    (listed : ∀ name, taken name = true → name ∈ names) (few : names.length ≤ bound)
    (base : String) : taken (freshName taken bound base) = false := by
  obtain ⟨k, near, free⟩ := exists_free listed few base
  exact search_free near (by rwa [Nat.zero_add])

end Alias

namespace OrderedMap

variable {κ ν : Type} [DecidableEq κ]

theorem mem_of_lookup {k : κ} {v : ν} {entries : List (κ × ν)} (h : lookup k entries = some v) :
    (k, v) ∈ entries := by
  induction entries with
  | nil => cases h
  | cons entry rest ih =>
    obtain ⟨k', v'⟩ := entry
    unfold lookup at h
    split at h
    · rename_i same
      cases h
      exact same ▸ List.mem_cons_self
    · exact List.mem_cons_of_mem _ (ih h)

theorem mem_of_get? {m : OrderedMap κ ν} {k : κ} {v : ν} (h : m.get? k = some v) :
    (k, v) ∈ m.toList := mem_of_lookup h

theorem lookup_of_mem {k : κ} {v : ν} {entries : List (κ × ν)}
    (distinct : (entries.map Prod.fst).Nodup) (h : (k, v) ∈ entries) :
    lookup k entries = some v := by
  induction entries with
  | nil => cases h
  | cons entry rest ih =>
    rw [List.map_cons, List.nodup_cons] at distinct
    rcases List.mem_cons.1 h with rfl | later
    · rw [lookup, if_pos rfl]
    · have other : entry.1 ≠ k := by
        rintro rfl
        exact distinct.1 (List.mem_map.2 ⟨_, later, rfl⟩)
      rw [lookup, if_neg other]
      exact ih distinct.2 later

theorem mem_toList_iff {m : OrderedMap κ ν} {k : κ} {v : ν} :
    (k, v) ∈ m.toList ↔ m.get? k = some v :=
  ⟨lookup_of_mem m.nodup, mem_of_get?⟩

theorem mem_values_iff {m : OrderedMap κ ν} {v : ν} :
    v ∈ m.values ↔ ∃ k, m.get? k = some v := by
  simp [values, mem_toList_iff]

theorem mem_replaceOrAppend {k : κ} {v : ν} {entries : List (κ × ν)} {entry : κ × ν}
    (h : entry ∈ replaceOrAppend k v entries) : entry = (k, v) ∨ entry ∈ entries := by
  induction entries with
  | nil => exact .inl (List.mem_singleton.1 h)
  | cons first rest ih =>
    obtain ⟨k', v'⟩ := first
    unfold replaceOrAppend at h
    split at h
    · rcases List.mem_cons.1 h with here | later
      · exact .inl here
      · exact .inr (List.mem_cons_of_mem _ later)
    · rcases List.mem_cons.1 h with here | later
      · exact .inr (here ▸ List.mem_cons_self)
      · rcases ih later with new | old
        · exact .inl new
        · exact .inr (List.mem_cons_of_mem _ old)

theorem mem_insert {m : OrderedMap κ ν} {k : κ} {v : ν} {entry : κ × ν}
    (h : entry ∈ (m.insert k v).toList) : entry = (k, v) ∨ entry ∈ m.toList :=
  mem_replaceOrAppend h

theorem mem_insertIfNew {m : OrderedMap κ ν} {k : κ} {v : ν} {entry : κ × ν}
    (h : entry ∈ (m.insertIfNew k v).toList) : entry = (k, v) ∨ entry ∈ m.toList := by
  unfold insertIfNew at h
  split at h
  · exact .inr h
  · exact mem_insert h

end OrderedMap

namespace Analysis

/-- The name of a new alias belongs to no variable of the function, and to no other computation. -/
theorem freshAlias_free (st : State) (ctx : Context) (c : Computation) :
    st.isTaken ctx c (st.freshAlias ctx c) = false := by
  have listed : ∀ name, st.isTaken ctx c name = true →
      name ∈ st.holders.keys ++ ctx.assignedAnywhere ++ ctx.declared ++ st.globals.toList := by
    intro name busy
    simp only [State.isTaken, State.isUserName, Bool.or_eq_true, decide_eq_true_eq] at busy
    simp only [List.mem_append]
    rcases busy with held | (assigned | declared) | global
    · cases found : st.holders.get? name with
      | none => simp [found] at held
      | some other => exact .inl (.inl (.inl (List.mem_map_of_mem (OrderedMap.mem_of_get? found))))
    · exact .inl (.inl (.inr assigned))
    · exact .inl (.inr declared)
    · exact .inr global
  apply Alias.freshName_free listed
  simp only [List.length_append, OrderedMap.keys, List.length_map, State.takenBound]
  exact Nat.le_refl _

end Analysis

end Stencil
