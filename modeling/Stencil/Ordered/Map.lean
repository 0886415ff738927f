/-!
# Ordered maps

A finite map that remembers the order in which its keys first arrived. `insert` writes over the
value of a key in place, `insertIfNew` keeps a value that is already there, and `erase` closes
the gap. Distinctness of the keys is part of the type.

Main statements: `get?_insert`, `get?_insertIfNew` and `get?_erase` say what a look-up sees after
each operation; `ofList_toList` says that a map is rebuilt from its own entries.
-/

namespace Stencil

/-- A map with distinct keys in order of first arrival. -/
@[ext]
structure OrderedMap (κ ν : Type) where
  toList : List (κ × ν)
  nodup : (toList.map Prod.fst).Nodup
deriving DecidableEq

namespace OrderedMap

variable {κ ν : Type}

/-- The map with no entries. -/
def empty : OrderedMap κ ν := ⟨[], List.nodup_nil⟩

instance : EmptyCollection (OrderedMap κ ν) := ⟨empty⟩

instance : Inhabited (OrderedMap κ ν) := ⟨∅⟩

@[simp]
theorem toList_empty : (∅ : OrderedMap κ ν).toList = [] := rfl

/-- The keys in order of first arrival. -/
def keys (m : OrderedMap κ ν) : List κ := m.toList.map Prod.fst

/-- The values in the order of their keys. -/
def values (m : OrderedMap κ ν) : List ν := m.toList.map Prod.snd

variable [DecidableEq κ]

/-- The value of the first entry of a list of entries that has the given key. -/
def lookup (k : κ) : List (κ × ν) → Option ν
  | [] => none
  | (k', v) :: rest => if k' = k then some v else lookup k rest

/-- The value of a key. -/
def get? (m : OrderedMap κ ν) (k : κ) : Option ν := lookup k m.toList

/-- Writes a value over the entry of its key, or appends an entry. -/
def replaceOrAppend (k : κ) (v : ν) : List (κ × ν) → List (κ × ν)
  | [] => [(k, v)]
  | (k', v') :: rest => if k' = k then (k, v) :: rest else (k', v') :: replaceOrAppend k v rest

theorem map_fst_replaceOrAppend (k : κ) (v : ν) (entries : List (κ × ν)) :
    (replaceOrAppend k v entries).map Prod.fst =
      if k ∈ entries.map Prod.fst then entries.map Prod.fst else entries.map Prod.fst ++ [k] := by
  induction entries with
  | nil => simp [replaceOrAppend]
  | cons entry rest ih =>
    obtain ⟨k', v'⟩ := entry
    by_cases same : k' = k
    · simp [replaceOrAppend, same]
    · have other : k ≠ k' := fun e => same e.symm
      by_cases there : k ∈ rest.map Prod.fst
      · simp [replaceOrAppend, same, other, ih, there]
      · simp [replaceOrAppend, same, other, ih, there]

theorem nodup_replaceOrAppend (k : κ) (v : ν) {entries : List (κ × ν)}
    (h : (entries.map Prod.fst).Nodup) : ((replaceOrAppend k v entries).map Prod.fst).Nodup := by
  rw [map_fst_replaceOrAppend]
  split
  · exact h
  · rename_i fresh
    rw [List.nodup_append]
    refine ⟨h, List.nodup_cons.2 ⟨by simp, List.nodup_nil⟩, ?_⟩
    intro x hx y hy hxy
    rw [List.mem_singleton] at hy
    exact fresh (hy ▸ hxy ▸ hx)

/-- Sets the value of a key; a key that is already there keeps its position. -/
def insert (m : OrderedMap κ ν) (k : κ) (v : ν) : OrderedMap κ ν :=
  ⟨replaceOrAppend k v m.toList, nodup_replaceOrAppend k v m.nodup⟩

/-- Sets the value of a key that has none yet. -/
def insertIfNew (m : OrderedMap κ ν) (k : κ) (v : ν) : OrderedMap κ ν :=
  if (m.get? k).isSome then m else m.insert k v

/-- Removes the entry of a key and closes the gap. -/
def erase (m : OrderedMap κ ν) (k : κ) : OrderedMap κ ν :=
  ⟨m.toList.filter (·.1 ≠ k), m.nodup.sublist (List.filter_sublist.map Prod.fst)⟩

/-- The map of a list of entries: a repeated key keeps its first position and takes its last
value. -/
def ofList (entries : List (κ × ν)) : OrderedMap κ ν :=
  entries.foldl (fun m entry => m.insert entry.1 entry.2) ∅

@[simp]
theorem get?_empty (k : κ) : (∅ : OrderedMap κ ν).get? k = none := rfl

theorem lookup_replaceOrAppend (k k' : κ) (v : ν) (entries : List (κ × ν)) :
    lookup k' (replaceOrAppend k v entries) = if k = k' then some v else lookup k' entries := by
  induction entries with
  | nil => simp [replaceOrAppend, lookup]
  | cons entry rest ih =>
    obtain ⟨k₀, v₀⟩ := entry
    by_cases same : k₀ = k
    · subst same
      by_cases hit : k₀ = k' <;> simp [replaceOrAppend, lookup, hit]
    · by_cases hit : k₀ = k'
      · subst hit
        simp [replaceOrAppend, lookup, same, Ne.symm same]
      · simp [replaceOrAppend, lookup, same, hit, ih]

@[simp]
theorem get?_insert (m : OrderedMap κ ν) (k k' : κ) (v : ν) :
    (m.insert k v).get? k' = if k = k' then some v else m.get? k' :=
  lookup_replaceOrAppend k k' v m.toList

theorem get?_insertIfNew (m : OrderedMap κ ν) (k k' : κ) (v : ν) :
    (m.insertIfNew k v).get? k' = if k = k' then some ((m.get? k).getD v) else m.get? k' := by
  unfold insertIfNew
  cases found : m.get? k with
  | none => simp
  | some v₀ =>
    by_cases same : k = k'
    · subst same; simp [found]
    · simp [same]

theorem lookup_filter (k k' : κ) (entries : List (κ × ν)) :
    lookup k' (entries.filter (·.1 ≠ k)) = if k = k' then none else lookup k' entries := by
  induction entries with
  | nil => simp [lookup]
  | cons entry rest ih =>
    obtain ⟨k₀, v₀⟩ := entry
    by_cases gone : k₀ = k
    · subst gone
      by_cases hit : k₀ = k'
      · simpa [hit] using ih
      · simpa [lookup, hit] using ih
    · by_cases hit : k₀ = k'
      · subst hit
        simp [lookup, gone, Ne.symm gone]
      · simpa [lookup, gone, hit] using ih

@[simp]
theorem get?_erase (m : OrderedMap κ ν) (k k' : κ) :
    (m.erase k).get? k' = if k = k' then none else m.get? k' :=
  lookup_filter k k' m.toList

theorem replaceOrAppend_of_not_mem (k : κ) (v : ν) {entries : List (κ × ν)}
    (h : k ∉ entries.map Prod.fst) : replaceOrAppend k v entries = entries ++ [(k, v)] := by
  induction entries with
  | nil => rfl
  | cons entry rest ih =>
    obtain ⟨k', v'⟩ := entry
    simp only [List.map_cons, List.mem_cons, not_or] at h
    simp [replaceOrAppend, Ne.symm h.1, ih h.2]

theorem lookup_eq_none_iff {k : κ} {entries : List (κ × ν)} :
    lookup k entries = none ↔ k ∉ entries.map Prod.fst := by
  induction entries with
  | nil => simp [lookup]
  | cons entry rest ih =>
    obtain ⟨k', v'⟩ := entry
    by_cases same : k' = k
    · simp [lookup, same]
    · simp [lookup, same, Ne.symm same, ih]

/-- A new key comes last. -/
theorem toList_insert_of_get? {m : OrderedMap κ ν} {k : κ} (v : ν) (h : m.get? k = none) :
    (m.insert k v).toList = m.toList ++ [(k, v)] :=
  replaceOrAppend_of_not_mem k v (lookup_eq_none_iff.1 h)

theorem insertIfNew_of_get? {m : OrderedMap κ ν} {k : κ} (v : ν) (h : m.get? k = none) :
    m.insertIfNew k v = m.insert k v := by
  simp [insertIfNew, h]

/-- The first of several entries with distinct keys is new to the map. -/
theorem get?_of_nodup_cons {m : OrderedMap κ ν} {entry : κ × ν} {rest : List (κ × ν)}
    (h : ((m.toList ++ entry :: rest).map Prod.fst).Nodup) : m.get? entry.1 = none := by
  rw [List.map_append, List.nodup_append] at h
  exact lookup_eq_none_iff.2 fun there => h.2.2 entry.1 there entry.1 (by simp) rfl

theorem toList_foldl_insert {m : OrderedMap κ ν} {entries : List (κ × ν)}
    (h : ((m.toList ++ entries).map Prod.fst).Nodup) :
    (entries.foldl (fun m entry => m.insert entry.1 entry.2) m).toList = m.toList ++ entries := by
  induction entries generalizing m with
  | nil => simp
  | cons entry rest ih =>
    have step : (m.insert entry.1 entry.2).toList = m.toList ++ [entry] :=
      toList_insert_of_get? entry.2 (get?_of_nodup_cons h)
    rw [List.foldl_cons, ih, step, List.append_assoc, List.singleton_append]
    rw [step, List.append_assoc, List.singleton_append]
    exact h

theorem toList_foldl_insertIfNew {m : OrderedMap κ ν} {entries : List (κ × ν)}
    (h : ((m.toList ++ entries).map Prod.fst).Nodup) :
    (entries.foldl (fun m entry => m.insertIfNew entry.1 entry.2) m).toList =
      m.toList ++ entries := by
  induction entries generalizing m with
  | nil => simp
  | cons entry rest ih =>
    have fresh := get?_of_nodup_cons h
    have step := toList_insert_of_get? entry.2 fresh
    rw [List.foldl_cons, insertIfNew_of_get? entry.2 fresh, ih, step, List.append_assoc,
      List.singleton_append]
    rw [step, List.append_assoc, List.singleton_append]
    exact h

/-- A map is the map of its own entries. -/
@[simp]
theorem ofList_toList (m : OrderedMap κ ν) : ofList m.toList = m := by
  apply OrderedMap.ext
  have h : (((∅ : OrderedMap κ ν).toList ++ m.toList).map Prod.fst).Nodup := by
    simpa using m.nodup
  simpa [ofList] using toList_foldl_insert h

end OrderedMap

end Stencil
