import Stencil.NameTable
import Mathlib.Algebra.Group.Nat.Defs
import Mathlib.Data.Finset.Card

/-!
# The numbers of names

A table of names keeps a map and a list, which are changed one after the other. Over every history
of calls they stay inverse to each other, as long as the numbers last.

* `NameTable.Keeps`: the map and the list, read off the calls that were made so far and their
  answers. Each call keeps this true (`NameTable.Keeps.call`), hence so does every history
  (`NameTable.Keeps.after`).
* `NameTable.Keeps.lookup?_eq_some`, `NameTable.Keeps.resolve?_eq_some`: so the two ways to look
  something up find what was handed out before.
* `table_numbers_faithfully`: the answers over every history.
-/

namespace Stencil

/-- A call of a table: a name is numbered, or the number of a name or the name of a number is
asked for. -/
inductive NameCall where
  | intern (name : String)
  | lookup (name : String)
  | resolve (id : NameId)
deriving DecidableEq, Repr

/-- A call with its answer. -/
inductive NameEvent where
  | interned (name : String) (id : NameId)
  | lookedUp (name : String) (found : Option NameId)
  | resolved (id : NameId) (found : Option String)
deriving DecidableEq, Repr

namespace NameCall

/-- The name that a call numbers. -/
def interned? : NameCall → Option String
  | .intern name => some name
  | .lookup _ | .resolve _ => none

/-- How many names some calls number. -/
def distinctNames (calls : List NameCall) : Nat := (calls.filterMap interned?).toFinset.card

theorem mem_interned {calls : List NameCall} {name : String} :
    name ∈ calls.filterMap interned? ↔ .intern name ∈ calls := by
  rw [List.mem_filterMap]
  constructor
  · rintro ⟨call, member, found⟩
    cases call <;> cases found
    exact member
  · exact fun member => ⟨_, member, rfl⟩

/-- Fewer calls number no more names. -/
theorem distinctNames_lt_of_append {calls more : List NameCall} {bound : Nat}
    (few : distinctNames (calls ++ more) < bound) : distinctNames calls < bound := by
  refine Nat.lt_of_le_of_lt (Finset.card_le_card ?_) few
  intro name member
  rw [List.mem_toFinset, mem_interned] at member ⊢
  exact List.mem_append_left more member

end NameCall

namespace NameEvent

/-- The call without its answer. -/
def call : NameEvent → NameCall
  | .interned name _ => .intern name
  | .lookedUp name _ => .lookup name
  | .resolved id _ => .resolve id

/-- A name was numbered when it was given some number. -/
theorem intern_mem_calls {log : List NameEvent} {name : String} :
    .intern name ∈ log.map call ↔ ∃ id, .interned name id ∈ log := by
  rw [List.mem_map]
  constructor
  · rintro ⟨event, member, same⟩
    cases event with
    | interned other id =>
      cases same
      exact ⟨id, member⟩
    | lookedUp | resolved => cases same
  · rintro ⟨id, member⟩
    exact ⟨_, member, rfl⟩

end NameEvent

open NameCall (distinctNames distinctNames_lt_of_append)

namespace NameTable

/-- Makes a call. -/
def call (table : NameTable) : NameCall → NameTable × NameEvent
  | .intern name => ((table.intern name).1, .interned name (table.intern name).2)
  | .lookup name => (table, .lookedUp name (table.lookup? name))
  | .resolve id => (table, .resolved id (table.resolve? id))

/-- The table after some calls. -/
def after (table : NameTable) : List NameCall → NameTable
  | [] => table
  | call :: rest => (table.call call).1.after rest

/-- The calls with their answers, one after another. -/
def log (table : NameTable) : List NameCall → List NameEvent
  | [] => []
  | call :: rest => (table.call call).2 :: (table.call call).1.log rest

variable {table : NameTable} {calls : List NameCall} {passed : List NameEvent} {name : String}
  {id : NameId}

theorem call_call (table : NameTable) (call : NameCall) : (table.call call).2.call = call := by
  cases call <;> rfl

/-- Every call is answered. -/
theorem map_call_log (table : NameTable) (calls : List NameCall) :
    (table.log calls).map NameEvent.call = calls := by
  induction calls generalizing table with
  | nil => rfl
  | cons call rest ih => rw [log, List.map_cons, call_call, ih]

/-- An event of a log is the answer of the table that the calls before it have left. -/
theorem log_eq_append {before behind : List NameEvent} {event : NameEvent}
    (h : table.log calls = before ++ event :: behind) :
    ∃ early call late, calls = early ++ call :: late ∧ table.log early = before ∧
      ((table.after early).call call).2 = event := by
  induction before generalizing table calls with
  | nil =>
    cases calls with
    | nil => cases h
    | cons call rest => exact ⟨[], call, rest, rfl, rfl, (List.cons.inj h).1⟩
  | cons first before ih =>
    cases calls with
    | nil => cases h
    | cons call rest =>
      obtain ⟨here, there⟩ := List.cons.inj h
      obtain ⟨early, next, late, rfl, log_eq, answer⟩ := ih there
      exact ⟨call :: early, next, late, rfl, by rw [log, here, log_eq], answer⟩

/-- The table keeps what was handed out, in both directions. -/
structure Keeps (table : NameTable) (log : List NameEvent) : Prop where
  nodup : table.names.Nodup
  mem_names : ∀ name, name ∈ table.names ↔ .intern name ∈ log.map NameEvent.call
  inverse : ∀ name id, table.ids.get? name = some id ↔ table.resolve? id = some name
  handed : ∀ name id, .interned name id ∈ log ↔ table.resolve? id = some name

theorem keeps_empty : (∅ : NameTable).Keeps [] := by
  have unnumbered (name : String) : (∅ : NameTable).ids.get? name = none := rfl
  have unnamed (id : NameId) : (∅ : NameTable).resolve? id = none := rfl
  refine ⟨List.nodup_nil, fun name => ?_, fun name id => ?_, fun name id => ?_⟩
  · exact iff_of_false List.not_mem_nil List.not_mem_nil
  · simp [unnumbered, unnamed]
  · simp [unnamed]

theorem Keeps.lookup?_eq_some (keeps : table.Keeps passed) :
    table.lookup? name = some id ↔ .interned name id ∈ passed :=
  (keeps.inverse name id).trans (keeps.handed name id).symm

theorem Keeps.resolve?_eq_some (keeps : table.Keeps passed) :
    table.resolve? id = some name ↔ .interned name id ∈ passed :=
  (keeps.handed name id).symm

theorem Keeps.lookup?_eq_none (keeps : table.Keeps passed) :
    table.lookup? name = none ↔ .intern name ∉ passed.map NameEvent.call := by
  rw [NameEvent.intern_mem_calls, Option.eq_none_iff_forall_ne_some]
  simp only [ne_eq, keeps.lookup?_eq_some, not_exists]

theorem Keeps.resolve?_eq_none (keeps : table.Keeps passed) :
    table.resolve? id = none ↔ ∀ name, .interned name id ∉ passed := by
  rw [Option.eq_none_iff_forall_ne_some]
  simp only [ne_eq, keeps.resolve?_eq_some]

/-- Since a number has one name and a name one number, they agree on what is the same. -/
theorem Keeps.id_eq_iff (keeps : table.Keeps passed) {name' : String} {id' : NameId}
    (one : .interned name id ∈ passed) (two : .interned name' id' ∈ passed) :
    id = id' ↔ name = name' := by
  constructor
  · rintro rfl
    have same := (keeps.resolve?_eq_some.2 one).symm.trans (keeps.resolve?_eq_some.2 two)
    exact Option.some.inj same
  · rintro rfl
    have same := (keeps.lookup?_eq_some.2 one).symm.trans (keeps.lookup?_eq_some.2 two)
    exact Option.some.inj same

theorem Keeps.size_eq (keeps : table.Keeps passed) :
    table.size = distinctNames (passed.map NameEvent.call) := by
  have same : table.names.toFinset =
      ((passed.map NameEvent.call).filterMap NameCall.interned?).toFinset := by
    ext name
    rw [List.mem_toFinset, List.mem_toFinset, keeps.mem_names, NameCall.mem_interned]
  rw [size, distinctNames, ← same, List.toFinset_card_of_nodup keeps.nodup]

theorem toNat_nextId (room : table.size < 2 ^ 32) : table.nextId.index.toNat = table.size :=
  UInt32.toNat_ofNat_of_lt' room

/-- A name that is put at the end has the next number, and no other name gets another one. -/
theorem resolve?_push {ids : OrderedMap String NameId} {new : String} (room : table.size < 2 ^ 32) :
    (⟨ids, table.names ++ [new]⟩ : NameTable).resolve? id = some name ↔
      table.resolve? id = some name ∨ name = new ∧ id = table.nextId := by
  -- without room the next number would start again at zero, which has a name already
  have next : id = table.nextId ↔ id.index.toNat = table.names.length := by
    rw [NameId.ext_iff, ← UInt32.toNat_inj, toNat_nextId room]
    rfl
  rw [next]
  unfold resolve?
  rcases Nat.lt_trichotomy id.index.toNat table.names.length with below | last | above
  · rw [List.getElem?_append_left below]
    simp [Nat.ne_of_lt below]
  · rw [List.getElem?_append_right (Nat.le_of_eq last.symm), last]
    simp [eq_comm]
  · have beyond : (table.names ++ [new]).length ≤ id.index.toNat := by
      rw [List.length_append]
      exact above
    rw [List.getElem?_eq_none beyond, List.getElem?_eq_none (Nat.le_of_lt above)]
    simp [Nat.ne_of_gt above]

/-- A call that only asks changes nothing. -/
theorem Keeps.asked (keeps : table.Keeps passed) {event : NameEvent}
    (asks : ∀ name, event.call ≠ .intern name) : table.Keeps (passed ++ [event]) := by
  refine ⟨keeps.nodup, fun name => ?_, keeps.inverse, fun name id => ?_⟩
  · have other := asks name
    simp [keeps.mem_names, other.symm]
  · have other : .interned name id ≠ event := fun same => asks name (same ▸ rfl)
    simp [← keeps.handed, other]

/-- A name that has a number gets no other. -/
theorem Keeps.intern_known (keeps : table.Keeps passed) (known : table.ids.get? name = some id) :
    table.Keeps (passed ++ [.interned name id]) := by
  have before : .interned name id ∈ passed := keeps.lookup?_eq_some.1 known
  have among : .intern name ∈ passed.map NameEvent.call := List.mem_map.2 ⟨_, before, rfl⟩
  refine ⟨keeps.nodup, fun other => ?_, keeps.inverse, fun other number => ?_⟩
  · rw [keeps.mem_names, List.map_append, List.mem_append, List.map_singleton, List.mem_singleton]
    exact (or_iff_left_of_imp fun same => same ▸ among).symm
  · rw [← keeps.handed, List.mem_append, List.mem_singleton]
    exact or_iff_left_of_imp fun same => same ▸ before

/-- A new name gets the next number. -/
theorem Keeps.intern_new (keeps : table.Keeps passed) (new : table.ids.get? name = none)
    (room : table.size < 2 ^ 32) :
    (⟨table.ids.insert name table.nextId, table.names ++ [name]⟩ : NameTable).Keeps
      (passed ++ [.interned name table.nextId]) := by
  have absent : name ∉ table.names := by
    rw [keeps.mem_names]
    exact keeps.lookup?_eq_none.1 new
  refine ⟨?_, fun other => ?_, fun other id => ?_, fun other id => ?_⟩
  · refine List.nodup_append.2 ⟨keeps.nodup, List.nodup_singleton name, ?_⟩
    intro old member last here same
    rw [same, List.mem_singleton.1 here] at member
    exact absent member
  · rw [List.mem_append, keeps.mem_names, List.map_append, List.mem_append, List.map_singleton,
      List.mem_singleton, List.mem_singleton, NameEvent.call, NameCall.intern.injEq]
  · rw [resolve?_push room, OrderedMap.get?_insert, ← keeps.inverse]
    by_cases same : name = other
    · subst same
      simp [new, eq_comm]
    · simp [same, Ne.symm same]
  · rw [resolve?_push room, ← keeps.handed, List.mem_append, List.mem_singleton,
      NameEvent.interned.injEq]

/-- The number of a new name is how many names came before it. -/
theorem Keeps.intern_first (keeps : table.Keeps passed) (room : table.size < 2 ^ 32)
    (new : .intern name ∉ passed.map NameEvent.call) :
    (table.intern name).2.index.toNat = distinctNames (passed.map NameEvent.call) := by
  rw [intern_of_get?_none (keeps.lookup?_eq_none.2 new), toNat_nextId room, keeps.size_eq]

/-- A call keeps the table true. -/
theorem Keeps.call (keeps : table.Keeps passed) (call : NameCall)
    (few : distinctNames (passed.map NameEvent.call ++ [call]) < 2 ^ 32) :
    (table.call call).1.Keeps (passed ++ [(table.call call).2]) := by
  cases call with
  | intern name =>
    cases found : table.ids.get? name with
    | some id =>
      rw [NameTable.call, intern_of_get?_some found]
      exact keeps.intern_known found
    | none =>
      rw [NameTable.call, intern_of_get?_none found]
      apply keeps.intern_new found
      rw [keeps.size_eq]
      exact distinctNames_lt_of_append few
  | lookup name => exact keeps.asked fun other same => by cases same
  | resolve id => exact keeps.asked fun other same => by cases same

/-- Every history keeps the table true. -/
theorem Keeps.after (keeps : table.Keeps passed)
    (few : distinctNames (passed.map NameEvent.call ++ calls) < 2 ^ 32) :
    (table.after calls).Keeps (passed ++ table.log calls) := by
  -- the events of the calls that are made move over to those that have passed
  induction calls generalizing table passed with
  | nil =>
    rw [log, List.append_nil]
    exact keeps
  | cons call rest ih =>
    rw [List.append_cons] at few
    have next := keeps.call call (distinctNames_lt_of_append few)
    rw [log, List.append_cons]
    exact ih next (by simpa [call_call] using few)

/-- An event of a history is the answer of a table that keeps the events before it. -/
theorem answer_of_kept {before : List NameEvent} {event : NameEvent}
    (few : distinctNames calls < 2 ^ 32)
    (stands : before ++ [event] <+: (∅ : NameTable).log calls) :
    ∃ table : NameTable, table.Keeps before ∧ table.size < 2 ^ 32 ∧
      (table.call event.call).2 = event := by
  obtain ⟨behind, whole⟩ := stands
  rw [List.append_assoc, List.singleton_append] at whole
  obtain ⟨early, call, late, rfl, rfl, rfl⟩ := log_eq_append whole.symm
  have room : distinctNames early < 2 ^ 32 := distinctNames_lt_of_append few
  have keeps : ((∅ : NameTable).after early).Keeps ((∅ : NameTable).log early) :=
    keeps_empty.after room
  refine ⟨(∅ : NameTable).after early, keeps, ?_, by rw [call_call]⟩
  rw [keeps.size_eq, map_call_log]
  exact room

end NameTable

/-- What the answers of a table say of the calls before them. -/
structure FaithfulNumbers (log : List NameEvent) : Prop where
  /-- Equal names have equal numbers, and no others have. -/
  id_eq_iff : ∀ name name' id id', .interned name id ∈ log → .interned name' id' ∈ log →
    (id = id' ↔ name = name')
  /-- A new name has as its number how many names came before it. -/
  first : ∀ before name id, before ++ [.interned name id] <+: log →
    .intern name ∉ before.map NameEvent.call →
    id.index.toNat = distinctNames (before.map NameEvent.call)
  /-- A name finds the number that it was given, and nothing if it was given none. -/
  lookedUp : ∀ before name found, before ++ [.lookedUp name found] <+: log →
    (∀ id, found = some id ↔ .interned name id ∈ before) ∧
    (found = none ↔ .intern name ∉ before.map NameEvent.call)
  /-- A number finds the name that it was given to, and nothing if it was given to none. -/
  resolved : ∀ before id found, before ++ [.resolved id found] <+: log →
    (∀ name, found = some name ↔ .interned name id ∈ before) ∧
    (found = none ↔ ∀ name, .interned name id ∉ before)

/-- Over every history of calls that numbers fewer than 2³² names, the numbers of a table are
faithful: each call is answered; equal names have equal numbers, and no others have; new names get
the numbers 0, 1, 2, … in turn; at every later time a name finds its number and a number its name,
and what was never given finds nothing; and the size of the table is the number of names. -/
theorem table_numbers_faithfully (calls : List NameCall) (few : distinctNames calls < 2 ^ 32) :
    ((∅ : NameTable).log calls).map NameEvent.call = calls ∧
    FaithfulNumbers ((∅ : NameTable).log calls) ∧
    ((∅ : NameTable).after calls).size = distinctNames calls := by
  have keeps : ((∅ : NameTable).after calls).Keeps ((∅ : NameTable).log calls) :=
    NameTable.keeps_empty.after few
  have answered := NameTable.map_call_log ∅ calls
  refine ⟨answered, ⟨?_, ?_, ?_, ?_⟩, by rw [keeps.size_eq, answered]⟩
  · intro name name' id id' one two
    exact keeps.id_eq_iff one two
  · intro before name id stands new
    obtain ⟨table, kept, room, answer⟩ := NameTable.answer_of_kept few stands
    cases answer
    exact kept.intern_first room new
  · intro before name found stands
    obtain ⟨table, kept, -, answer⟩ := NameTable.answer_of_kept few stands
    cases answer
    exact ⟨fun id => kept.lookup?_eq_some, kept.lookup?_eq_none⟩
  · intro before id found stands
    obtain ⟨table, kept, -, answer⟩ := NameTable.answer_of_kept few stands
    cases answer
    exact ⟨fun id => kept.resolve?_eq_some, kept.resolve?_eq_none⟩

/-- A history in which a name is asked for before it is numbered, another is numbered twice, and a
number is resolved that was never given. -/
def inquiries : List NameCall :=
  [.intern "foo", .lookup "bar", .intern "bar", .intern "foo", .resolve ⟨1⟩, .lookup "bar",
    .resolve ⟨2⟩]

/-- The same question about a name is answered by nothing first, and then by its number. -/
theorem inquiries_answered :
    (∅ : NameTable).log inquiries =
      [.interned "foo" ⟨0⟩, .lookedUp "bar" none, .interned "bar" ⟨1⟩, .interned "foo" ⟨0⟩,
        .resolved ⟨1⟩ (some "bar"), .lookedUp "bar" (some ⟨1⟩), .resolved ⟨2⟩ none] ∧
    FaithfulNumbers ((∅ : NameTable).log inquiries) ∧
    ((∅ : NameTable).after inquiries).size = 2 := by
  have two : distinctNames inquiries = 2 := by decide
  obtain ⟨-, faithful, size⟩ := table_numbers_faithfully inquiries (by rw [two]; decide)
  exact ⟨by decide, faithful, size.trans two⟩

end Stencil
