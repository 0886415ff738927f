import Stencil.Ordered.Map

/-!
# Numbered names

A table that gives names the numbers 0, 1, 2, … in order of first appearance. Numbers are 32-bit
words. A name finds its number in a map, and a number finds its name in a list.
-/

namespace Stencil

/-- The number of a name. -/
@[ext]
structure NameId where
  index : UInt32
deriving DecidableEq, Repr

namespace NameId

instance : Ord NameId := ⟨fun a b => compare a.index b.index⟩

instance : Std.TransOrd NameId := inferInstanceAs (Std.TransCmp (compareOn NameId.index))

instance : Std.LawfulEqOrd NameId where
  eq_of_compare h := NameId.ext (Std.LawfulEqOrd.eq_of_compare h)

end NameId

/-- Names with their numbers. -/
@[ext]
structure NameTable where
  /-- The number of each name. -/
  ids : OrderedMap String NameId
  /-- The names by their numbers. -/
  names : List String

namespace NameTable

/-- The table without names. -/
def empty : NameTable := ⟨∅, []⟩

instance : EmptyCollection NameTable := ⟨empty⟩

/-- The number that the next new name gets. -/
def nextId (table : NameTable) : NameId := ⟨UInt32.ofNat table.names.length⟩

/-- Numbers a name, unless it has a number already. -/
def intern (table : NameTable) (name : String) : NameTable × NameId :=
  match table.ids.get? name with
  | some id => (table, id)
  | none => (⟨table.ids.insert name table.nextId, table.names ++ [name]⟩, table.nextId)

theorem intern_of_get?_some {table : NameTable} {name : String} {id : NameId}
    (known : table.ids.get? name = some id) : table.intern name = (table, id) := by
  rw [intern, known]

theorem intern_of_get?_none {table : NameTable} {name : String} (new : table.ids.get? name = none) :
    table.intern name =
      (⟨table.ids.insert name table.nextId, table.names ++ [name]⟩, table.nextId) := by
  rw [intern, new]

/-- The number of a name that the table holds. -/
def lookup? (table : NameTable) (name : String) : Option NameId := table.ids.get? name

/-- The name with a given number. -/
def resolve? (table : NameTable) (id : NameId) : Option String := table.names[id.index.toNat]?

/-- The number of names. -/
def size (table : NameTable) : Nat := table.names.length

/-- Whether the table holds no name. -/
def isEmpty (table : NameTable) : Bool := table.names.isEmpty

end NameTable

end Stencil
