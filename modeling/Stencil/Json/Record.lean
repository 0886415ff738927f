import Stencil.Json

/-!
# Records and variants in JSON

A record is an object with known fields, each at most once, and any other fields, which do not
matter. It may also be written as an array of the values of the known fields, from the first on.

A variant is a name, alone or with a content: a text, or an object with one field.

What is taken out of a value is smaller than the value, and comes with the proof of it, so that a
reader of nested records can see that it ends.
-/

namespace Stencil.Json

/-- A value inside another value. -/
abbrev Part (j : Json) := { v : Json // sizeOf v < sizeOf j }

/-- The only field with the given name; `none` when there are several. -/
def onlyField? (name : String) :
    (fields : List (String × Json)) → Option (Option { v : Json // sizeOf v < sizeOf fields })
  | [] => some none
  | (k, v) :: rest =>
    match onlyField? name rest with
    | none => none
    | some found =>
      if k = name then
        match found with
        | none => some (some ⟨v, by simp only [List.cons.sizeOf_spec, Prod.mk.sizeOf_spec]; omega⟩)
        | some _ => none
      else
        some (found.map fun w => ⟨w.1, by
          have := w.2
          simp only [List.cons.sizeOf_spec]
          omega⟩)

/-- The fields with the given names. -/
def namedFields? (fields : List (String × Json)) :
    List String → Option (List (Option { v : Json // sizeOf v < sizeOf fields }))
  | [] => some []
  | name :: names => do
    let value ← onlyField? name fields
    let values ← namedFields? fields names
    return value :: values

/-- The items of an array as the fields with the given names; `none` when there are more items. -/
def listedFields? :
    (items : List Json) → List String → Option (List (Option { v : Json // sizeOf v < sizeOf items }))
  | [], names => some (names.map fun _ => none)
  | _ :: _, [] => none
  | v :: rest, _ :: names =>
    match listedFields? rest names with
    | none => none
    | some values =>
      some (some ⟨v, by simp only [List.cons.sizeOf_spec]; omega⟩ ::
        values.map fun value => value.map fun w => ⟨w.1, by
          have := w.2
          simp only [List.cons.sizeOf_spec]
          omega⟩)

/-- The known fields of a record, in the given order. -/
def record? (names : List String) : (j : Json) → Option (List (Option (Part j)))
  | .object fields =>
    (namedFields? fields names).map fun values => values.map fun value => value.map fun w =>
      ⟨w.1, by
        have := w.2
        simp only [Json.object.sizeOf_spec]
        omega⟩
  | .array items =>
    (listedFields? items names).map fun values => values.map fun value => value.map fun w =>
      ⟨w.1, by
        have := w.2
        simp only [Json.array.sizeOf_spec]
        omega⟩
  | _ => none

/-- The name and the content of a variant. -/
def variant? : (j : Json) → Option (String × Option (Part j))
  | .string name => some (name, none)
  | .object [(name, v)] =>
    some (name, some ⟨v, by
      simp only [Json.object.sizeOf_spec, List.cons.sizeOf_spec, Prod.mk.sizeOf_spec]
      omega⟩)
  | _ => none

/-- Whether a variant without content is written well: its name alone, or with null. Inside a node
an empty object does as well as null. -/
def isBare {j : Json} (inNode : Bool) : Option (Part j) → Bool
  | none => true
  | some ⟨.null, _⟩ => true
  | some ⟨.object [], _⟩ => inNode
  | some _ => false

/-- A variant without content as text. -/
def bare? (inNode : Bool) (j : Json) : Option String :=
  match j.variant? with
  | some (name, content) => if isBare inNode content then some name else none
  | none => none

/-- Reads a field that has to be there. -/
def required? {α : Type} {j : Json} (read : Json → Option α) (part : Option (Part j)) : Option α :=
  part.bind fun v => read v.1

/-- Reads a field that may be missing. -/
def optional? {α : Type} {j : Json} (default : α) (read : Json → Option α)
    (part : Option (Part j)) : Option α :=
  match part with
  | none => some default
  | some v => read v.1

/-- Reads a value that may be null. -/
def nullable? {α : Type} (read : Json → Option α) : Json → Option (Option α)
  | .null => some none
  | j => (read j).map some

/-- Reads a list of texts. -/
def strings? (j : Json) : Option (List String) :=
  j.items?.bind fun items => items.mapM string?

end Stencil.Json
