import Stencil.Decimal.Binary64

/-!
# JSON values

Values of the data format of trees and option files. An object keeps its fields in the order in
which they were written, repeated ones included; a number is an integer or a double. Text can be well
formed and still have no value; such a part can be skipped, but not read.
-/

namespace Stencil

/-- A number. -/
inductive Json.Number where
  | int (value : Int)
  | float (value : Binary64)
deriving DecidableEq, Repr

/-- A value. -/
inductive Json where
  | null
  | bool (value : Bool)
  | number (value : Json.Number)
  | string (value : String)
  | array (items : List Json)
  | object (fields : List (String × Json))
  /-- A number beyond the range of doubles, a text with half of a surrogate pair, an object with a
  field of such a name, or an array or object that is nested too deep. -/
  | unreadable
deriving Repr, Inhabited

namespace Json

/-- An integer. -/
def int (n : Int) : Json := .number (.int n)

/-- A natural number. -/
def nat (n : Nat) : Json := .number (.int n)

/-- A text, or null in its absence. -/
def optionalString : Option String → Json
  | none => .null
  | some s => .string s

/-- A list of texts. -/
def strings (items : List String) : Json := .array (items.map .string)

/-- The last field of an object with the given name. -/
def field? (name : String) : Json → Option Json
  | .object fields => (fields.reverse.find? (·.1 == name)).map Prod.snd
  | _ => none

/-- The content of a text. -/
def string? : Json → Option String
  | .string s => some s
  | _ => none

/-- The content of a truth value. -/
def bool? : Json → Option Bool
  | .bool b => some b
  | _ => none

/-- The content of an integer. -/
def int? : Json → Option Int
  | .number (.int n) => some n
  | _ => none

mutual

/-- Whether a value can be read as a whole. -/
def isReadable : Json → Bool
  | .unreadable => false
  | .array items => areReadable items
  | .object fields => fieldsReadable fields
  | _ => true
termination_by structural j => j

/-- Whether all of some values can be read. -/
def areReadable : List Json → Bool
  | [] => true
  | item :: rest => item.isReadable && areReadable rest
termination_by structural items => items

/-- Whether all of some fields can be read. -/
def fieldsReadable : List (String × Json) → Bool
  | [] => true
  | (_, value) :: rest => value.isReadable && fieldsReadable rest
termination_by structural fields => fields

end

/-- The items of an array. -/
def items? : Json → Option (List Json)
  | .array items => some items
  | _ => none

end Json

end Stencil
