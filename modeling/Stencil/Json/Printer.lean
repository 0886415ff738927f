import Stencil.Decimal.Layout
import Stencil.Json

/-!
# Writing JSON text

Values on one line without blanks, or with every member on a line of its own, indented by two
blanks. Only quotes, backslashes and control characters are escaped. What has no value is written as
null.
-/

namespace Stencil.Json

/-- Doubles are positional from `0.00001` up to, not including, `1e+16`; of two equally near decimals
the even one is taken. -/
def numberLayout : NumberLayout := ⟨.toEven, -5, 15, true⟩

/-- The text of a number. A double that is not finite has none, and is written as null. -/
def Number.text : Number → String
  | .int value => toString value
  | .float value => if value.isFinite then numberLayout.text value else "null"

/-- A character inside quotes. -/
def escapeChar (c : Char) : String :=
  match c with
  | '"' => "\\\""
  | '\\' => "\\\\"
  | '\x08' => "\\b"
  | '\t' => "\\t"
  | '\n' => "\\n"
  | '\x0c' => "\\f"
  | '\r' => "\\r"
  | c =>
    if c < ' ' then
      "\\u00" ++ String.ofList [Nat.digitChar (c.toNat / 16), Nat.digitChar (c.toNat % 16)]
    else c.toString

/-- A text between quotes. -/
def quote (s : String) : String :=
  "\"" ++ s.toList.foldl (fun text c => text ++ escapeChar c) "" ++ "\""

mutual

/-- A value on one line. -/
def compact : Json → String
  | .null | .unreadable => "null"
  | .bool true => "true"
  | .bool false => "false"
  | .number n => n.text
  | .string s => quote s
  | .array items => "[" ++ compactItems items ++ "]"
  | .object fields => "\x7b" ++ compactFields fields ++ "\x7d"
termination_by structural j => j

/-- Items with commas between them. -/
def compactItems : List Json → String
  | [] => ""
  | [item] => item.compact
  | item :: rest => item.compact ++ "," ++ compactItems rest
termination_by structural items => items

/-- Fields with commas between them. -/
def compactFields : List (String × Json) → String
  | [] => ""
  | [(name, value)] => quote name ++ ":" ++ value.compact
  | (name, value) :: rest => quote name ++ ":" ++ value.compact ++ "," ++ compactFields rest
termination_by structural fields => fields

end

/-- A line end and the indentation of a depth. -/
def newLine (depth : Nat) : String := "\n" ++ "".pushn ' ' (2 * depth)

mutual

/-- A value over several lines, at a depth of indentation. -/
def prettyAt (depth : Nat) : Json → String
  | .null | .unreadable => "null"
  | .bool true => "true"
  | .bool false => "false"
  | .number n => n.text
  | .string s => quote s
  | .array [] => "[]"
  | .array (item :: rest) =>
    "[" ++ prettyItems (depth + 1) (item :: rest) ++ newLine depth ++ "]"
  | .object [] => "\x7b\x7d"
  | .object (field :: rest) =>
    "\x7b" ++ prettyFields (depth + 1) (field :: rest) ++ newLine depth ++ "\x7d"
termination_by structural j => j

/-- Items, each on a line of its own. -/
def prettyItems (depth : Nat) : List Json → String
  | [] => ""
  | [item] => newLine depth ++ item.prettyAt depth
  | item :: rest => newLine depth ++ item.prettyAt depth ++ "," ++ prettyItems depth rest
termination_by structural items => items

/-- Fields, each on a line of its own. -/
def prettyFields (depth : Nat) : List (String × Json) → String
  | [] => ""
  | [(name, value)] => newLine depth ++ quote name ++ ": " ++ value.prettyAt depth
  | (name, value) :: rest =>
    newLine depth ++ quote name ++ ": " ++ value.prettyAt depth ++ "," ++ prettyFields depth rest
termination_by structural fields => fields

end

/-- A value over several lines. -/
def pretty (j : Json) : String := j.prettyAt 0

end Stencil.Json
