import Stencil.Text.Combining

/-!
# Quoted text

A text between double quotes in which every character can be told from its surroundings: quotes,
backslashes and line ends are escaped by a backslash, and a character that has no shape of its own
is written as its code point.
-/

namespace Stencil.Text

/-- The code point of a character between braces. -/
def codePoint (c : Char) : String :=
  "\\u\x7b" ++ String.ofList (Nat.toDigits 16 c.toNat) ++ "\x7d"

/-- A character as it stands inside quotes. -/
def quotedChar (c : Char) : String :=
  match c with
  | '\x00' => "\\0"
  | '\t' => "\\t"
  | '\r' => "\\r"
  | '\n' => "\\n"
  | '\\' => "\\\\"
  | '"' => "\\\""
  | c => if isExtending c || !isPrintable c then codePoint c else c.toString

/-- A text between quotes. -/
def quoted (s : String) : String :=
  "\"" ++ String.join (s.toList.map quotedChar) ++ "\""

end Stencil.Text
