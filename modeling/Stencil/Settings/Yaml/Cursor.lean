/-!
# Places in YAML text

A cursor is a place in a text, with the line and the column that it stands in. Blanks and line ends
between two words form a gap, which counts as one blank if it holds a single line end.
-/

namespace Stencil.Settings.Yaml

/-- Whether a character ends a line. -/
def isBreak (c : Char) : Bool := c == '\n' || c == '\u2028' || c == '\u2029'

/-- Whether a character separates words on a line. -/
def isBlank (c : Char) : Bool := c == ' ' || c == '\t'

/-- Whether a character stands between words. -/
def isGap (c : Char) : Bool := isBlank c || isBreak c

/-- Whether a word ends here: before a gap or at the end of the text. -/
def endsWord (cs : List Char) : Bool := cs.head?.all isGap

/-- Whether a character can stand in a name. -/
def isNamePart (c : Char) : Bool := c.isAlphanum || c == '_' || c == '-'

/-- Whether a character has a meaning of its own inside brackets. -/
def isFlowMark (c : Char) : Bool := c == ',' || c == '[' || c == ']' || c == '\x7b' || c == '\x7d'

/-- Line ends of every kind as one, save those that separate paragraphs of text. -/
def unixLines : List Char → List Char
  | '\r' :: '\n' :: rest => '\n' :: unixLines rest
  | c :: rest => (if c == '\r' || c == '\u0085' then '\n' else c) :: unixLines rest
  | [] => []

/-- Whether a character may stand in a text: no control character but tabs and line ends. -/
def isAllowed (c : Char) : Bool :=
  let n := c.toNat
  c == '\t' || c == '\n' || c == '\r' || (0x20 ≤ n && n ≤ 0x7e) || n == 0x85 ||
    (0xa0 ≤ n && n ≠ 0xfffe && n ≠ 0xffff)

/-- A place in a text. -/
structure Cursor where
  rest : List Char
  line : Nat := 0
  column : Nat := 0
  /-- How many bytes stand before this place. -/
  offset : Nat := 0

namespace Cursor

/-- The place after one character. -/
def next (cur : Cursor) : Cursor :=
  match cur.rest with
  | [] => cur
  | c :: rest =>
    if isBreak c then ⟨rest, cur.line + 1, 0, cur.offset + c.utf8Size⟩
    else ⟨rest, cur.line, cur.column + 1, cur.offset + c.utf8Size⟩

/-- The place after a number of characters. -/
def drop : Nat → Cursor → Cursor
  | 0, cur => cur
  | n + 1, cur => drop n cur.next

/-- The characters from here on that satisfy a condition. -/
def taken (p : Char → Bool) (cur : Cursor) : List Char := cur.rest.takeWhile p

/-- The place after all characters that satisfy a condition. -/
def skip (p : Char → Bool) (cur : Cursor) : Cursor := cur.drop (cur.taken p).length

/-- Whether a character stands here. -/
def sees (c : Char) (cur : Cursor) : Bool := cur.rest.head? == some c

/-- Whether a mark of three characters stands here, alone at the start of a line. -/
def atMark (mark : String) (cur : Cursor) : Bool :=
  cur.column == 0 && cur.rest.take 3 == mark.toList && endsWord (cur.rest.drop 3)

/-- Whether a document starts or ends here. -/
def atDocumentMark (cur : Cursor) : Bool := cur.atMark "---" || cur.atMark "..."

end Cursor

/-- Blanks and line ends between two words. -/
structure Gap where
  /-- The blanks before the first line end. -/
  blanks : List Char := []
  /-- The line ends. -/
  breaks : List Char := []

namespace Gap

/-- The gap that consists of the given characters. -/
def ofChars (cs : List Char) : Gap := ⟨cs.takeWhile isBlank, cs.filter isBreak⟩

/-- Whether a gap spans lines. -/
def spansLines (gap : Gap) : Bool := !gap.breaks.isEmpty

/-- What a gap stands for: its blanks, one blank for one line end, and otherwise the line ends after
the first. -/
def text : Gap → List Char
  | ⟨blanks, []⟩ => blanks
  | ⟨_, ['\n']⟩ => [' ']
  | ⟨_, '\n' :: more⟩ => more
  | ⟨_, breaks⟩ => breaks

end Gap

end Stencil.Settings.Yaml
