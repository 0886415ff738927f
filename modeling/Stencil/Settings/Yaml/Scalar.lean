import Stencil.Settings.Yaml.Cursor

/-!
# Scalars in YAML text

A scalar is plain, between quotes, or a block of indented lines. Plain and quoted scalars go on over
several lines; the gaps in them are folded. A block keeps its lines, or folds them into one.
-/

namespace Stencil.Settings.Yaml

/-- How a scalar is written. -/
inductive Style where
  | plain
  | singleQuoted
  | doubleQuoted
  | literal
  | folded
deriving DecidableEq, Repr

/-! ## Plain scalars -/

/-- How many characters from here on belong to one word of a plain scalar. Inside brackets a colon
right before a bracket or a comma is refused. -/
def wordLength? (inFlow : Bool) : List Char → Option Nat
  | [] => some 0
  | c :: rest =>
    if isGap c then some 0
    else if inFlow && c == ':' && rest.head?.any (fun d => isFlowMark d || d == '?') then none
    else if (c == ':' && endsWord rest) || (inFlow && isFlowMark c) then some 0
    else (wordLength? inFlow rest).map (· + 1)

/-- Whether a tab stands before the given column of a line. The column of the first character is
missing if its line does not start with the gap. -/
def tabBefore (indent : Nat) : Option Nat → List Char → Bool
  | _, [] => false
  | column, c :: rest =>
    if isBreak c then tabBefore indent (some 0) rest
    else (c == '\t' && column.any (· < indent)) || tabBefore indent (column.map (· + 1)) rest

/-- A plain scalar that is read. -/
structure Plain where
  /-- The text in reverse order. -/
  read : List Char
  /-- Whether the scalar ends at the start of another line. -/
  newLine : Bool
  after : Cursor

/-- Goes on with a plain scalar after a gap. Outside brackets it goes on only on lines that are
indented enough. -/
def plainFrom? (inFlow : Bool) (indent : Nat) : Nat → List Char → Gap → Cursor → Option Plain
  | 0, _, _, _ => none
  | fuel + 1, read, gap, cur =>
    if cur.atDocumentMark || cur.sees '#' then some ⟨read, gap.spansLines, cur⟩
    else do
      let n ← wordLength? inFlow cur.rest
      if n = 0 then return ⟨read, gap.spansLines, cur⟩
      let read := (cur.rest.take n).reverse ++ gap.text.reverse ++ read
      let cur := cur.drop n
      let between := cur.taken isGap
      if between.isEmpty then return ⟨read, false, cur⟩
      if tabBefore indent none between then none
      else
        let gap := Gap.ofChars between
        let cur := cur.drop between.length
        if !inFlow && cur.column < indent then return ⟨read, gap.spansLines, cur⟩
        else plainFrom? inFlow indent fuel read gap cur

/-- Reads a plain scalar. -/
def plain? (inFlow : Bool) (indent : Nat) (cur : Cursor) : Option Plain :=
  plainFrom? inFlow indent (cur.rest.length + 1) [] {} cur

/-! ## Quoted scalars -/

/-- The value of a hexadecimal digit. -/
def hexDigit? (c : Char) : Option Nat :=
  if c.isDigit then some (c.toNat - '0'.toNat)
  else if 'a' ≤ c ∧ c ≤ 'f' then some (c.toNat - 'a'.toNat + 10)
  else if 'A' ≤ c ∧ c ≤ 'F' then some (c.toNat - 'A'.toNat + 10)
  else none

/-- The number with the given count of hexadecimal digits at the start of a text. -/
def hexNumber? (count : Nat) (cs : List Char) : Option Nat :=
  if cs.length < count then none
  else (cs.take count).foldlM (fun n c => (hexDigit? c).map (n * 16 + ·)) 0

/-- The character that a one-letter escape stands for. -/
def escaped? (c : Char) : Option Char :=
  match c with
  | '0' => some '\x00'
  | 'a' => some '\x07'
  | 'b' => some '\x08'
  | 't' | '\t' => some '\t'
  | 'n' => some '\n'
  | 'v' => some '\x0b'
  | 'f' => some '\x0c'
  | 'r' => some '\r'
  | 'e' => some '\x1b'
  | ' ' | '"' | '/' | '\\' => some c
  | 'N' => some '\u0085'
  | '_' => some '\u00a0'
  | 'L' => some '\u2028'
  | 'P' => some '\u2029'
  | _ => none

/-- How many digits the code point after an escaped letter has. -/
def codeLength? : Char → Option Nat
  | 'x' => some 2
  | 'u' => some 4
  | 'U' => some 8
  | _ => none

/-- What an escape stands for, and how many characters it takes after the backslash. -/
def escape? : List Char → Option (Char × Nat)
  | [] => none
  | c :: rest =>
    match codeLength? c with
    | none => (escaped? c).map (·, 1)
    | some count => do
      let value ← hexNumber? count rest
      if value.isValidChar then return (Char.ofNat value, count + 1) else none

/-- Reads what follows an opening quote. The text is in reverse order. -/
def quotedFrom? (single : Bool) : Nat → List Char → Cursor → Option (List Char × Cursor)
  | 0, _, _ => none
  | fuel + 1, read, cur =>
    if cur.atDocumentMark then none
    else
      match cur.rest with
      | [] => none
      | c :: rest =>
        if isGap c then
          let between := cur.taken isGap
          let text := (Gap.ofChars between).text
          quotedFrom? single fuel (text.reverse ++ read) (cur.drop between.length)
        else if single then
          if c != '\'' then quotedFrom? single fuel (c :: read) cur.next
          else if rest.head? == some '\'' then quotedFrom? single fuel ('\'' :: read) (cur.drop 2)
          else some (read, cur.next)
        else if c == '"' then some (read, cur.next)
        else if c != '\\' then quotedFrom? single fuel (c :: read) cur.next
        else if rest.head?.any isBreak then
          let cur := cur.drop 2
          let between := cur.taken isGap
          let breaks := (Gap.ofChars between).breaks
          quotedFrom? single fuel (breaks.reverse ++ read) (cur.drop between.length)
        else do
          let (e, n) ← escape? rest
          quotedFrom? single fuel (e :: read) (cur.drop (n + 1))

/-- Reads a quoted scalar. -/
def quoted? (single : Bool) (cur : Cursor) : Option (List Char × Cursor) := do
  let (read, after) ← quotedFrom? single (cur.rest.length + 1) [] cur.next
  return (read.reverse, after)

/-! ## Blocks -/

/-- What becomes of the line ends at the end of a block. -/
inductive Chomping where
  | strip
  | clip
  | keep
deriving DecidableEq, Repr

/-- What stands behind the mark of a block. -/
structure BlockHeader where
  chomping : Chomping := .clip
  /-- How far the lines are indented against those around them; told by the first line if missing. -/
  increment : Option Nat := none

/-- The chomping that a character asks for. -/
def chomping? : Char → Option Chomping
  | '+' => some .keep
  | '-' => some .strip
  | _ => none

/-- The indentation that a character asks for. -/
def increment? (c : Char) : Option Nat :=
  if c.isDigit && c != '0' then some (c.toNat - '0'.toNat) else none

/-- Reads what stands behind the mark of a block: a chomping and an indentation, in either order. -/
def blockHeader (cur : Cursor) : BlockHeader × Cursor :=
  match cur.rest with
  | [] => ({}, cur)
  | c :: rest =>
    match chomping? c, increment? c with
    | some chomping, _ =>
      match rest.head?.bind increment? with
      | some n => (⟨chomping, some n⟩, cur.drop 2)
      | none => (⟨chomping, none⟩, cur.next)
    | none, some n =>
      match rest.head?.bind chomping? with
      | some chomping => (⟨chomping, some n⟩, cur.drop 2)
      | none => (⟨.clip, some n⟩, cur.next)
    | none, none => ({}, cur)

/-- The start of the next line, if only blanks and a comment stand before it. -/
def restOfLine? (cur : Cursor) : Option Cursor :=
  let cur := cur.skip isBlank
  let cur := if cur.sees '#' then cur.skip (!isBreak ·) else cur
  match cur.rest with
  | [] => some cur
  | c :: _ => if isBreak c then some cur.next else none

/-- Empty lines before a line of a block. -/
structure BlankLines where
  breaks : List Char
  /-- The greatest column that was reached. -/
  deepest : Nat
  after : Cursor

/-- Skips empty lines and the indentation of the line after them. A tab cannot indent. -/
def blankLines? (indent : Option Nat) : Nat → BlankLines → Option BlankLines
  | 0, _ => none
  | fuel + 1, lines =>
    let cur := lines.after
    let spaces := (cur.taken (· == ' ')).length
    let cur := cur.drop (match indent with
      | none => spaces
      | some n => min spaces (n - cur.column))
    let deepest := max lines.deepest cur.column
    if cur.sees '\t' && indent.all (cur.column < ·) then none
    else
      match cur.rest with
      | [] => some ⟨lines.breaks, deepest, cur⟩
      | c :: _ =>
        if isBreak c then blankLines? indent fuel ⟨lines.breaks ++ [c], deepest, cur.next⟩
        else some ⟨lines.breaks, deepest, cur⟩

/-- A block as far as it is read. -/
structure BlockText where
  /-- The text in reverse order. -/
  read : List Char := []
  /-- The end of the last line. -/
  lineEnd : List Char := []
  /-- The empty lines after the last line. -/
  empty : List Char
  /-- Whether the last line starts with a blank. -/
  startsBlank : Bool := false
  after : Cursor

/-- What separates a line of a block from the one before it. -/
def BlockText.separator (folds : Bool) (b : BlockText) : List Char :=
  if folds && b.lineEnd == ['\n'] && !b.startsBlank && !b.after.rest.head?.any isBlank then
    if b.empty.isEmpty then [' '] else b.empty
  else b.lineEnd ++ b.empty

/-- Reads the lines of a block with the given indentation. -/
def blockLines? (folds : Bool) (indent : Nat) : Nat → BlockText → Option BlockText
  | 0, _ => none
  | fuel + 1, b =>
    if b.after.column != indent || b.after.rest.isEmpty then some b
    else do
      let line := b.after.taken (!isBreak ·)
      let cur := b.after.drop line.length
      let lines ← blankLines? (some indent) (cur.rest.length + 1) ⟨[], 0, cur.next⟩
      blockLines? folds indent fuel
        { read := line.reverse ++ (b.separator folds).reverse ++ b.read
          lineEnd := cur.rest.take 1
          empty := lines.breaks
          startsBlank := line.head?.any isBlank
          after := lines.after }

/-- Reads a block, from its mark on. The lines around it have the given indentation. -/
def block? (folds : Bool) (around : Option Nat) (cur : Cursor) : Option (List Char × Cursor) := do
  let (header, cur) := blockHeader cur.next
  let cur ← restOfLine? cur
  let indent := header.increment.map (around.getD 0 + ·)
  let lines ← blankLines? indent (cur.rest.length + 1) ⟨[], 0, cur⟩
  let least := max 1 (around.elim 0 (· + 1))
  let indent := indent.getD (max lines.deepest least)
  let b ← blockLines? folds indent (lines.after.rest.length + 1)
    { empty := lines.breaks, after := lines.after }
  let ending := match header.chomping with
    | .strip => []
    | .clip => b.lineEnd
    | .keep => b.lineEnd ++ b.empty
  return (b.read.reverse ++ ending, b.after)

end Stencil.Settings.Yaml
