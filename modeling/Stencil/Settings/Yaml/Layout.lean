import Stencil.Settings.Yaml.Token

/-!
# The layout of YAML text

Text is cut into tokens from left to right. The columns in which block collections stand are kept on
a stack: a token further to the right opens a collection, one further to the left closes those it
leaves. A node may turn out to be a key when a colon follows it, on the same line and not more than
1024 bytes from its start. The place of such a node is remembered, and the tokens that the colon
calls for are put there.
-/

namespace Stencil.Settings.Yaml

/-- A node that is a key if a colon follows. -/
structure PossibleKey where
  /-- How many tokens stand before it. -/
  position : Nat
  line : Nat
  column : Nat
  offset : Nat
  /-- Whether it stands where only a key can stand. -/
  required : Bool

/-- A text that is partly cut into tokens. -/
structure Layout where
  cur : Cursor
  /-- The tokens so far, the last one first. -/
  tokens : List Token := []
  /-- The columns of the open block collections, the innermost first. -/
  indents : List Nat := []
  /-- Whether a key can start here. -/
  keyAllowed : Bool := true
  key : Option PossibleKey := none
  /-- The possible keys around the brackets that are open, the innermost first. -/
  outerKeys : List (Option PossibleKey) := []

/-- Where a character stands on its line. -/
inductive LinePart where
  | start
  | later
  | comment
deriving DecidableEq, Repr

namespace Layout

/-- Whether brackets are open. -/
def inFlow (s : Layout) : Bool := !s.outerKeys.isEmpty

/-- The least column of what belongs to the innermost block collection. -/
def inside (s : Layout) : Nat := s.indents.head?.elim 0 (· + 1)

/-- Adds a token. -/
def push (s : Layout) (token : Token) : Layout := { s with tokens := token :: s.tokens }

/-- Puts a token after the given number of tokens. -/
def insertAt (s : Layout) (position : Nat) (token : Token) : Layout :=
  let later := s.tokens.length - position
  { s with tokens := s.tokens.take later ++ token :: s.tokens.drop later }

/-- How many characters stand before the next token, and whether a key can start there. Outside
brackets a line end allows a key, and a tab cannot stand where a key can start. A line may start with
a byte order mark, which takes a column of its own. -/
def between (inFlow : Bool) : LinePart → (allowed : Bool) → List Char → Nat → Nat × Bool
  | _, allowed, [], n => (n, allowed)
  | part, allowed, c :: rest, n =>
    if isBreak c then between inFlow .start (allowed || !inFlow) rest (n + 1)
    else if part == .comment then between inFlow .comment allowed rest (n + 1)
    else if (part == .start && c == '\ufeff') || c == ' ' || (c == '\t' && (inFlow || !allowed)) then
      between inFlow .later allowed rest (n + 1)
    else if c == '#' then between inFlow .comment allowed rest (n + 1)
    else (n, allowed)

/-- Skips to the next token. -/
def skip (s : Layout) : Layout :=
  let part := if s.cur.column == 0 then LinePart.start else .later
  let (n, keyAllowed) := between s.inFlow part s.keyAllowed s.cur.rest 0
  { s with cur := s.cur.drop n, keyAllowed }

/-- Closes the block collections to the right of a column, or all of them. -/
def close (s : Layout) (column : Option Nat) : Layout :=
  if s.inFlow then s
  else
    let closed := (s.indents.takeWhile fun n => column.all (· < n)).length
    { s with
      tokens := List.replicate closed .blockEnd ++ s.tokens
      indents := s.indents.drop closed }

/-- Opens a block collection, unless it is open already. -/
def openBlock (s : Layout) (column position : Nat) (token : Token) : Layout :=
  if s.inFlow || !s.indents.head?.all (· < column) then s
  else { s.insertAt position token with indents := column :: s.indents }

/-- Gives up a possible key. One that is required cannot be given up. -/
def dropKey (s : Layout) : Option Layout :=
  if s.key.any (·.required) then none else some { s with key := none }

/-- Remembers the next token as a possible key. -/
def saveKey (s : Layout) : Option Layout :=
  if !s.keyAllowed then some s
  else do
    let s ← s.dropKey
    let required := !s.inFlow && s.indents.head? == some s.cur.column
    let key := ⟨s.tokens.length, s.cur.line, s.cur.column, s.cur.offset, required⟩
    return { s with key := some key }

/-- Whether a colon here makes a key of a node. -/
def isKey (s : Layout) (key : PossibleKey) : Bool :=
  key.line == s.cur.line && s.cur.offset ≤ key.offset + 1024

/-- Takes a token that is a possible key, with what follows it. -/
def takeNode (s : Layout) (read? : Cursor → Option (Token × Cursor)) : Option Layout := do
  let s ← s.saveKey
  let (token, cur) ← read? s.cur
  return { s.push token with cur, keyAllowed := false }

/-- Takes a plain scalar. After it a key can start if it ends at the start of a line. -/
def takePlain (s : Layout) : Option Layout := do
  let s ← s.saveKey
  let p ← plain? s.inFlow s.inside s.cur
  let token := Token.scalar .plain (String.ofList p.read.reverse)
  return { s.push token with cur := p.after, keyAllowed := p.newLine }

/-- Takes a quoted scalar. -/
def takeQuoted (s : Layout) (single : Bool) : Option Layout :=
  s.takeNode fun cur => do
    let (text, after) ← quoted? single cur
    let style := if single then Style.singleQuoted else .doubleQuoted
    return (.scalar style (String.ofList text), after)

/-- Takes a block scalar. -/
def takeBlock (s : Layout) (folds : Bool) : Option Layout := do
  let s ← s.dropKey
  let (text, cur) ← block? folds s.indents.head? s.cur
  let style := if folds then Style.folded else .literal
  return { s.push (.scalar style (String.ofList text)) with cur, keyAllowed := true }

/-- Takes a directive. -/
def takeDirective (s : Layout) : Option Layout := do
  let s ← (s.close none).dropKey
  let (token, cur) ← directive? s.cur
  return { s.push token with cur, keyAllowed := false }

/-- Takes the mark of a document. -/
def takeDocumentMark (s : Layout) (token : Token) : Option Layout := do
  let s ← (s.close none).dropKey
  return { s.push token with cur := s.cur.drop 3, keyAllowed := false }

/-- Takes an opening bracket. -/
def takeOpening (s : Layout) (token : Token) : Option Layout := do
  let s ← s.saveKey
  return { s.push token with
    cur := s.cur.next
    keyAllowed := true
    key := none
    outerKeys := s.key :: s.outerKeys }

/-- Takes a closing bracket. -/
def takeClosing (s : Layout) (token : Token) : Option Layout := do
  let s ← s.dropKey
  return { s.push token with
    cur := s.cur.next
    keyAllowed := false
    key := s.outerKeys.head?.join
    outerKeys := s.outerKeys.tail }

/-- Takes a comma. -/
def takeComma (s : Layout) : Option Layout := do
  let s ← s.dropKey
  return { s.push .comma with cur := s.cur.next, keyAllowed := true }

/-- Opens a block collection at a mark, where a key could start. -/
def openAtMark (s : Layout) (token : Token) : Option Layout :=
  if s.inFlow then some s
  else if !s.keyAllowed then none
  else some (s.openBlock s.cur.column s.tokens.length token)

/-- Takes the dash before an item of a block sequence. -/
def takeDash (s : Layout) : Option Layout := do
  let s ← (← s.openAtMark .blockSequence).dropKey
  return { s.push .dash with cur := s.cur.next, keyAllowed := true }

/-- Takes the question mark before a key. -/
def takeKey (s : Layout) : Option Layout := do
  let s ← (← s.openAtMark .blockMapping).dropKey
  return { s.push .key with cur := s.cur.next, keyAllowed := !s.inFlow }

/-- Takes the colon before a value: after a node that it makes a key, or after a key with a mark. -/
def takeValue (s : Layout) : Option Layout := do
  let found := s.key.filter s.isKey
  let s ← (match found with
    | some key =>
      let s := (s.insertAt key.position .key).openBlock key.column key.position .blockMapping
      some { s with key := none, keyAllowed := false }
    | none => do
      let s ← (← s.dropKey).openAtMark .blockMapping
      return { s with keyAllowed := !s.inFlow })
  return { s.push .value with cur := s.cur.next }

/-- Whether a plain scalar can start with a character. -/
def startsPlain (inFlow : Bool) (c : Char) (rest : List Char) : Bool :=
  if c == '-' then !rest.head?.any isBlank
  else if c == '?' || c == ':' then !inFlow && !endsWord rest
  else !(isGap c || isFlowMark c || "#&*!|>'\"%@`".toList.contains c)

/-- Takes the next token, which starts with the given character. -/
def take (s : Layout) (c : Char) (rest : List Char) : Option Layout :=
  if s.cur.column == 0 && c == '%' then s.takeDirective
  else if s.cur.atMark "---" then s.takeDocumentMark .documentStart
  else if s.cur.atMark "..." then s.takeDocumentMark .documentEnd
  else if c == '[' then s.takeOpening .openBracket
  else if c == '\x7b' then s.takeOpening .openBrace
  else if c == ']' then s.takeClosing .closeBracket
  else if c == '\x7d' then s.takeClosing .closeBrace
  else if c == ',' then s.takeComma
  else if c == '-' && endsWord rest then s.takeDash
  else if c == '?' && (s.inFlow || endsWord rest) then s.takeKey
  else if c == ':' && (s.inFlow || endsWord rest) then s.takeValue
  else if c == '*' then
    s.takeNode fun cur => (anchorName? cur).map fun (name, after) => (.reference name, after)
  else if c == '&' then
    s.takeNode fun cur => (anchorName? cur).map fun (name, after) => (.anchor name, after)
  else if c == '!' then s.takeNode (tag? s.inFlow)
  else if c == '|' && !s.inFlow then s.takeBlock false
  else if c == '>' && !s.inFlow then s.takeBlock true
  else if c == '\'' then s.takeQuoted true
  else if c == '"' then s.takeQuoted false
  else if startsPlain s.inFlow c rest then s.takePlain
  else none

/-- Takes all tokens. -/
def takeAll : Nat → Layout → Option (List Token)
  | 0, _ => none
  | fuel + 1, s =>
    let s := s.skip
    let s := s.close (some s.cur.column)
    match s.cur.rest with
    | [] => do return (← (s.close none).dropKey).tokens.reverse
    | c :: rest => do takeAll fuel (← s.take c rest)

end Layout

/-- The tokens of a text. -/
def Token.scan? (cs : List Char) : Option (List Token) :=
  Layout.takeAll (cs.length + 1) { cur := { rest := cs } }

end Stencil.Settings.Yaml
