import Stencil.Settings.Yaml.Layout

/-!
# YAML documents

Tokens are put together to the nodes of a document. A node may have an anchor, to which later nodes
refer. What is left out is an empty plain scalar.
-/

namespace Stencil.Settings

namespace Yaml

/-- A text with the way it is written. -/
structure Scalar where
  style : Style := .plain
  tag : Option (List UInt8) := none
  text : String := ""
deriving DecidableEq, Repr

end Yaml

/-- A node of a document. -/
inductive Yaml where
  | scalar (value : Yaml.Scalar)
  | sequence (items : List Yaml)
  | mapping (entries : List (Yaml × Yaml))
  /-- A reference to the anchor with the given number. -/
  | reference (number : Nat)

namespace Yaml

/-- The anchors of a document. -/
structure Anchors where
  /-- The number of the last anchor with a name. -/
  numbers : List (String × Nat) := []
  /-- The scalar at the anchor with a number, the last anchor first; none for a collection. -/
  scalars : List (Nat × Option Scalar) := []

/-- Adds an anchor. Its number tells how many names there are before. -/
def Anchors.add (a : Anchors) (name : String) (value : Option Scalar) : Anchors :=
  let number := a.numbers.length
  { numbers := (name, number) :: a.numbers.filter (·.1 ≠ name)
    scalars := (number, value) :: a.scalars }

/-- A document. -/
structure Document where
  root : Yaml
  anchors : Anchors

/-- The scalar that a node is or refers to. -/
def Document.scalar? (d : Document) : Yaml → Option Scalar
  | .scalar value => some value
  | .reference number => (d.anchors.scalars.lookup number).join
  | _ => none

/-- Tokens that remain to be read, and what is known from those before. -/
structure Reading where
  tokens : List Token
  /-- What the handles of tags stand for. -/
  handles : List (String × List UInt8) := []
  anchors : Anchors := {}

/-- Reads a part of a document. -/
abbrev Reader := StateT Reading Option

namespace Reader

/-- The next token. -/
def peek : Reader (Option Token) := return (← get).tokens.head?

/-- Passes over a token. -/
def advance : Reader Unit := modify fun r => { r with tokens := r.tokens.tail }

/-- Whether the next token is one of some tokens. -/
def sees (tokens : List Token) : Reader Bool := return (← peek).any tokens.contains

/-- Takes a token if it is the next one. -/
def accept (token : Token) : Reader Bool := do
  if ← sees [token] then
    advance
    return true
  else return false

/-- Takes the comma before an item between brackets or braces. The first item has none. -/
def separated (first : Bool) : Reader Bool := if first then return true else accept .comma

/-- What a tag stands for. -/
def tagText (handle : String) (suffix : List UInt8) : Reader (List UInt8) := do
  if handle.isEmpty then return suffix
  else
    match (← get).handles.lookup handle with
    | some expansion => return expansion ++ suffix
    | none => failure

/-- Reads the anchor of a node. -/
def anchorName : Reader (Option String) := do
  match ← peek with
  | some (.anchor name) => do
    advance
    return some name
  | _ => return none

/-- Reads the tag of a node. -/
def tag : Reader (Option (List UInt8)) := do
  match ← peek with
  | some (.tag handle suffix) => do
    advance
    return some (← tagText handle suffix)
  | _ => return none

/-- Reads the anchor and the tag of a node, in either order. -/
def properties : Reader (Option String × Option (List UInt8)) := do
  match ← anchorName, ← tag with
  | none, some text => return (← anchorName, some text)
  | name, text => return (name, text)

/-- Marks a node with its anchor. -/
def mark (name : Option String) (value : Option Scalar) : Reader Unit :=
  match name with
  | none => return
  | some name => modify fun r => { r with anchors := r.anchors.add name value }

/-- A scalar with its anchor. -/
def scalar (anchor : Option String) (value : Scalar) : Reader Yaml := do
  mark anchor (some value)
  return .scalar value

/-- A node that is left out. -/
def empty : Yaml := .scalar {}

/-- The number of the anchor that a name refers to. -/
def number (name : String) : Reader Nat := do
  match (← get).anchors.numbers.lookup name with
  | some number => return number
  | none => failure

mutual

/-- Reads a node. Block collections are read only where they are allowed; a sequence need not be
indented against the mapping around it. -/
def node : Nat → (block unindented : Bool) → Reader Yaml
  | 0, _, _ => failure
  | fuel + 1, block, unindented => do
    match ← peek with
    | some (.reference name) => do
      advance
      return .reference (← number name)
    | _ =>
      let (anchor, tag) ← properties
      match ← peek with
      | some (.scalar style text) => do
        advance
        scalar anchor ⟨style, tag, text⟩
      | some .openBracket => do
        advance
        mark anchor none
        return .sequence (← flowItems fuel true)
      | some .openBrace => do
        advance
        mark anchor none
        return .mapping (← flowEntries fuel true)
      | some token =>
        if unindented && token == .dash then do
          mark anchor none
          return .sequence (← unindentedItems fuel)
        else if block && token == .blockSequence then do
          advance
          mark anchor none
          return .sequence (← blockItems fuel)
        else if block && token == .blockMapping then do
          advance
          mark anchor none
          return .mapping (← blockEntries fuel)
        else if anchor.isSome || tag.isSome then scalar anchor { tag }
        else failure
      | none => if anchor.isSome || tag.isSome then scalar anchor { tag } else failure

/-- Reads a node, unless one of some tokens shows that it is left out. -/
def nodeUnless : Nat → (tokens : List Token) → (block unindented : Bool) → Reader Yaml
  | 0, _, _, _ => failure
  | fuel + 1, tokens, block, unindented => do
    if ← sees tokens then return empty else node fuel block unindented

/-- Reads the items of a block sequence up to its end. -/
def blockItems : Nat → Reader (List Yaml)
  | 0 => failure
  | fuel + 1 => do
    if ← accept .blockEnd then return []
    else if ← accept .dash then
      let item ← nodeUnless fuel [.dash, .blockEnd] true false
      return item :: (← blockItems fuel)
    else failure

/-- Reads the items of a sequence that is not indented. -/
def unindentedItems : Nat → Reader (List Yaml)
  | 0 => failure
  | fuel + 1 => do
    if ← accept .dash then
      let item ← nodeUnless fuel [.dash, .key, .value, .blockEnd] true false
      return item :: (← unindentedItems fuel)
    else return []

/-- Reads the entries of a block mapping up to its end. -/
def blockEntries : Nat → Reader (List (Yaml × Yaml))
  | 0 => failure
  | fuel + 1 => do
    if ← accept .blockEnd then return []
    else if ← accept .key then
      let key ← nodeUnless fuel [.key, .value, .blockEnd] true true
      let value ← (do
        if ← accept .value then nodeUnless fuel [.key, .value, .blockEnd] true true
        else return empty)
      return (key, value) :: (← blockEntries fuel)
    else failure

/-- Reads the items between brackets. A pair among them is a mapping. -/
def flowItems : Nat → (first : Bool) → Reader (List Yaml)
  | 0, _ => failure
  | fuel + 1, first => do
    if ← accept .closeBracket then return []
    else if !(← separated first) then failure
    else if ← accept .closeBracket then return []
    else if ← accept .key then
      let pair ← flowPair fuel
      return .mapping [pair] :: (← flowItems fuel false)
    else
      let item ← node fuel false false
      return item :: (← flowItems fuel false)

/-- Reads a pair between brackets, after the mark of its key. The token that shows that the key is
left out is passed over. -/
def flowPair : Nat → Reader (Yaml × Yaml)
  | 0 => failure
  | fuel + 1 => do
    let key ← (do
      if ← sees [.value, .comma, .closeBracket] then
        advance
        return empty
      else node fuel false false)
    let value ← (do
      if ← accept .value then nodeUnless fuel [.comma, .closeBracket] false false
      else return empty)
    return (key, value)

/-- Reads the entries between braces. -/
def flowEntries : Nat → (first : Bool) → Reader (List (Yaml × Yaml))
  | 0, _ => failure
  | fuel + 1, first => do
    if ← accept .closeBrace then return []
    else if !(← separated first) then failure
    else if ← accept .closeBrace then return []
    else if ← accept .key then
      let key ← nodeUnless fuel [.value, .comma, .closeBrace] false false
      let value ← (do
        if ← accept .value then nodeUnless fuel [.comma, .closeBrace] false false
        else return empty)
      return (key, value) :: (← flowEntries fuel false)
    else
      let key ← node fuel false false
      return (key, empty) :: (← flowEntries fuel false)

end

/-- Reads the directives before a document: at most one version, and each handle at most once. -/
def directives : List Token → (version : Bool) → List (String × List UInt8) →
    Option (List Token × List (String × List UInt8))
  | .version major minor :: rest, version, handles =>
    if version || major != 1 || (minor != 1 && minor != 2) then none
    else directives rest true handles
  | .handle name expansion :: rest, version, handles =>
    if handles.any (·.1 == name) then none
    else directives rest version ((name, expansion) :: handles)
  | tokens, _, handles => some (tokens, handles)

/-- The handles that need no directive. -/
def usualHandles : List (String × List UInt8) :=
  [("!", tagBytes ['!']), ("!!", tagBytes "tag:yaml.org,2002:".toList)]

/-- Reads the ends of documents that follow one another. -/
def documentEnds : List Token → List Token
  | .documentEnd :: rest => documentEnds rest
  | tokens => tokens

/-- Reads the only document. Without a mark there may be no document at all, and after a mark there
may be no node. -/
def document (tokens : List Token) : Option Document := do
  let (rest, handles) ← directives tokens false []
  let marked := rest.head? == some .documentStart
  if !marked && rest.length != tokens.length then none
  else
    let rest := if marked then rest.tail else rest
    let none? := rest.isEmpty || (marked && (rest.head? == some .documentStart ||
      rest.head? == some .documentEnd))
    let (root, after) ← (if none? then some (empty, { tokens := rest })
      else (node (3 * rest.length + 4) true false).run
        { tokens := rest, handles := handles ++ usualHandles })
    if (documentEnds after.tokens).isEmpty then return ⟨root, after.anchors⟩ else none

end Reader

/-- Reads a text with one document. -/
def parse? (text : String) : Option Document :=
  if text.toList.all isAllowed then (Token.scan? (unixLines text.toList)).bind Reader.document
  else none

end Yaml

end Stencil.Settings
