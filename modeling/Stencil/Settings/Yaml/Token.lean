import Stencil.Settings.Yaml.Scalar

/-!
# Tokens of YAML text

Besides scalars and marks there are tokens that no character stands for: the start and the end of a
block collection, which indentation tells, and the start of a key, which the colon after it tells.
This module has the tokens, and reads those that start with `%`, `&`, `*` and `!`.
-/

namespace Stencil.Settings.Yaml

/-- A token of YAML text. -/
inductive Token where
  | version (major minor : Nat)
  /-- A directive that tells what a tag handle stands for. -/
  | handle (name : String) (expansion : List UInt8)
  | documentStart
  | documentEnd
  | blockSequence
  | blockMapping
  | blockEnd
  | openBracket
  | closeBracket
  | openBrace
  | closeBrace
  | comma
  | dash
  | key
  | value
  | anchor (name : String)
  /-- A reference to the node with an anchor. -/
  | reference (name : String)
  | tag (handle : String) (suffix : List UInt8)
  | scalar (style : Style) (text : String)
deriving DecidableEq, Repr

/-! ## Names of anchors -/

/-- Whether the name of an anchor can end here. -/
def endsName (cs : List Char) : Bool :=
  endsWord cs || cs.head?.any "?:,]\x7d%@`".toList.contains

/-- Reads the name after the mark of an anchor. -/
def anchorName? (cur : Cursor) : Option (String × Cursor) :=
  let name := cur.next.taken isNamePart
  let after := cur.next.drop name.length
  if name.isEmpty || !endsName after.rest then none else some (String.ofList name, after)

/-! ## Tags -/

/-- Whether a character can stand in a tag. -/
def isTagPart (verbatim : Bool) (c : Char) : Bool :=
  isNamePart c || ";/?:@&=+$.!~*'()".toList.contains c || (verbatim && ",[]".toList.contains c)

/-- The number of bytes of a character whose first byte is given. -/
def byteCount? (first : Nat) : Option Nat :=
  if first < 0x80 then some 1
  else if 0xc0 ≤ first ∧ first < 0xe0 then some 2
  else if 0xe0 ≤ first ∧ first < 0xf0 then some 3
  else if 0xf0 ≤ first ∧ first < 0xf8 then some 4
  else none

/-- Reads bytes that go on with a character, each written with a percent sign. -/
def trailingBytes? : Nat → List Char → Option (List UInt8)
  | 0, _ => some []
  | n + 1, '%' :: cs => do
    let byte ← hexNumber? 2 cs
    if 0x80 ≤ byte ∧ byte < 0xc0 then return UInt8.ofNat byte :: (← trailingBytes? n (cs.drop 2))
    else none
  | _, _ => none

/-- Reads the bytes of a character, each written with a percent sign. Only the form of the first byte
and of those after it is checked, so they need not stand for a character. -/
def percentEscape? : List Char → Option (List UInt8)
  | '%' :: cs => do
    let first ← hexNumber? 2 cs
    let count ← byteCount? first
    return UInt8.ofNat first :: (← trailingBytes? (count - 1) (cs.drop 2))
  | _ => none

/-- The bytes of a text that consists of tag characters. -/
def tagBytes (text : List Char) : List UInt8 := text.map Char.toUInt8

/-- Reads the bytes of a tag, in reverse order. -/
def tagText? (verbatim : Bool) : Nat → List UInt8 → Cursor → Option (List UInt8 × Cursor)
  | 0, _, _ => none
  | fuel + 1, read, cur =>
    match cur.rest with
    | [] => some (read, cur)
    | c :: _ =>
      if c == '%' then do
        let bytes ← percentEscape? cur.rest
        tagText? verbatim fuel (bytes.reverse ++ read) (cur.drop (3 * bytes.length))
      else if isTagPart verbatim c then tagText? verbatim fuel (c.toUInt8 :: read) cur.next
      else some (read, cur)

/-- Reads the bytes of a tag after a given start of it. -/
def tagSuffix? (verbatim : Bool) (start : List Char) (cur : Cursor) :
    Option (List UInt8 × Cursor) := do
  let (read, after) ← tagText? verbatim (cur.rest.length + 1) (tagBytes start).reverse cur
  return (read.reverse, after)

/-- What counts of a tag: the bytes before the first zero. -/
def untilZero (bytes : List UInt8) : List UInt8 := bytes.takeWhile (· ≠ 0)

/-- The characters of a handle, from its exclamation mark on: a name, and a mark after it if there is
one. -/
def handleText (cur : Cursor) : List Char × Cursor :=
  let name := cur.next.taken isNamePart
  let after := cur.next.drop name.length
  if after.sees '!' then ('!' :: name ++ ['!'], after.next) else ('!' :: name, after)

/-- Reads a tag without what has to follow it. -/
def tagToken? (cur : Cursor) : Option (Token × Cursor) :=
  if cur.next.sees '<' then do
    let (suffix, after) ← tagSuffix? true [] (cur.drop 2)
    if suffix.isEmpty || !after.sees '>' then none
    else some (.tag "" (untilZero suffix), after.next)
  else
    let (text, after) := handleText cur
    if 1 < text.length && text.getLast? == some '!' then do
      let (suffix, after) ← tagSuffix? false [] after
      if suffix.isEmpty then none else some (.tag (String.ofList text) (untilZero suffix), after)
    else do
      let (suffix, after) ← tagSuffix? false (text.drop 1) after
      match untilZero suffix with
      | [] => return (.tag "" (tagBytes ['!']), after)
      | suffix => return (.tag "!" suffix, after)

/-- Reads a tag. A gap has to follow it or, inside brackets, a comma. -/
def tag? (inFlow : Bool) (cur : Cursor) : Option (Token × Cursor) := do
  let (token, after) ← tagToken? cur
  if endsWord after.rest || (inFlow && after.sees ',') then return (token, after) else none

/-! ## Directives -/

/-- Reads a part of a version. -/
def versionPart? (cur : Cursor) : Option (Nat × Cursor) :=
  let digits := cur.taken Char.isDigit
  if digits.isEmpty || 9 < digits.length then none
  else
    let n := digits.foldl (fun n c => n * 10 + (c.toNat - '0'.toNat)) 0
    some (n, cur.drop digits.length)

/-- Reads the version of a directive. -/
def version? (cur : Cursor) : Option (Token × Cursor) := do
  let (major, cur) ← versionPart? (cur.skip isBlank)
  if cur.sees '.' then
    let (minor, cur) ← versionPart? cur.next
    return (.version major minor, cur)
  else none

/-- Reads the handle and the expansion of a directive. -/
def handle? (cur : Cursor) : Option (Token × Cursor) := do
  let cur := cur.skip isBlank
  if !cur.sees '!' then none
  else
    let (text, cur) := handleText cur
    if 1 < text.length && text.getLast? != some '!' then none
    else if !cur.rest.head?.any isBlank then none
    else do
      let (expansion, cur) ← tagSuffix? true [] (cur.skip isBlank)
      if expansion.isEmpty || !endsWord cur.rest then none
      else return (.handle (String.ofList text) (untilZero expansion), cur)

/-- Reads a directive up to the end of its line. -/
def directive? (cur : Cursor) : Option (Token × Cursor) := do
  let name := cur.next.taken isNamePart
  let after := cur.next.drop name.length
  if !endsWord after.rest then none
  else
    let (token, after) ← (match String.ofList name with
      | "YAML" => version? after
      | "TAG" => handle? after
      | _ => none)
    return (token, ← restOfLine? after)

end Stencil.Settings.Yaml
