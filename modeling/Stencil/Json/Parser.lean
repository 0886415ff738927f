import Stencil.Json.Token

/-!
# Reading JSON text

Tokens are assembled into a value on a stack of arrays and objects that are not yet closed. One that
is nested more than 127 deep is unreadable, so that it can only be passed over. Commas stand only
between members, and nothing follows the value.
-/

namespace Stencil.Json

/-- An array or object that is not yet closed. Members stand in reverse order; an unreadable name is
missing. -/
inductive Assembly.Open where
  | array (items : List Json)
  | object (fields : List (Option String × Json))
  /-- An object after a field name. -/
  | field (fields : List (Option String × Json)) (name : Option String)

/-- What may come next. -/
inductive Assembly.Expecting where
  | value
  /-- The first item of an array, or its end. -/
  | itemOrEnd
  /-- The first field of an object, or its end. -/
  | fieldOrEnd
  | field
  | colon
  | commaOrEnd
  | nothing (result : Json)

/-- Values that are not yet closed, the innermost first. -/
structure Assembly where
  stack : List Assembly.Open
  expecting : Assembly.Expecting

namespace Assembly

/-- How deep arrays and objects may be nested to be readable. -/
def depthLimit : Nat := 127

/-- Whether an array or object inside the given open ones is readable. -/
def isShallow (stack : List Open) : Bool := (stack.drop (depthLimit - 1)).isEmpty

/-- Puts a finished value where it belongs. -/
def complete (stack : List Open) (value : Json) : Option Assembly :=
  match stack with
  | [] => some ⟨[], .nothing value⟩
  | .array items :: rest => some ⟨.array (value :: items) :: rest, .commaOrEnd⟩
  | .field fields name :: rest => some ⟨.object ((name, value) :: fields) :: rest, .commaOrEnd⟩
  | .object _ :: _ => none

/-- Puts a closed array or object where it belongs. -/
def ascend (stack : List Open) (value : Json) : Option Assembly :=
  complete stack (if isShallow stack then value else .unreadable)

/-- Begins a value. -/
def beginValue (stack : List Open) : Token → Option Assembly
  | .atom value => complete stack value
  | .string (some value) => complete stack (.string value)
  | .string none => complete stack .unreadable
  | .openBracket => some ⟨.array [] :: stack, .itemOrEnd⟩
  | .openBrace => some ⟨.object [] :: stack, .fieldOrEnd⟩
  | _ => none

/-- Begins a field of an object. -/
def beginField (stack : List Open) (name : Option String) : Option Assembly :=
  match stack with
  | .object fields :: rest => some ⟨.field fields name :: rest, .colon⟩
  | _ => none

/-- The object with the given fields, unless a name is unreadable. -/
def objectOf (fields : List (Option String × Json)) : Json :=
  match fields.mapM fun (name, value) => name.map (·, value) with
  | some fields => .object fields
  | none => .unreadable

/-- Closes the innermost array or object. -/
def close (stack : List Open) : Token → Option Assembly
  | .closeBracket =>
    match stack with
    | .array items :: rest => ascend rest (.array items.reverse)
    | _ => none
  | .closeBrace =>
    match stack with
    | .object fields :: rest => ascend rest (objectOf fields.reverse)
    | _ => none
  | _ => none

/-- Goes on after a comma. -/
def next (stack : List Open) : Option Assembly :=
  match stack with
  | .array _ :: _ => some ⟨stack, .value⟩
  | .object _ :: _ => some ⟨stack, .field⟩
  | _ => none

/-- Takes one token. -/
def step (a : Assembly) (token : Token) : Option Assembly :=
  match a.expecting, token with
  | .value, t => beginValue a.stack t
  | .itemOrEnd, .closeBracket => close a.stack .closeBracket
  | .itemOrEnd, t => beginValue a.stack t
  | .fieldOrEnd, .closeBrace => close a.stack .closeBrace
  | .fieldOrEnd, .string name => beginField a.stack name
  | .field, .string name => beginField a.stack name
  | .colon, .colon => some { a with expecting := .value }
  | .commaOrEnd, .comma => next a.stack
  | .commaOrEnd, t => close a.stack t
  | _, _ => none

/-- The value, once it is complete. -/
def result? (a : Assembly) : Option Json :=
  match a.expecting with
  | .nothing value => some value
  | _ => none

end Assembly

/-- Reads a value. -/
def parse? (text : String) : Option Json := do
  let tokens ← Token.scan? text
  let a ← tokens.foldlM Assembly.step ⟨[], .value⟩
  a.result?

end Stencil.Json
