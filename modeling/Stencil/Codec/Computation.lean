import Stencil.Codec.Values

/-!
# Computations and scopes in JSON
-/

namespace Stencil

open Json (record? variant? required? optional? nullable?)

namespace Computation

mutual

/-- A computation as JSON. -/
def toJson : Computation → Json
  | .placeholder name => .object [("placeholder", .string name)]
  | .identifier name => .object [("identifier", .string name)]
  | .literal value => .object [("literal", value.toKeyJson)]
  | .binary op left right =>
    .object [("bin_op",
      .object [("op", op.toJson), ("left", left.toJson), ("right", right.toJson)])]
  | .filter name operand =>
    .object [("filter", .object [("filter", .optionalString name), ("expr", operand.toJson)])]
  | .call callee arguments =>
    .object [("call",
      .object [("callee", callee.toJson), ("args", .array (toJsonAll arguments))])]
  | .list items => .object [("list", .array (toJsonAll items))]
termination_by structural c => c

/-- A list of computations as JSON. -/
def toJsonAll : List Computation → List Json
  | [] => []
  | c :: rest => c.toJson :: toJsonAll rest
termination_by structural cs => cs

end

mutual

/-- Reads a computation. -/
def ofJson? (inNode : Bool) (j : Json) : Option Computation :=
  match j.variant? with
  | some ("placeholder", some ⟨content, _⟩) => content.string?.map .placeholder
  | some ("identifier", some ⟨content, _⟩) => content.string?.map .identifier
  | some ("literal", some ⟨content, _⟩) => (Literal.ofKeyJson? inNode content).map .literal
  | some ("bin_op", some ⟨content, _⟩) =>
    match content.record? ["op", "left", "right"] with
    | some [op, some ⟨left, _⟩, some ⟨right, _⟩] => do
      let op ← required? (Operator.ofJson? inNode) op
      let left ← ofJson? inNode left
      let right ← ofJson? inNode right
      return .binary op left right
    | _ => none
  | some ("filter", some ⟨content, _⟩) =>
    match content.record? ["filter", "expr"] with
    | some [name, some ⟨operand, _⟩] => do
      let name ← optional? none (nullable? Json.string?) name
      let operand ← ofJson? inNode operand
      return .filter name operand
    | _ => none
  | some ("call", some ⟨content, _⟩) =>
    match content.record? ["callee", "args"] with
    | some [some ⟨callee, _⟩, some ⟨arguments, _⟩] => do
      let callee ← ofJson? inNode callee
      let arguments ← ofArray? inNode arguments
      return .call callee arguments
    | _ => none
  | some ("list", some ⟨content, _⟩) => (ofArray? inNode content).map .list
  | _ => none
termination_by sizeOf j
decreasing_by all_goals omega

/-- Reads an array of computations. -/
def ofArray? (inNode : Bool) (j : Json) : Option (List Computation) :=
  match j with
  | .array items => ofJsonAll? inNode items
  | _ => none
termination_by sizeOf j

/-- Reads a list of computations. -/
def ofJsonAll? (inNode : Bool) (items : List Json) : Option (List Computation) :=
  match items with
  | [] => some []
  | j :: rest => do
    let c ← ofJson? inNode j
    let cs ← ofJsonAll? inNode rest
    return c :: cs
termination_by sizeOf items

end

end Computation

namespace Scope

/-- A cached computation and its alias as JSON. -/
def entryToJson (entry : Computation × String) : Json :=
  .array [entry.1.toJson, .string entry.2]

/-- Reads a cached computation and its alias. -/
def entryOfJson? (inNode : Bool) : Json → Option (Computation × String)
  | .array [c, .string name] => (Computation.ofJson? inNode c).map (·, name)
  | _ => none

/-- A scope as JSON. -/
def toJson (scope : Scope) : Json :=
  .object [("local_identifiers", .strings scope.locals.toList),
    ("aliased_expression_map", .array (scope.aliases.toList.map entryToJson)),
    ("alias_name_set", .strings scope.aliasNames.toList)]

/-- Reads the entries of the map of aliases. -/
def entriesOfJson? (inNode : Bool) (j : Json) : Option (List (Computation × String)) :=
  j.items?.bind fun items => items.mapM (entryOfJson? inNode)

/-- Reads a scope. A repeated name counts once; of a repeated computation the last alias counts. -/
def ofJson? (inNode : Bool) (j : Json) : Option Scope :=
  match j.record? ["local_identifiers", "aliased_expression_map", "alias_name_set"] with
  | some [locals, aliases, aliasNames] => do
    let locals ← optional? [] Json.strings? locals
    let aliases ← optional? [] (entriesOfJson? inNode) aliases
    let aliasNames ← optional? [] Json.strings? aliasNames
    return ⟨.ofList locals, .ofList aliases, .ofList aliasNames⟩
  | _ => none

end Scope

end Stencil
