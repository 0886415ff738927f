import Stencil.Codec.Computation

/-!
# Trees in JSON

A node is an object with its kind, its data and its span. A node that is read may leave out its
span, and fields that have a usual value; a node that is written has all of them. Everything in a
node but its span has to be readable, also what is not needed.
-/

namespace Stencil

open Json (bare? required? optional? nullable?)

/-- A node as JSON, from its kind, its data and its span. -/
def Node.taggedJson (kind : String) (data : Json) (span : Span) : Json :=
  .object [("kind", .string kind), ("data", data), ("span", span.toJson)]

/-- A block as JSON, from its statements and its scope. -/
def Block.partsJson (body : List Json) (scope : Scope) : Json :=
  .object [("body", .array body), ("scope", scope.toJson)]

mutual

/-- A node as JSON. -/
def Node.toJson : Node → Json
  | .template span name globals body =>
    Node.taggedJson "template"
      (.object [("name", .string name), ("global_placeholders", .strings globals.toList),
        ("body", .array (Node.toJsonAll body))]) span
  | .function span name ⟨body, scope⟩ =>
    Node.taggedJson "function"
      (.object [("name", .string name), ("body", Block.partsJson (Node.toJsonAll body) scope)]) span
  | .conditional span condition ⟨thenBody, thenScope⟩ none =>
    Node.taggedJson "if"
      (.object [("condition", condition.toJson),
        ("then_branch", Block.partsJson (Node.toJsonAll thenBody) thenScope),
        ("else_branch", .null)]) span
  | .conditional span condition ⟨thenBody, thenScope⟩ (some ⟨elseBody, elseScope⟩) =>
    Node.taggedJson "if"
      (.object [("condition", condition.toJson),
        ("then_branch", Block.partsJson (Node.toJsonAll thenBody) thenScope),
        ("else_branch", Block.partsJson (Node.toJsonAll elseBody) elseScope)]) span
  | .assign span target value =>
    Node.taggedJson "assign" (.object [("target", .string target), ("value", value.toJson)]) span
  | .identifier span name => Node.taggedJson "identifier" (.string name) span
  | .placeholder span name resolution =>
    Node.taggedJson "placeholder"
      (.object [("name", .string name),
        ("resolution", (resolution.map Resolution.toJson).getD .null)]) span
  | .literal span value => Node.taggedJson "literal" value.toJson span
  | .binary span op left right =>
    Node.taggedJson "bin_op"
      (.object [("op", op.toJson), ("left", left.toJson), ("right", right.toJson)]) span
  | .filter span operand name cachedAs =>
    Node.taggedJson "filter"
      (.object [("expr", operand.toJson), ("filter", .optionalString name),
        ("cached_as", .optionalString cachedAs)]) span
  | .call span callee arguments =>
    Node.taggedJson "call"
      (.object [("callee", callee.toJson), ("args", .array (Node.toJsonAll arguments))]) span
  | .list span items => Node.taggedJson "list_literal" (.array (Node.toJsonAll items)) span
  | .write span operand => Node.taggedJson "buffer_write" operand.toJson span
termination_by structural n => n

/-- A list of nodes as JSON. -/
def Node.toJsonAll : List Node → List Json
  | [] => []
  | n :: rest => n.toJson :: Node.toJsonAll rest
termination_by structural ns => ns

end

/-- A block as JSON. -/
def Block.toJson (block : Block Node) : Json :=
  partsJson (Node.toJsonAll block.body) block.scope

mutual

/-- Reads a node. -/
def Node.ofJson? (j : Json) : Option Node :=
  match j, j.record? ["kind", "data", "span"] with
  | .object fields, some [some kind, some ⟨data, _⟩, span] =>
    if Json.fieldsReadable (fields.filter (·.1 ≠ "span")) then
      match bare? true kind.1, optional? .generated Span.ofJson? span with
      | some kind, some span => Node.ofData? kind data span
      | _, _ => none
    else none
  | _, _ => none
termination_by 2 * sizeOf j
decreasing_by omega

/-- Reads the data of a node of the given kind. -/
def Node.ofData? (kind : String) (data : Json) (span : Span) : Option Node :=
  match kind with
  | "template" =>
    match data.record? ["name", "global_placeholders", "body"] with
    | some [name, globals, body] => do
      let name ← required? Json.string? name
      let globals ← optional? [] Json.strings? globals
      let body ← (match body with
        | none => some []
        | some ⟨body, _⟩ => Node.ofArray? body)
      return .template span name (.ofList globals) body
    | _ => none
  | "function" =>
    match data.record? ["name", "body"] with
    | some [name, some ⟨body, _⟩] => do
      let name ← required? Json.string? name
      let body ← Block.ofJson? true body
      return .function span name body
    | _ => none
  | "if" =>
    match data.record? ["condition", "then_branch", "else_branch"] with
    | some [some ⟨condition, _⟩, some ⟨thenBranch, _⟩, elseBranch] => do
      let condition ← Node.ofJson? condition
      let thenBranch ← Block.ofJson? true thenBranch
      let elseBranch ← (match elseBranch with
        | none => some none
        | some ⟨.null, _⟩ => some none
        | some ⟨elseBranch, _⟩ => (Block.ofJson? true elseBranch).map some)
      return .conditional span condition thenBranch elseBranch
    | _ => none
  | "assign" =>
    match data.record? ["target", "value"] with
    | some [target, some ⟨value, _⟩] => do
      let target ← required? Json.string? target
      let value ← Node.ofJson? value
      return .assign span target value
    | _ => none
  | "identifier" => data.string?.map (.identifier span)
  | "placeholder" =>
    match data.record? ["name", "resolution"] with
    | some [name, resolution] => do
      let name ← required? Json.string? name
      let resolution ← optional? none (nullable? (Resolution.ofJson? true)) resolution
      return .placeholder span name resolution
    | _ => none
  | "literal" => (Literal.ofJson? true data).map (.literal span)
  | "bin_op" =>
    match data.record? ["op", "left", "right"] with
    | some [op, some ⟨left, _⟩, some ⟨right, _⟩] => do
      let op ← required? (Operator.ofJson? true) op
      let left ← Node.ofJson? left
      let right ← Node.ofJson? right
      return .binary span op left right
    | _ => none
  | "filter" =>
    match data.record? ["expr", "filter", "cached_as"] with
    | some [some ⟨operand, _⟩, name, cachedAs] => do
      let operand ← Node.ofJson? operand
      let name ← optional? none (nullable? Json.string?) name
      let cachedAs ← optional? none (nullable? Json.string?) cachedAs
      return .filter span operand name cachedAs
    | _ => none
  | "call" =>
    match data.record? ["callee", "args"] with
    | some [some ⟨callee, _⟩, arguments] => do
      let callee ← Node.ofJson? callee
      let arguments ← (match arguments with
        | none => some []
        | some ⟨arguments, _⟩ => Node.ofArray? arguments)
      return .call span callee arguments
    | _ => none
  | "list_literal" => (Node.ofArray? data).map (.list span)
  | "buffer_write" => (Node.ofJson? data).map (.write span)
  | _ => none
termination_by 2 * sizeOf data + 1
decreasing_by all_goals omega

/-- Reads an array of nodes. -/
def Node.ofArray? (j : Json) : Option (List Node) :=
  match j with
  | .array items => Node.ofJsonAll? items
  | _ => none
termination_by 2 * sizeOf j

/-- Reads a list of nodes. -/
def Node.ofJsonAll? (items : List Json) : Option (List Node) :=
  match items with
  | [] => some []
  | j :: rest => do
    let n ← Node.ofJson? j
    let ns ← Node.ofJsonAll? rest
    return n :: ns
termination_by 2 * sizeOf items

/-- Reads a block. -/
def Block.ofJson? (inNode : Bool) (j : Json) : Option (Block Node) :=
  match j.record? ["body", "scope"] with
  | some [body, scope] => do
    let body ← (match body with
      | none => some []
      | some ⟨body, _⟩ => Node.ofArray? body)
    let scope ← optional? ∅ (Scope.ofJson? inNode) scope
    return ⟨body, scope⟩
  | _ => none
termination_by 2 * sizeOf j
decreasing_by omega

end

end Stencil
