import Stencil.Json.Record
import Stencil.Literal
import Stencil.Operator
import Stencil.Options
import Stencil.Tree

/-!
# Small values in JSON

Spans, operators, literals, resolutions, options and levels as JSON. Writing gives every field;
reading accepts what `Json.record?` and `Json.bare?` accept.
-/

namespace Stencil

open Json (record? variant? bare? isBare required? optional? nullable?)

namespace Span

/-- Reads a 32-bit word. -/
def word? (j : Json) : Option UInt32 :=
  match j.int? with
  | some n => if 0 ≤ n ∧ n.toNat < UInt32.size then some (UInt32.ofNat n.toNat) else none
  | none => none

/-- A span as JSON. -/
def toJson (span : Span) : Json :=
  .object [("start", .nat span.start.toNat), ("end", .nat span.stop.toNat),
    ("line", .nat span.line.toNat), ("column", .nat span.column.toNat)]

/-- Reads a span. -/
def ofJson? (j : Json) : Option Span :=
  match j.record? ["start", "end", "line", "column"] with
  | some [start, stop, line, column] => do
    let start ← required? word? start
    let stop ← required? word? stop
    let line ← required? word? line
    let column ← required? word? column
    return ⟨start, stop, line, column⟩
  | _ => none

end Span

/-- An operator as JSON. -/
def Operator.toJson (op : Operator) : Json := .string op.name

/-- Reads an operator. -/
def Operator.ofJson? (inNode : Bool) (j : Json) : Option Operator :=
  (bare? inNode j).bind ofName?

namespace Literal

/-- Reads a signed 64-bit integer. -/
def int64? (j : Json) : Option Int64 :=
  match j.int? with
  | some n => if Int64.minValue.toInt ≤ n ∧ n ≤ Int64.maxValue.toInt then some (Int64.ofInt n) else none
  | none => none

/-- Reads a double. An integer stands for the double nearest to it. -/
def binary64? : Json → Option Binary64
  | .number (.int n) => some (.ofInt n)
  | .number (.float x) => some x
  | _ => none

/-- Reads the bits of a double as an unsigned integer. -/
def bits? (j : Json) : Option Binary64 :=
  match j.int? with
  | some n => if 0 ≤ n ∧ n.toNat < UInt64.size then some ⟨UInt64.ofNat n.toNat⟩ else none
  | none => none

/-- A literal as JSON, with doubles as the given function writes them. -/
def toJsonWith (float : Binary64 → Json) : Literal → Json
  | .null => .string "none"
  | .bool value => .object [("bool", .bool value)]
  | .int value => .object [("int", .int value.toInt)]
  | .float value => .object [("float", float value)]
  | .str value => .object [("str", .string value)]

/-- Reads a literal, with doubles as the given function reads them. -/
def ofJsonWith? (float? : Json → Option Binary64) (inNode : Bool) (j : Json) : Option Literal :=
  match j.variant? with
  | some ("none", content) => if isBare inNode content then some .null else none
  | some ("bool", some content) => content.1.bool?.map .bool
  | some ("int", some content) => (int64? content.1).map .int
  | some ("float", some content) => (float? content.1).map .float
  | some ("str", some content) => content.1.string?.map .str
  | _ => none

/-- A literal as JSON. -/
def toJson : Literal → Json := toJsonWith fun x => .number (.float x)

/-- Reads a literal. -/
def ofJson? : Bool → Json → Option Literal := ofJsonWith? binary64?

/-- A literal of a computation as JSON: doubles are written as their bits. -/
def toKeyJson : Literal → Json := toJsonWith fun x => .nat x.bits.toNat

/-- Reads a literal of a computation. -/
def ofKeyJson? : Bool → Json → Option Literal := ofJsonWith? bits?

end Literal

namespace Access

/-- An access as JSON. -/
def toJson : Access → Json
  | .dynamic => .object [("type", .string "dynamic")]
  | .direct name => .object [("type", .string "local"), ("name", .string name)]
  | .cached name => .object [("type", .string "alias"), ("name", .string name)]

/-- The access with the given type and name. -/
def ofParts? (type : String) (name : Option Json) : Option Access :=
  match type, name with
  | "dynamic", none => some .dynamic
  | "dynamic", some .null => some .dynamic
  | "local", some (.string name) => some (.direct name)
  | "alias", some (.string name) => some (.cached name)
  | _, _ => none

/-- Reads a type in an array: its name or, inside a node, its number. -/
def listedType? (inNode : Bool) : Json → Option String
  | .string type => some type
  | .number (.int n) => if inNode ∧ 0 ≤ n then ["dynamic", "local", "alias"][n.toNat]? else none
  | _ => none

/-- Reads an access. An array has both fields, and the type in it is no variant. -/
def ofJson? (inNode : Bool) (j : Json) : Option Access :=
  match j with
  | .array [type, name] => do ofParts? (← listedType? inNode type) name
  | .array _ => none
  | j =>
    match j.record? ["type", "name"] with
    | some [some type, name] => do ofParts? (← bare? inNode type.1) (name.map (·.1))
    | _ => none

end Access

namespace Resolution

/-- A resolution as JSON. -/
def toJson (r : Resolution) : Json :=
  .object [("cache_eligible", .bool r.cacheEligible), ("access", r.access.toJson)]

/-- Reads a resolution. -/
def ofJson? (inNode : Bool) (j : Json) : Option Resolution :=
  match j.record? ["cache_eligible", "access"] with
  | some [eligible, access] => do
    let eligible ← required? Json.bool? eligible
    let access ← required? (Access.ofJson? inNode) access
    return ⟨eligible, access⟩
  | _ => none

end Resolution

namespace Options

/-- Options as JSON. -/
def toJson (options : Options) : Json :=
  .object (Flag.all.map fun flag => (flag.name, .bool (options.get flag)))

/-- Reads options. A switch that is missing is off. -/
def ofJson? (j : Json) : Option Options :=
  match j.record? (Flag.all.map Flag.name) with
  | some [f₁, f₂, f₃, f₄, f₅, f₆, f₇] => do
    let position := optional? false Json.bool?
    return ⟨← position f₁, ← position f₂, ← position f₃, ← position f₄, ← position f₅,
      ← position f₆, ← position f₇⟩
  | _ => none

end Options

/-- A level as JSON. -/
def Level.toJson (level : Level) : Json := .string level.digit

/-- Reads a level. -/
def Level.ofJson? (j : Json) : Option Level := (bare? false j).bind ofDigit?

end Stencil
