import Stencil.Codec.Values
import Stencil.Json.Parser
import Stencil.Settings.Yaml.Document
import Stencil.Text.Path

/-!
# Option files

Options are read from a JSON or YAML file, told apart by the extension of its name, and written as
YAML with one line for each switch.
-/

namespace Stencil.Settings

/-- Why options cannot be read from a file. -/
inductive FileError where
  /-- The file cannot be read, with the reason that the system gives. -/
  | unreadable (reason : String)
  | invalidJson
  | invalidYaml
  | unsupportedFormat (path : String)
deriving DecidableEq, Repr

/-- What the error says, as far as it does not come from a reader of the format. -/
def FileError.message : FileError → String
  | .unreadable reason => "IO error: " ++ reason
  | .invalidJson => "Invalid JSON configuration"
  | .invalidYaml => "Invalid YAML configuration"
  | .unsupportedFormat path => "Unsupported configuration format: " ++ path

/-- The components of a path, from the last one back. Empty components and single dots in the middle
do not count. -/
def componentsReversed (path : String) : List String :=
  ((Text.pieces path).filter fun part => part ≠ "" ∧ part ≠ ".").reverse

/-- The last component of a path, unless the path leads upwards. -/
def fileName? (path : String) : Option String :=
  match componentsReversed path with
  | name :: _ => if name = ".." then none else some name
  | [] => none

/-- What follows the last dot of the name of a file; nothing if the only dot leads the name. -/
def extension? (path : String) : Option String := do
  let name ← fileName? path
  let reversed := name.toList.reverse
  let tail := reversed.takeWhile (· ≠ '.')
  match reversed.drop (tail.length + 1) with
  | [] => none
  | _ => some (String.ofList tail.reverse)

/-- The tag of truth values. -/
def boolTag : List UInt8 := Yaml.tagBytes "tag:yaml.org,2002:bool".toList

/-- Reads the position of a switch from a scalar. It is plain, or a literal block with the tag of
truth values. -/
def position? (value : Yaml.Scalar) : Option Bool :=
  if value.style = .plain ∨ value.style = .literal ∧ value.tag = some boolTag then
    if ["true", "True", "TRUE"].contains value.text then some true
    else if ["false", "False", "FALSE"].contains value.text then some false
    else none
  else none

/-- Sets the switch that an entry names. Entries with other names do not count; a switch is named at
most once. -/
def addEntry (d : Yaml.Document) (set : List (Flag × Bool)) (entry : Yaml × Yaml) :
    Option (List (Flag × Bool)) := do
  let name ← d.scalar? entry.1
  match Flag.ofName? name.text with
  | none => return set
  | some flag =>
    if set.any (·.1 = flag) then none
    else return (flag, ← position? (← d.scalar? entry.2)) :: set

/-- The options with the given switches on or off, and the others off. -/
def optionsOf (set : List (Flag × Bool)) : Options :=
  .ofFlags fun flag => ((set.find? (·.1 = flag)).map Prod.snd).getD false

/-- Reads options from YAML. An empty document switches nothing on. -/
def ofYaml? (d : Yaml.Document) : Option Options :=
  match d.root with
  | .scalar value => if value.style = .plain ∧ value.text = "" then some {} else none
  | .mapping entries => (entries.foldlM (addEntry d) []).map optionsOf
  | _ => none

/-- Reads options from the content of a file with the given name. -/
def parse (path content : String) : Except FileError Options :=
  match extension? path with
  | some "json" =>
    match (Json.parse? content).bind Options.ofJson? with
    | some options => .ok options
    | none => .error .invalidJson
  | some "yaml" | some "yml" =>
    match (Yaml.parse? content).bind ofYaml? with
    | some options => .ok options
    | none => .error .invalidYaml
  | _ => .error (.unsupportedFormat path)

/-- Options as YAML. -/
def toYaml (options : Options) : String :=
  String.join (Flag.all.map fun flag =>
    flag.name ++ ": " ++ (if options.get flag then "true" else "false") ++ "\n")

end Stencil.Settings
