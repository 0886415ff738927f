import Stencil.Options

/-!
# Arguments of the command line

Arguments are read from left to right; the first thing that is wrong, or a request for help or for
the version, ends the reading. An option takes a value from the same argument or from the next one,
and may be given once. After a lone `--` every argument is a file.
-/

namespace Stencil.CommandLine

/-- What the arguments ask for. -/
structure Arguments where
  files : List String := []
  config : Option String := none
  level : Option String := none
  outputDirectory : Option String := none
  init : Bool := false
  plain : Bool := false
  overrides : List (Flag × Bool) := []

/-- Why the arguments ask for no work. -/
inductive Refusal where
  | badUsage
  | showHelp
  | showVersion
deriving DecidableEq, Repr

/-- An option that takes a value. -/
inductive ValueOption where
  | config
  | level
  | outputDirectory
  | switch (flag : Flag)
deriving DecidableEq, Repr

/-- What an argument with dashes names. -/
inductive Named where
  | takes (option : ValueOption)
  | init
  | plain
  | help
  | version
deriving DecidableEq, Repr

namespace Arguments

/-- The switches of the command line have the names of option files, with dashes. -/
def switchName (flag : Flag) : String :=
  String.ofList (flag.name.toList.map fun c => if c = '_' then '-' else c)

/-- What a name after two dashes stands for. -/
def longName? (name : String) : Option Named :=
  match name with
  | "config" => some (.takes .config)
  | "opt-level" => some (.takes .level)
  | "out-dir" => some (.takes .outputDirectory)
  | "init" => some .init
  | "plain" => some .plain
  | "help" => some .help
  | "version" => some .version
  | _ => (Flag.all.find? (switchName · == name)).map fun flag => .takes (.switch flag)

/-- What a letter after one dash stands for. -/
def shortName? : Char → Option Named
  | 'c' => some (.takes .config)
  | 'O' => some (.takes .level)
  | 'h' => some .help
  | 'V' => some .version
  | _ => none

/-- Sets an option that is not set yet. -/
def once {α : Type} (old : Option α) (value : α) : Except Refusal (Option α) :=
  if old.isSome then .error .badUsage else .ok (some value)

/-- A path, which cannot be empty. -/
def path (value : String) : Except Refusal String :=
  if value.isEmpty then .error .badUsage else .ok value

/-- The position of a switch. -/
def position (value : String) : Except Refusal Bool :=
  match value with
  | "true" => .ok true
  | "false" => .ok false
  | _ => .error .badUsage

/-- Takes the value of an option. -/
def setValue (a : Arguments) (option : ValueOption) (value : String) : Except Refusal Arguments :=
  match option with
  | .config => do return { a with config := ← once a.config (← path value) }
  | .level => do return { a with level := ← once a.level value }
  | .outputDirectory => do
    return { a with outputDirectory := ← once a.outputDirectory (← path value) }
  | .switch flag => do
    if a.overrides.any (·.1 = flag) then throw .badUsage
    return { a with overrides := a.overrides ++ [(flag, ← position value)] }

/-- Takes something that has no value. -/
def setBare (a : Arguments) : Named → Except Refusal Arguments
  | .init => if a.init then .error .badUsage else .ok { a with init := true }
  | .plain => if a.plain then .error .badUsage else .ok { a with plain := true }
  | .help => .error .showHelp
  | .version => .error .showVersion
  | .takes _ => .error .badUsage

/-- Takes a file. -/
def addFile (a : Arguments) (file : String) : Except Refusal Arguments := do
  return { a with files := a.files ++ [← path file] }

/-- Whether an argument cannot be the value of the option before it. -/
def looksNamed (arg : String) : Bool := arg.startsWith "-" && arg ≠ "-"

/-- A name and the value written after an equals sign. -/
def splitValue (text : List Char) : String × Option String :=
  let name := text.takeWhile (· ≠ '=')
  match text.drop name.length with
  | [] => (String.ofList name, none)
  | _ :: value => (String.ofList name, some (String.ofList value))

/-- The value of a letter that takes one, from the same argument. -/
def attachedValue? : List Char → Option String
  | [] => none
  | '=' :: rest => some (String.ofList rest)
  | rest => some (String.ofList rest)

/-- Takes letters after one dash. The result tells which option still waits for its value. -/
def setLetters (a : Arguments) : List Char → Except Refusal (Arguments × Option ValueOption)
  | [] => .ok (a, none)
  | c :: rest =>
    match shortName? c with
    | none => .error .badUsage
    | some (.takes option) =>
      match attachedValue? rest with
      | some value => do return (← a.setValue option value, none)
      | none => .ok (a, some option)
    | some named => do
      let a ← a.setBare named
      a.setLetters rest

/-- Takes one argument with dashes. The result tells which option still waits for its value. -/
def setNamed (a : Arguments) (arg : String) : Except Refusal (Arguments × Option ValueOption) :=
  match arg.toList with
  | '-' :: '-' :: rest =>
    let (name, value) := splitValue rest
    match longName? name, value with
    | none, _ => .error .badUsage
    | some (.takes option), some value => do return (← a.setValue option value, none)
    | some (.takes option), none => .ok (a, some option)
    | some _, some _ => .error .badUsage
    | some named, none => do return (← a.setBare named, none)
  | '-' :: letters => a.setLetters letters
  | _ => .error .badUsage

/-- Reads the remaining arguments, the first of which may be the value of an option. -/
def parseFrom (a : Arguments) (waiting : Option ValueOption) :
    List String → Except Refusal Arguments
  | [] => if waiting.isSome then .error .badUsage else .ok a
  | arg :: rest =>
    match waiting with
    | some option =>
      if looksNamed arg then .error .badUsage
      else do (← a.setValue option arg).parseFrom none rest
    | none =>
      if arg = "--" then rest.foldlM addFile a
      else if looksNamed arg then do
        let (a, waiting) ← a.setNamed arg
        a.parseFrom waiting rest
      else do (← a.addFile arg).parseFrom none rest

/-- Reads arguments. -/
def parse (args : List String) : Except Refusal Arguments := parseFrom {} none args

/-- The switches that the arguments set. -/
def toOverrides (a : Arguments) : Overrides :=
  fun flag => (a.overrides.find? (·.1 = flag)).map Prod.snd

end Arguments

end Stencil.CommandLine
