import Stencil.Codec.Tree
import Stencil.CommandLine.Arguments
import Stencil.CommandLine.Directory
import Stencil.Json.Printer
import Stencil.Optimize
import Stencil.Settings.File

/-!
# Running the command line

The work that arguments ask for, in terms of three operations on files. Each file is optimised on
its own; what is said about it comes before the summary of the failures.
-/

namespace Stencil.CommandLine

/-- The operations on files that a run needs. A failure is the reason that the system gives. -/
structure Files (m : Type → Type) where
  read : String → m (Except String String)
  write : String → String → m (Except String Unit)
  createDirectory : String → m (Except String Unit)

/-- What a run leaves behind besides files. -/
structure Outcome where
  exitCode : Nat
  output : List String := []
  errors : List String := []

/-- What became of one file. -/
inductive FileResult where
  | optimized
  /-- The analysis failed, and the diagnostics tell why. -/
  | rejected
  | failed (message : String)

/-- The file that `--init` writes. -/
def configFile : String := "cinder.yaml"

/-- The version as it is shown. -/
def versionLine : String := "cinder 0.1.0"

/-- How the program is called. -/
def usageLine : String := "Usage: cinder [OPTIONS] [FILE]..."

/-- The path that the optimised tree of a file is written to. -/
def outputPath (file directory : String) : String :=
  let name := (Settings.fileName? file).getD "template.json"
  if directory.isEmpty || directory.endsWith "/" then directory ++ name
  else directory ++ "/" ++ name

/-- The level that the arguments name. -/
def Arguments.chosenLevel (a : Arguments) : Except String Level :=
  match a.level with
  | none => .ok .zero
  | some text =>
    match Level.parse? text with
    | some level => .ok level
    | none => .error ("invalid optimization level '" ++ text ++ "', expected 0-3")

section Effects

variable {m : Type → Type} [Monad m]

/-- Reads the options in a file. -/
def readOptions (files : Files m) (path : String) : m (Except Settings.FileError Options) := do
  match ← files.read path with
  | .error reason => return .error (.unreadable reason)
  | .ok content => return Settings.parse path content

/-- Writes the options of a level to a file. -/
def writeOptions (files : Files m) (path : String) (level : Level) :
    m (Except Settings.FileError Unit) := do
  return (← files.write path (Settings.toYaml level.options)).mapError .unreadable

/-- The options that the arguments choose: those of a file or of a level, and then single
switches. -/
def loadOptions (files : Files m) (a : Arguments) : m (Except String Options) := do
  let base ← (match a.config with
    | none => pure (a.chosenLevel.map Level.options)
    | some path => do
      return (← readOptions files path).mapError fun _ => "failed to load config " ++ path)
  return base.map (·.override a.toOverrides)

/-- Writes the optimised tree of a file. -/
def writeTree (files : Files m) (file directory : String) (tree : Node) : m FileResult := do
  let path := outputPath file directory
  match ← files.createDirectory directory with
  | .error reason => return .failed ("failed to create " ++ directory ++ ": " ++ reason)
  | .ok _ =>
    match ← files.write path tree.toJson.pretty with
    | .error reason => return .failed ("failed to write " ++ path ++ ": " ++ reason)
    | .ok _ => return .optimized

/-- Optimises one file. The result comes with the lines that show its diagnostics. -/
def optimizeFile (files : Files m) (a : Arguments) (options : Options) (file : String) :
    m (FileResult × List String) := do
  match ← files.read file with
  | .error reason => return (.failed ("failed to read " ++ file ++ ": " ++ reason), [])
  | .ok source =>
    match (Json.parse? source).bind Node.ofJson? with
    | none => return (.failed "malformed syntax tree", [])
    | some root =>
      match root.optimize options with
      | .error failure => return (.rejected, failure.diagnostics.map (·.line (!a.plain) file))
      | .ok o =>
        let lines := o.diagnostics.map (·.line (!a.plain) file)
        match a.outputDirectory with
        | none => return (.optimized, lines)
        | some directory => return (← writeTree files file directory o.tree, lines)

/-- Optimises files one after another. -/
def optimizeFiles (files : Files m) (a : Arguments) (options : Options) :
    List String → m (List (String × FileResult × List String))
  | [] => return []
  | file :: rest => do
    let result ← optimizeFile files a options file
    return (file, result) :: (← optimizeFiles files a options rest)

/-- The line that reports a file that could not be treated. -/
def failureLine? (file : String) : FileResult → Option String
  | .failed message => some ("error: " ++ file ++ ": " ++ message)
  | _ => none

/-- Whether a file was treated without error. -/
def FileResult.isOptimized : FileResult → Bool
  | .optimized => true
  | _ => false

/-- What remains to be said when all files are treated. -/
def summarize (results : List (String × FileResult × List String)) : Outcome :=
  { exitCode := if results.all (·.2.1.isOptimized) then 0 else 1
    errors := results.flatMap (·.2.2) ++ results.filterMap fun r => failureLine? r.1 r.2.1 }

/-- A run that ends with an error. -/
def abort (message : String) : Outcome := { exitCode := 1, errors := ["Error: " ++ message] }

/-- Writes a file with the options of the chosen level. -/
def writeConfig (files : Files m) (a : Arguments) : m Outcome := do
  match a.chosenLevel with
  | .error message => return abort message
  | .ok level =>
    match ← writeOptions files configFile level with
    | .error _ => return abort ("failed to write " ++ configFile)
    | .ok _ => return { exitCode := 0, output := ["Created " ++ configFile] }

/-- Does what the arguments ask for. -/
def work (files : Files m) (a : Arguments) : m Outcome := do
  if a.init then writeConfig files a
  else if a.files.isEmpty then
    return abort "No input files specified. Use --help for usage information."
  else
    match ← loadOptions files a with
    | .error message => return abort message
    | .ok options => return summarize (← optimizeFiles files a options a.files)

/-- Runs the command line. -/
def run (files : Files m) (args : List String) : m Outcome :=
  match Arguments.parse args with
  | .ok a => work files a
  | .error .badUsage => pure { exitCode := 2, errors := [usageLine] }
  | .error .showHelp => pure { exitCode := 0, output := [usageLine] }
  | .error .showVersion => pure { exitCode := 0, output := [versionLine] }

end Effects

/-- The operations on a directory in memory. -/
def Directory.files : Files (StateM Directory) where
  read path := do return (← get).read path |>.mapError Fault.text
  write path content := do
    match (← get).write path content with
    | .ok d => set d; return .ok ()
    | .error fault => return .error fault.text
  createDirectory path := do
    match (← get).create path with
    | .ok d => set d; return .ok ()
    | .error (fault, d) => set d; return .error fault.text

/-- Runs the command line in a directory in memory. -/
def runIn (d : Directory) (args : List String) : Outcome × Directory :=
  (run Directory.files args).run d

end Stencil.CommandLine
