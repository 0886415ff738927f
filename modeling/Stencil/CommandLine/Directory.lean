import Stencil.Text.Path

/-!
# Directories

A tree of directories and files in memory, addressed by paths. An absolute path starts at the root
of the tree, every other path at the working directory. Operations fail with the reasons that a
file system gives.
-/

namespace Stencil.CommandLine

/-- What a path leads to. -/
inductive Entry where
  | directory
  | text (content : String)
  /-- A file whose content is not text. -/
  | binary
deriving DecidableEq, Repr

/-- A tree with a working directory. Places are paths from the root, without dots. -/
structure Directory where
  working : List String
  entries : List (List String × Entry)
deriving DecidableEq, Repr

/-- Why an operation fails. -/
inductive Fault where
  | missing
  | exists
  | notADirectory
  | isADirectory
  | nameTooLong
  | zeroInName
  | notText
deriving DecidableEq, Repr

/-- The reason that the system gives. -/
def Fault.text : Fault → String
  | .missing => "No such file or directory (os error 2)"
  | .exists => "File exists (os error 17)"
  | .notADirectory => "Not a directory (os error 20)"
  | .isADirectory => "Is a directory (os error 21)"
  | .nameTooLong => "File name too long (os error 36)"
  | .zeroInName => "file name contained an unexpected NUL byte"
  | .notText => "stream did not contain valid UTF-8"

namespace Directory

/-- The parts of a path between slashes. -/
def parts (path : String) : List String := (Text.pieces path).filter (· ≠ "")

/-- The entry at a place. The working directory and those around it are there. -/
def get? (d : Directory) (place : List String) : Option Entry :=
  if place.isPrefixOf d.working then some .directory
  else (d.entries.find? (·.1 == place)).map Prod.snd

/-- Puts an entry at a place. -/
def put (d : Directory) (place : List String) (entry : Entry) : Directory :=
  if d.entries.any (·.1 == place) then
    { d with entries := d.entries.map fun old => if old.1 == place then (place, entry) else old }
  else { d with entries := d.entries ++ [(place, entry)] }

/-- The place one part further. Two dots lead upwards, at the root nowhere else; one dot leads
nowhere else. -/
def enter (place : List String) (part : String) : Except Fault (List String) :=
  if part = "." then .ok place
  else if 255 < part.utf8ByteSize then .error .nameTooLong
  else if part = ".." then .ok place.dropLast
  else .ok (place ++ [part])

/-- Follows the parts of a path. All but the last lead to directories; nothing need be at the last
one. -/
def follow (d : Directory) : List String → List String → Except Fault (List String)
  | here, [] => .ok here
  | here, part :: rest =>
    match d.get? here with
    | some .directory => do d.follow (← enter here part) rest
    | some _ => .error .notADirectory
    | none => .error .missing

/-- Where a path starts. -/
def origin (d : Directory) (path : String) : List String :=
  if path.startsWith "/" then [] else d.working

/-- The place that a path leads to. -/
def resolve (d : Directory) (path : String) : Except Fault (List String) :=
  if path.isEmpty then .error .missing
  else if path.toList.contains '\x00' then .error .zeroInName
  else if 4096 ≤ path.utf8ByteSize then .error .nameTooLong
  else d.follow (d.origin path) (parts path)

/-- Reads a file. The path of a file does not end with a slash. -/
def read (d : Directory) (path : String) : Except Fault String := do
  match d.get? (← d.resolve path) with
  | none => throw .missing
  | some .directory => throw .isADirectory
  | some (.text content) => if path.endsWith "/" then throw .notADirectory else return content
  | some .binary => if path.endsWith "/" then throw .notADirectory else throw .notText

/-- Stores a file, new or in place of an older one. -/
def store (d : Directory) (path : String) (entry : Entry) : Except Fault Directory := do
  let place ← d.resolve path
  if d.get? place = some .directory || path.endsWith "/" then throw .isADirectory
  else return d.put place entry

/-- Writes a file. -/
def write (d : Directory) (path content : String) : Except Fault Directory :=
  d.store path (.text content)

/-- Makes a directory where nothing is. -/
def make (d : Directory) (start parts : List String) : Except Fault Directory := do
  let place ← d.follow start parts
  if (d.get? place).isSome then throw .exists else return d.put place .directory

/-- Whether a path leads to a directory. -/
def isDirectory (d : Directory) (start parts : List String) : Bool :=
  match d.follow start parts with
  | .ok place => d.get? place = some .directory
  | .error _ => false

/-- Whether a path ends with a dot that leads nowhere else. -/
def endsIdle (parts : List String) : Bool := 1 < parts.length && parts.getLast? == some "."

/-- A path and the paths around it, from the innermost on. Those around it do not end idle, and
where they start is not one of them. -/
def ancestors (parts : List String) : List (List String) :=
  let shorter := ((List.range parts.length).map parts.take).filter fun around =>
    !around.isEmpty && !endsIdle around
  parts :: (if endsIdle parts then shorter.dropLast else shorter).reverse

/-- Makes the innermost directory that can be made, and tells which ones are left to make inside. -/
def makeOuter (d : Directory) (start : List String) :
    List (List String) → List (List String) → Except Fault (Directory × List (List String))
  | [], left => .ok (d, left)
  | parts :: around, left =>
    match d.make start parts with
    | .ok d => .ok (d, left)
    | .error .missing => d.makeOuter start around (parts :: left)
    | .error .exists => if d.isDirectory start parts then .ok (d, left) else .error .exists
    | .error fault => .error fault

/-- Makes a directory unless it exists. A failure comes with the tree that it leaves behind. -/
def ensure (start : List String) (d : Directory) (parts : List String) :
    Except (Fault × Directory) Directory :=
  match d.make start parts with
  | .ok d => .ok d
  | .error .exists => if d.isDirectory start parts then .ok d else .error (.exists, d)
  | .error fault => .error (fault, d)

/-- Creates a directory and those around it, as far as they do not exist. Where one of them cannot
be made, those around it stay. -/
def create (d : Directory) (path : String) : Except (Fault × Directory) Directory :=
  if path.toList.contains '\x00' then .error (.zeroInName, d)
  else if 4096 ≤ path.utf8ByteSize then .error (.nameTooLong, d)
  else
    let start := d.origin path
    match d.makeOuter start (ancestors (parts path)) [] with
    | .error fault => .error (fault, d)
    | .ok (outer, left) => left.foldlM (ensure start) outer

/-- The files that are new or have another content than in an older tree, by their places. -/
def changes (old new : Directory) : List (List String × String) :=
  new.entries.filterMap fun (place, entry) =>
    match entry with
    | .text content => if old.get? place = some entry then none else some (place, content)
    | _ => none

end Directory

end Stencil.CommandLine
