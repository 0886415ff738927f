import Stencil.CommandLine.Run

/-!
# The program
-/

namespace Stencil.CommandLine

/-- The reason that the system gives for a failure. -/
def reason : IO.Error → String
  | .noFileOrDirectory .. => Fault.missing.text
  | .alreadyExists .. => Fault.exists.text
  | .inappropriateType .. => Fault.notADirectory.text
  | e => toString e

/-- Runs an operation on files, and keeps the reason of a failure. -/
def attempt {α : Type} (action : IO α) : IO (Except String α) := do
  try
    return .ok (← action)
  catch e =>
    return .error (reason e)

/-- The operations on the files of the system. -/
def systemFiles : Files IO where
  read path := attempt (IO.FS.readFile path)
  write path content := attempt (IO.FS.writeFile path content)
  createDirectory path := attempt (IO.FS.createDirAll path)

end Stencil.CommandLine

/-- Runs the command line on the files of the system. -/
def main (args : List String) : IO UInt32 := do
  let outcome ← Stencil.CommandLine.run Stencil.CommandLine.systemFiles args
  for line in outcome.output do
    IO.println line
  for line in outcome.errors do
    IO.eprintln line
  return UInt32.ofNat outcome.exitCode
