import NullPath.Command

/-!
# The program

Reads the command line and the settings file, and reports what is wrong with them.
-/

namespace NullPath

/-- The text of a file, if it can be read. -/
def fileText (path : String) : IO (Option String) := do
  try
    return some (← IO.FS.readFile path)
  catch _ =>
    return none

/-- The settings file that a command line asks for. -/
def requestedFile : List String → Option String
  | "check" :: args => Command.settingsFile? args
  | _ => none

/-- Runs a command and gives its exit status. -/
def runCommand (args : List String) : IO UInt32 := do
  let text ← match requestedFile args with
    | some path => fileText path
    | none => pure none
  let outcome := Command.run (fun _ => text) args
  let stderr ← IO.getStderr
  stderr.putStr outcome.messages
  match outcome.result with
  | .ok _ =>
    stderr.putStrLn "packages cannot be loaded"
    return 1
  | .error (.error e) =>
    unless e.cause = .helpRequested do stderr.putStrLn e.message
    return 1
  | .error (.fault f) =>
    stderr.putStrLn f.message
    return 2

end NullPath

/-- The entry point. -/
def main (args : List String) : IO UInt32 :=
  NullPath.runCommand args
