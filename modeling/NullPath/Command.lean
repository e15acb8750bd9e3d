import NullPath.Settings.File
import NullPath.Settings.Flags

/-!
# Commands

* `Command.check`: reads the flags and settings of a check.
* `Command.run`: chooses a command.
-/

namespace NullPath.Command

/-- What a check is to be done on, and how. -/
structure Check where
  settings : Settings
  packages : List String
  verbose : Bool := false
  recordDir : String := ""
  dump : Bool := false

/-- How a command ended: its result, and what it wrote for the user to read. -/
structure Outcome (α : Type) where
  result : Except Failure α
  messages : String := ""

/-- The flags of a check. -/
def flagKind? : String → Option Flag.Kind
  | "v" | "inline" | "unsafe" | "tests" | "dump" => some .switch
  | "config" | "format" | "search" | "solver" | "solver-path" | "smt-dir" => some .text
  | "unroll" | "j" => some .number
  | "timeout" => some .duration
  | _ => none

/-- How to use a check. -/
def checkUsage : String :=
  "usage: nilsym check [arguments] [packages]\n" ++
  "\n" ++
  "Arguments:\n" ++
  "\n" ++
  "\t-v\n" ++
  "\t    Enable verbose logging.\n" ++
  "\t-config PATH\n" ++
  "\t    Read settings from a YAML file. Flags override file settings.\n" ++
  "\t-format FORMAT\n" ++
  "\t    Report format: text, json, markdown or html. Defaults to text.\n" ++
  "\t-unroll N\n" ++
  "\t    Maximum visits of a block on a single path. Defaults to 5.\n" ++
  "\t-inline\n" ++
  "\t    Inline calls to functions in the loaded packages.\n" ++
  "\t-search STRATEGY\n" ++
  "\t    Path search order: dfs, bfs or random. Join names with \"+\",\n" ++
  "\t    such as dfs+bfs, to alternate between them. Defaults to dfs.\n" ++
  "\t-solver NAME\n" ++
  "\t    Solver backend: z3 (embedded) or smtlib (subprocess).\n" ++
  "\t-solver-path PATH\n" ++
  "\t    Solver executable for the smtlib backend. Defaults to z3.\n" ++
  "\t-timeout DURATION\n" ++
  "\t    Time limit per solver query. Defaults to 10s.\n" ++
  "\t-j N\n" ++
  "\t    Number of functions analyzed in parallel.\n" ++
  "\t-unsafe\n" ++
  "\t    Only check functions that use unsafe.Pointer.\n" ++
  "\t-tests\n" ++
  "\t    Include test files.\n" ++
  "\t-smt-dir DIR\n" ++
  "\t    Write every solver query to DIR as an SMT-LIB2 script.\n" ++
  "\t-dump\n" ++
  "\t    Print the lowered functions and exit.\n" ++
  "\n" ++
  "The exit status is 3 if a null dereference is found.\n" ++
  "\n"

/-- How to use the program. -/
def usage : String :=
  "Nilsym finds null pointer dereferences in Go code using symbolic execution.\n" ++
  "\n" ++
  "Usage:\n" ++
  "\n" ++
  "\tnilsym <command> [arguments]\n" ++
  "\n" ++
  "The commands are:\n" ++
  "\n" ++
  "\tcheck       report reachable null dereferences\n" ++
  "\thelp        this screen\n" ++
  "\n"

/-- The last value of a text flag. -/
def textFlag (flags : List (String × Flag.Value)) (name : String) : String :=
  match flags.reverse.lookup name with
  | some (.text s) => s
  | _ => ""

/-- The last value of a switch. -/
def switchFlag (flags : List (String × Flag.Value)) (name : String) : Bool :=
  match flags.reverse.lookup name with
  | some (.switch b) => b
  | _ => false

/-- The settings with the change that a flag makes. -/
def override (s : Settings) (flag : String × Flag.Value) : Settings :=
  match flag with
  | ("format", .text v) => { s with format := v }
  | ("unroll", .number v) => { s with unroll := v }
  | ("inline", .switch v) => { s with inline := v }
  | ("search", .text v) => { s with search := v }
  | ("solver", .text v) => { s with solver := v }
  | ("solver-path", .text v) => { s with solverPath := v }
  | ("timeout", .duration v) => { s with timeout := v }
  | ("j", .number v) => { s with concurrency := v }
  | ("unsafe", .switch v) => { s with unsafeOnly := v }
  | ("tests", .switch v) => { s with tests := v }
  | _ => s

/-- The settings file that a command line names. -/
def settingsFile? (args : List String) : Option String :=
  match Flag.parse flagKind? args with
  | .ok (flags, _ :: _) =>
    let path := textFlag flags "config"
    if path = "" then none else some path
  | _ => none

/-- What the flags and the settings file ask for.  Flags override the file. -/
def request (flags : List (String × Flag.Value)) (packages : List String)
    (file : String → Option String) : Except Failure Check := do
  if packages.isEmpty then throw (.error (.ofText "package required"))
  let path := textFlag flags "config"
  let settings ← if path = "" then pure {} else Settings.read {} path (file path)
  let settings := flags.foldl override settings
  settings.validate.mapError .error
  return {
    settings, packages
    verbose := switchFlag flags "v"
    recordDir := textFlag flags "smt-dir"
    dump := switchFlag flags "dump" }

/-- Reads the flags and settings of a check.  `file` gives the texts of files. -/
def check (file : String → Option String) (args : List String) : Outcome Check :=
  match Flag.parse flagKind? args with
  | .error .help => ⟨.error (.error (.of .helpRequested)), checkUsage⟩
  | .error (.message m) => ⟨.error (.error (.ofText m)), m ++ "\n" ++ checkUsage⟩
  | .ok (flags, packages) => ⟨request flags packages file, ""⟩

/-- Chooses a command. -/
def run (file : String → Option String) : List String → Outcome Check
  | [] => ⟨.error (.error (.of .helpRequested)), usage⟩
  | cmd :: args =>
    if cmd ∈ ["", "-h", "--help", "help"] then ⟨.error (.error (.of .helpRequested)), usage⟩
    else if cmd = "check" then check file args
    else ⟨.error (.error (.ofText s!"nilsym {cmd}: unknown command")), ""⟩

end NullPath.Command
