import NullPath.Explore.Searcher
import NullPath.Explore.Step
import NullPath.Report.Basic
import NullPath.Settings.Duration

/-!
# Settings

* `Settings`: what a user can choose, with the defaults.
* `Settings.validate`: whether the choices make sense.
* `Settings.backend`: the solver that is chosen.
-/

namespace NullPath

/-- What a user can choose. -/
structure Settings where
  dir : String := ""
  tests : Bool := false
  unsafeOnly : Bool := false
  unroll : Int := ({} : Options).maxUnroll
  inline : Bool := false
  maxCallDepth : Int := ({} : Options).maxCallDepth
  search : String := "dfs"
  seed : Int := 0
  concurrency : Int := 1
  solver : String := "z3"
  solverPath : String := "z3"
  timeout : Duration := .ofSeconds 10
  format : String := "text"

/-- A solver to be used: one that is built in, or a program that reads scripts. -/
inductive SolverChoice
  | embedded (timeout : Duration)
  | program (path : String) (args : List String) (timeout : Duration)
  deriving DecidableEq, Repr

namespace Settings

/-- The arguments that make a solver read a script from its input. -/
def solverArgs : List String :=
  ["-in", "-smt2"]

/-- The solver that is chosen. -/
def backend (s : Settings) : Except Error SolverChoice :=
  match s.solver with
  | "z3" => .ok (.embedded s.timeout)
  | "smtlib" => .ok (.program s.solverPath solverArgs s.timeout)
  | name => .error (.ofText s!"unknown solver: {Text.quote name}")

/-- Whether the choices make sense. -/
def validate (s : Settings) : Except Error Unit := do
  if s.unroll ≤ 0 then throw (.ofText s!"unroll must be positive: {s.unroll}")
  if s.concurrency ≤ 0 then throw (.ofText s!"concurrency must be positive: {s.concurrency}")
  if s.timeout.nanoseconds < 0 then
    throw (.ofText s!"timeout must not be negative: {s.timeout.text}")
  let _ ← s.backend
  let _ ← (Searcher.ofName s.search s.seed : Except Error (Searcher Frame))
  let _ ← Report.Format.ofName s.format
  return

end Settings

end NullPath
