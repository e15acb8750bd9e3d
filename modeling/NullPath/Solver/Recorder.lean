import NullPath.Settings.Duration
import NullPath.Smt.Script
import NullPath.Solver.Basic

/-!
# Recorded queries

A recording solver keeps the script of every query that it is asked, each under the name of a
file.

* `Recording`: the state of a solver with the scripts.
* `Solver.recording`: the solver that records.
-/

namespace NullPath

/-- The state of a solver, and the scripts of the queries so far with their file names. -/
structure Recording (σ : Type) where
  state : σ
  files : List (String × String) := []

/-- The file name of the query with a number. -/
def recordName (n : Nat) : String :=
  "query-" ++ String.ofList (Duration.padded 6 n) ++ ".smt2"

/-- The solver that records every query before it is answered. -/
def Solver.recording {σ : Type} (s : Solver σ) : Solver (Recording σ) where
  solve q r :=
    let (answer, state) := s.solve q r.state
    (answer, ⟨state, r.files ++ [(recordName (r.files.length + 1), q.script)]⟩)
  canceled r := s.canceled r.state

end NullPath
