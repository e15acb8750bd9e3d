import NullPath.Expr.Eval
import NullPath.Query

/-!
# Solvers

A solver answers queries.  It works on a state of its own, which may hold a budget, a transcript
or the answers that are still to come.

* `Solver`: a solver over a state.
* `Solver.observe`: a solver that first records each query in the state.
-/

namespace NullPath

/-- A solver answers a query with a model, with `none` if there is no model, or with an error.
`canceled` tells whether the work that the solver takes part in is to be given up. -/
structure Solver (σ : Type) where
  solve : Query → σ → Except Error (Option Model) × σ
  canceled : σ → Bool

namespace Solver

variable {σ : Type}

/-- The solver that records each query before it is answered. -/
def observe (s : Solver σ) (record : Query → σ → σ) : Solver σ where
  solve q st := s.solve q (record q st)
  canceled := s.canceled

end Solver

end NullPath
