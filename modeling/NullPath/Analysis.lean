import NullPath.Explore.Run
import NullPath.Synthesis

/-!
# Analysis

A function is analysed by exploring its paths and by asking about every dereference on them.
Each function has an exploration and a solver of its own, and what goes wrong with one function
does not touch the others.

* `Backend`: where solvers come from.
* `Result`: the outcome for one function.
* `Analysis`: the settings; `Analysis.function` and `Analysis.functions` do the work.
-/

namespace NullPath

/-- A source of solvers: one is opened for each function and closed when the function is done. -/
structure Backend (σ : Type) extends Solver σ where
  start : σ → Except Error Unit × σ
  close : σ → σ

/-- The outcome of analysing a function.  The graph is kept if the exploration succeeded. -/
structure Result where
  function : Function
  findings : List Finding := []
  unknowns : List Unknown := []
  incomplete : Bool := false
  stats : Stats := {}
  graph : Option Graph := none
  root : Int := 0
  error : Option Error := none

/-- The settings of an analysis. -/
structure Analysis where
  program : Program := .empty
  options : Options := {}
  search : String := ""
  seed : Int := 0

namespace Analysis

variable {σ : Type}

/-- Asks about the dereferences of an explored function. -/
def conclude (b : Backend σ) (r : Result) (g : Graph) (st : σ) : Except Fault Result × σ :=
  match b.start st with
  | (.error e, st) => (.ok { r with error := some (e.within "new solver") }, st)
  | (.ok (), st) =>
    match synthesize b.toSolver r.function g r.root st with
    | (.error f, st) => (.error f, b.close st)
    | (.ok (s, complete), st) =>
      (.ok { r with
        findings := s.findings
        unknowns := s.unknowns
        error := if complete then none else some (.of .canceled) }, b.close st)

/-- Analyses one function.  If the work has been given up, nothing is explored. -/
def function (a : Analysis) (b : Backend σ) (f : Function) (st : σ) : Except Fault Result × σ :=
  match Searcher.ofName a.search a.seed with
  | .error e => (.ok { function := f, error := some e }, st)
  | .ok searcher =>
    let (outcome, e) := Explorer.runUnless (b.canceled st)
      { options := a.options, program := a.program, entry := f, searcher }
    let r : Result := { function := f, stats := e.stats, incomplete := e.incomplete }
    match outcome with
    | .error (.fault fault) => (.error fault, st)
    | .error (.error err) => (.ok { r with error := some err }, st)
    | .ok () => conclude b { r with graph := some e.graph, root := e.root } e.graph st

/-- Analyses functions in order.  The work as a whole fails if it is given up while functions are
being analysed; the results are complete in any case. -/
def functions (a : Analysis) (b : Backend σ) :
    List Function → σ → Except Fault (List Result × Option Error) × σ
  | [], st => (.ok ([], none), st)
  | f :: fs, st =>
    match a.function b f st with
    | (.error fault, st) => (.error fault, st)
    | (.ok r, st) =>
      let stopped := if b.canceled st then some (.of .canceled) else none
      match a.functions b fs st with
      | (.error fault, st) => (.error fault, st)
      | (.ok (rs, later), st) => (.ok (r :: rs, stopped <|> later), st)

end Analysis

end NullPath
