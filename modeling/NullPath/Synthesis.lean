import NullPath.Expr.Fold
import NullPath.Solver.Basic
import NullPath.Witness

/-!
# Findings

Every dereference tag of a graph gives rise to one query: can the pointer be zero on the path to
the dereference?  A model is a finding, a failure of the solver an unknown.  A site that has a
finding is not asked about again.

* `check`: one query about a graph.
* `Finding`, `Unknown`: what is reported.
* `synthesize`: the queries for all tags of a graph.
-/

namespace NullPath

variable {σ : Type}

/-- Asks for a witness of the given assertions together with what is recorded from a node on. -/
def check (s : Solver σ) (g : Graph) (start : Int) (extra : List Expr) (st : σ) :
    Except Failure (Option Witness) × σ :=
  match Query.ofGraph g start extra with
  | .error f => (.error (.fault f), st)
  | .ok q =>
    match q.validate with
    | .error e => (.error (.error e), st)
    | .ok () =>
      match s.solve q st with
      | (.error e, st) => (.error (.error e), st)
      | (.ok m, st) => (.ok (m.map (Witness.ofModel g.decls)), st)

/-- A dereference of a pointer that can be zero.  A finding that comes from a solver has a
witness. -/
structure Finding where
  kind : String
  function : String
  span : Span
  site : Span
  witness : Option Witness
  name : Name
  node : Int

/-- A dereference about which nothing could be found out. -/
structure Unknown where
  function : String
  site : Span
  node : Int
  reason : Error

/-- The kind of the findings. -/
def nullDereference : String :=
  "Null Dereference"

/-- What has been found so far. -/
structure Synthesis where
  findings : List Finding := []
  unknowns : List Unknown := []

namespace Synthesis

/-- Whether a site already has a finding.  Sites without a position are told apart. -/
def reported (r : Synthesis) (site : Span) : Bool :=
  site.isValid && r.findings.any fun f => f.site = site

/-- One more finding. -/
def addFinding (r : Synthesis) (f : Finding) : Synthesis :=
  { r with findings := r.findings ++ [f] }

/-- One more unknown. -/
def addUnknown (r : Synthesis) (u : Unknown) : Synthesis :=
  { r with unknowns := r.unknowns ++ [u] }

end Synthesis

namespace Graph

/-- The dereferences of a graph: by declaration, then in the order of their discovery. -/
def tags (g : Graph) : List (Declaration × DerefTag) :=
  g.decls.flatMap fun d => d.derefs.map fun t => (d, t)

end Graph

/-- Asks whether a pointer can be zero where it is dereferenced. -/
def checkTag (s : Solver σ) (g : Graph) (root : Int) (d : Declaration) (t : DerefTag) (st : σ) :
    Except Failure (Option Witness) × σ :=
  match g.pathConstraint t.node with
  | .error f => (.error (.fault f), st)
  | .ok path => check s g root [Expr.isZero d.expr, path] st

/-- Goes through the given tags.  The answer tells whether all of them were looked at or the work
was given up. -/
def synthesizeTags (s : Solver σ) (f : Function) (g : Graph) (root : Int) :
    List (Declaration × DerefTag) → Synthesis → σ → Except Fault (Synthesis × Bool) × σ
  | [], r, st => (.ok (r, true), st)
  | (d, t) :: rest, r, st =>
    if s.canceled st then (.ok (r, false), st)
    else if r.reported t.span then synthesizeTags s f g root rest r st
    else
      match checkTag s g root d t st with
      | (.error (.fault e), st) => (.error e, st)
      | (.error (.error e), st) =>
        if s.canceled st then (.ok (r, false), st)
        else synthesizeTags s f g root rest (r.addUnknown ⟨f.name, t.span, t.node, e⟩) st
      | (.ok none, st) => synthesizeTags s f g root rest r st
      | (.ok (some w), st) =>
        synthesizeTags s f g root rest
          (r.addFinding ⟨nullDereference, f.name, f.span, t.span, some w, d.name, t.node⟩) st

/-- Asks about every dereference of a graph.  The answer tells also whether the work was done or
given up. -/
def synthesize (s : Solver σ) (f : Function) (g : Graph) (root : Int) (st : σ) :
    Except Fault (Synthesis × Bool) × σ :=
  synthesizeTags s f g root g.tags {} st

end NullPath
