import NullPath.Expr.Names
import NullPath.Graph.Formula

/-!
# Queries

A query asks whether some values of the declared names make all assertions true.

* `Query`: declarations and assertions.
* `Query.ofGraph`: what a graph records from a node on, with further assertions.
* `Query.validate`: whether all assertions are boolean and speak about declared names only.
-/

namespace NullPath

/-- A satisfiability question. -/
structure Query where
  declarations : List Declaration
  assertions : List Expr
  deriving DecidableEq

namespace Query

/-- The question whether the given assertions fit to everything recorded from a node on. -/
def ofGraph (g : Graph) (start : Int) (extra : List Expr) : Except Fault Query := do
  return ⟨g.decls, extra ++ [← g.formula start]⟩

/-- Why a query is not well formed. -/
inductive Defect
  | nonBoolean (e : Expr)
  | undeclared (n : Name)
  deriving DecidableEq

/-- The wording of a defect. -/
def Defect.message : Defect → String
  | .nonBoolean e => s!"non-boolean assertion: {e.text}"
  | .undeclared n => s!"undeclared name: {n.label}"

/-- The first defect of a query: an assertion that is not boolean, or else the least name that
is not declared. -/
def defect? (q : Query) : Option Defect :=
  match q.assertions.find? fun e => e.sort ≠ .bool with
  | some e => some (.nonBoolean e)
  | none =>
    ((Expr.names q.assertions).find? fun n =>
      !q.declarations.any fun d => d.name = n).map Defect.undeclared

/-- Whether a query is well formed. -/
def validate (q : Query) : Except Error Unit :=
  match q.defect? with
  | none => .ok ()
  | some d => .error (.ofText d.message)

end Query

end NullPath
