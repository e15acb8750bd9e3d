import NullPath.Expr.Eval
import NullPath.Graph.Basic

/-!
# Witnesses

A witness shows the values of the entry parameters under which something happens.

* `ParameterValue`: a parameter and its value.
* `Witness.ofModel`: what a model says about the parameters.
-/

namespace NullPath

/-- The value of a parameter. -/
structure ParameterValue where
  label : String
  index : Int
  value : String
  deriving DecidableEq

/-- The values of the parameters in the order of the parameters. -/
abbrev Witness := List ParameterValue

namespace Witness

/-- The value of a declaration, if it is a parameter and has one. -/
def parameterValue? (m : Model) (d : Declaration) : Option ParameterValue := do
  let o ← d.origin
  let c ← m.get? d.name
  return ⟨o.label, o.index, c.display⟩

/-- The part of a model that speaks about parameters. -/
def ofModel (ds : List Declaration) (m : Model) : Witness :=
  (ds.filterMap (parameterValue? m)).mergeSort fun a b => a.index ≤ b.index

/-- A witness in one line. -/
def text (w : Witness) : String :=
  ", ".intercalate (w.map fun v => s!"{v.label} = {v.value}")

end Witness

end NullPath
