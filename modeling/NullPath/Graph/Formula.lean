import NullPath.Expr.Fold
import NullPath.Graph.Basic

/-!
# Formulas of a graph

* `Graph.formula`: everything recorded from a node on, as one term.  The assertions of the node
  are joined with the formula of each successor, under the guard of its edge.
* `Graph.guards`: the guards on the way to a node, following first predecessors.
* `Graph.pathConstraint`: their conjunction, from the root downward.

Both walks follow edges.  In a graph without cycles no walk visits more nodes than there are, so
the number of nodes bounds their length.
-/

namespace NullPath

namespace Graph

/-- A term under a guard. -/
def underGuard (guard : Option Expr) (e : Expr) : Expr :=
  match guard with
  | none => e
  | some g => Expr.mkImplies g e

/-- The formula of the part of the graph that a walk of bounded length can reach. -/
def formulaWithin (g : Graph) : Nat → Int → Expr
  | 0, _ => .bool true
  | depth + 1, id =>
    match g.node? id with
    | none => .bool true
    | some n =>
      Expr.conj (n.exprs ++ n.out.map fun e => underGuard e.guard (g.formulaWithin depth e.target))

/-- Everything recorded at a node and after it. -/
def formula (g : Graph) (id : Int) : Except Fault Expr := do
  let _ ← g.node id
  return g.formulaWithin g.nodes.length id

/-- The guards on a way of bounded length to a node, the one nearest to the root first. -/
def guardsWithin (g : Graph) : Nat → Int → List Expr
  | 0, _ => []
  | depth + 1, id =>
    match g.node? id with
    | none => []
    | some n =>
      match n.into with
      | [] => []
      | e :: _ => g.guardsWithin depth e.target ++ e.guard.toList

/-- The guards on the way to a node. -/
def guards (g : Graph) (id : Int) : List Expr :=
  g.guardsWithin g.nodes.length id

/-- The condition for reaching a node. -/
def pathConstraint (g : Graph) (id : Int) : Except Fault Expr := do
  let _ ← g.node id
  return Expr.conj (g.guards id)

variable {g : Graph} {a : Int} {n : Node}

theorem formula_eq_ok (hn : g.node? a = some n) :
    g.formula a = .ok (g.formulaWithin g.nodes.length a) := by
  rw [formula, node, hn]
  rfl

theorem pathConstraint_eq_ok (hn : g.node? a = some n) :
    g.pathConstraint a = .ok (.conj (g.guards a)) := by
  rw [pathConstraint, node, hn]
  rfl

end Graph

end NullPath
