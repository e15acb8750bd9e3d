import NullPath.Expr.Basic

/-!
# The order of expressions

Terms are compared by the kind of their outermost node, then part by part from left to right.
Literals compare by sort and value, and names by their number alone: a name has one sort
in every well-formed term, so its recorded sort is not compared.

* `Expr.compare`: the order.
* `Expr.compareOption`: the order with the absent term below all others.
-/

namespace NullPath

namespace Expr

/-- The rank of the outermost node. -/
def rank : Expr → Nat
  | .const _ => 1
  | .name _ _ => 2
  | .not _ => 3
  | .neg _ => 4
  | .ite _ _ _ => 5
  | .binary _ _ _ => 6

/-- Compares two terms by rank, and terms of one rank part by part. -/
def compare : Expr → Expr → Ordering
  | .const a, .const b => (Ord.compare a.sort.code b.sort.code).then (Ord.compare a.value b.value)
  | .name a _, .name b _ => Ord.compare a.index b.index
  | .not a, .not b => compare a b
  | .neg a, .neg b => compare a b
  | .ite c t e, .ite c' t' e' => ((compare c c').then (compare t t')).then (compare e e')
  | .binary o l r, .binary o' l' r' =>
    ((Ord.compare o.code o'.code).then (compare l l')).then (compare r r')
  | a, b => Ord.compare a.rank b.rank

/-- Compares terms that may be absent; the absent term is below every term. -/
def compareOption : Option Expr → Option Expr → Ordering
  | none, none => .eq
  | none, some _ => .lt
  | some _, none => .gt
  | some a, some b => compare a b

end Expr

end NullPath
