import NullPath.Expr.Basic

/-!
# Walking expressions

* `Expr.walk`: the subterms in the order of a walk from the root, where the walk does not
  enter the subterms that the caller wants to skip.
* `Expr.names`: the names that occur in a list of terms, each once and in increasing order.
-/

namespace NullPath

/-- The kinds of outermost nodes, by which a walk is steered and terms are described. -/
inductive ExprKind
  | constant | name | not | neg | ite | binary
  deriving DecidableEq, Repr

namespace ExprKind

/-- The word for a kind. -/
def text : ExprKind → String
  | .constant => "constant"
  | .name => "name"
  | .not => "not"
  | .neg => "neg"
  | .ite => "ite"
  | .binary => "binary"

end ExprKind

namespace Expr

/-- The kind of the outermost node. -/
def kind : Expr → ExprKind
  | .const _ => .constant
  | .name _ _ => .name
  | .not _ => .not
  | .neg _ => .neg
  | .ite _ _ _ => .ite
  | .binary _ _ _ => .binary

/-- The subterms in the order of a walk: a term before its parts, and parts from left to right.
The parts of a term for which `skip` holds are left out. -/
def walk (skip : Expr → Bool) : Expr → List Expr
  | .const c => [.const c]
  | .name n s => [.name n s]
  | .not e => .not e :: if skip (.not e) then [] else walk skip e
  | .neg e => .neg e :: if skip (.neg e) then [] else walk skip e
  | .ite c t e =>
    .ite c t e :: if skip (.ite c t e) then [] else walk skip c ++ walk skip t ++ walk skip e
  | .binary op l r =>
    .binary op l r :: if skip (.binary op l r) then [] else walk skip l ++ walk skip r

/-- The name that a term consists of, if it is one. -/
def name? : Expr → Option Name
  | .name n _ => some n
  | _ => none

/-- The names in a term in the order of a walk, with repetitions. -/
def occurrences (e : Expr) : List Name :=
  (e.walk fun _ => false).filterMap name?

/-- Inserts a name into an increasing list, unless it is there. -/
def insertName (n : Name) : List Name → List Name
  | [] => [n]
  | m :: ms =>
    if n.index < m.index then n :: m :: ms
    else if n.index = m.index then m :: ms
    else m :: insertName n ms

/-- The names that occur in some of the terms, in increasing order. -/
def names (es : List Expr) : List Name :=
  (es.flatMap occurrences).foldl (fun found n => insertName n found) []

end Expr

end NullPath
