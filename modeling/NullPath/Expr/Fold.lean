import NullPath.Expr.Eval
import NullPath.Expr.Order

/-!
# Building expressions with folding

The constructors of this module simplify while they build: operators on literals are computed,
neutral elements disappear, and a comparison of a term with itself is decided.  A division by
the literal zero is left standing, because it has no value.

* `mkNot`, `mkNeg`, `mkIte`: negations and choices.
* `mkArith`, `mkAnd`, `mkOr`, `mkImplies`, `mkEq`, `mkCompare`: one operator each.
* `mkBinary?`: any operator by its symbol; fails exactly on the foreign ones.
* `conj`: the conjunction of a list.
* `isZero`: the test for the null address.
-/

namespace NullPath

namespace Expr

/-- Negation.  A literal is flipped and a double negation is removed. -/
def mkNot : Expr → Expr
  | .const c => .const c.not
  | .not e => e
  | e => .not e

/-- The opposite number.  A literal is negated and a double minus is removed. -/
def mkNeg : Expr → Expr
  | .const c => .const c.neg
  | .neg e => e
  | e => .neg e

/-- A choice.  A literal condition picks its branch. -/
def mkIte (cond thenE elseE : Expr) : Expr :=
  if cond.isTrue then thenE
  else if cond.isFalse then elseE
  else .ite cond thenE elseE

/-- The value of an operator if both operands are literals and it is defined there. -/
def foldConstants (op : BinOp) (lhs rhs : Expr) : Option Expr :=
  match lhs, rhs with
  | .const a, .const b =>
    match op.apply a b with
    | .ok c => some (.const c)
    | .error _ => none
  | _, _ => none

/-- The operand that remains when the other one is neutral for an arithmetic operator. -/
def dropNeutral (op : BinOp) (lhs rhs : Expr) : Option Expr :=
  match op with
  | .add => if lhs.isInt 0 then some rhs else if rhs.isInt 0 then some lhs else none
  | .sub => if rhs.isInt 0 then some lhs else none
  | .mul => if lhs.isInt 1 then some rhs else if rhs.isInt 1 then some lhs else none
  | _ => none

/-- An arithmetic operator. -/
def mkArith (op : BinOp) (lhs rhs : Expr) : Expr :=
  ((foldConstants op lhs rhs).orElse fun _ => dropNeutral op lhs rhs).getD (.binary op lhs rhs)

/-- Conjunction of two terms. -/
def mkAnd (lhs rhs : Expr) : Expr :=
  if lhs.isTrue then rhs
  else if rhs.isTrue then lhs
  else if lhs.isFalse || rhs.isFalse then .bool false
  else .binary .and lhs rhs

/-- Disjunction of two terms. -/
def mkOr (lhs rhs : Expr) : Expr :=
  if lhs.isFalse then rhs
  else if rhs.isFalse then lhs
  else if lhs.isTrue || rhs.isTrue then .bool true
  else .binary .or lhs rhs

/-- Implication between two terms. -/
def mkImplies (lhs rhs : Expr) : Expr :=
  if lhs.isTrue then rhs
  else if lhs.isFalse || rhs.isTrue then .bool true
  else .binary .implies lhs rhs

/-- An equation whose right side is the literal only if both sides are.  Literals are compared,
an equation with a truth value is the other side or its negation, and a term equals itself. -/
def mkOrderedEq (lhs rhs : Expr) : Expr :=
  match lhs, rhs with
  | .const a, .const b => .const (a.eq b)
  | .const a, rhs =>
    if a.sort = .bool then (if a.isTrue then rhs else mkNot rhs)
    else .binary .eq (.const a) rhs
  | lhs, rhs => if compare lhs rhs = .eq then .bool true else .binary .eq lhs rhs

/-- An equation.  A literal on the right is brought to the left. -/
def mkEq (lhs rhs : Expr) : Expr :=
  if !lhs.isConst && rhs.isConst then mkOrderedEq rhs lhs else mkOrderedEq lhs rhs

/-- A comparison by `<` or `≤`. -/
def mkCompare (op : BinOp) (lhs rhs : Expr) : Expr :=
  (foldConstants op lhs rhs).getD (.binary op lhs rhs)

/-- Any operator.  The greater-than comparisons are turned around, and a disequation is the
negation of an equation. -/
def mkBinary? (op : BinOp) (lhs rhs : Expr) : Option Expr :=
  match op with
  | .add | .sub | .mul | .div | .mod => some (mkArith op lhs rhs)
  | .and => some (mkAnd lhs rhs)
  | .or => some (mkOr lhs rhs)
  | .implies => some (mkImplies lhs rhs)
  | .eq => some (mkEq lhs rhs)
  | .ne => some (mkNot (mkEq lhs rhs))
  | .lt | .le => some (mkCompare op lhs rhs)
  | .gt => some (mkCompare .lt rhs lhs)
  | .ge => some (mkCompare .le rhs lhs)
  | .other _ _ => none

/-- The conjunction of a list, nested to the left; the empty conjunction is true. -/
def conj (es : List Expr) : Expr :=
  es.foldl mkAnd (.bool true)

/-- The test whether a value is zero. -/
def isZero (e : Expr) : Expr :=
  mkEq e (.int 0)

end Expr

end NullPath
