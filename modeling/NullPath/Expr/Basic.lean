import NullPath.Name
import NullPath.Expr.Symbol

/-!
# Expressions

* `Constant`: an integer or boolean literal; a boolean is stored as 0 or 1.
* `Expr`: terms over literals and names.
* `Expr.sort`: the sort of a term, read off its outermost node.
* `Expr.text`: the term in the prefix form that solvers read.
-/

namespace NullPath

/-- A literal.  A literal of sort `Bool` is false exactly if its value is 0. -/
structure Constant where
  value : Int
  sort : ExprSort
  deriving DecidableEq, Repr

namespace Constant

/-- An integer literal. -/
def ofInt (v : Int) : Constant :=
  ⟨v, .int⟩

/-- A boolean literal. -/
def ofBool (b : Bool) : Constant :=
  ⟨if b then 1 else 0, .bool⟩

/-- Whether the literal is a boolean that holds. -/
def isTrue (c : Constant) : Bool :=
  c.sort = .bool && c.value != 0

/-- Whether the literal is a boolean that does not hold. -/
def isFalse (c : Constant) : Bool :=
  c.sort = .bool && c.value == 0

/-- The literal in a script, where a negative number is a negation. -/
def text (c : Constant) : String :=
  if c.sort = .bool then (if c.isTrue then "true" else "false")
  else if c.value < 0 then s!"(- {-c.value})"
  else toString c.value

/-- The value alone, for reports: `true`, `false` or a decimal number. -/
def display (c : Constant) : String :=
  if c.sort = .bool then (if c.isTrue then "true" else "false") else toString c.value

end Constant

/-- A term over literals and symbolic names. -/
inductive Expr
  | const (c : Constant)
  | name (n : Name) (sort : ExprSort)
  | not (e : Expr)
  | neg (e : Expr)
  | ite (cond thenE elseE : Expr)
  | binary (op : BinOp) (lhs rhs : Expr)
  deriving DecidableEq

namespace Expr

/-- An integer literal as a term. -/
def int (v : Int) : Expr :=
  .const (.ofInt v)

/-- A boolean literal as a term. -/
def bool (b : Bool) : Expr :=
  .const (.ofBool b)

/-- The sort of a term.  Operators fix it, and a choice has the sort of its first branch. -/
def sort : Expr → ExprSort
  | .const c => c.sort
  | .name _ s => s
  | .not _ => .bool
  | .neg _ => .int
  | .ite _ t _ => t.sort
  | .binary op _ _ => if op.isArithmetic then .int else .bool

/-- The term as a solver reads it: operators stand before their arguments, in parentheses. -/
def text : Expr → String
  | .const c => c.text
  | .name n _ => n.label
  | .not e => s!"(not {text e})"
  | .neg e => s!"(- {text e})"
  | .ite c t e => s!"(ite {text c} {text t} {text e})"
  | .binary op l r => s!"({op.symbol} {text l} {text r})"

/-- The literal that a term consists of, if it is one. -/
def constant? : Expr → Option Constant
  | .const c => some c
  | _ => none

/-- Whether a term is a literal. -/
def isConst (e : Expr) : Bool :=
  e.constant?.isSome

/-- Whether a term is the literal `true`. -/
def isTrue : Expr → Bool
  | .const c => c.isTrue
  | _ => false

/-- Whether a term is the literal `false`. -/
def isFalse : Expr → Bool
  | .const c => c.isFalse
  | _ => false

/-- Whether a term is the integer literal with a value. -/
def isInt (v : Int) : Expr → Bool
  | .const c => c.sort = .int && c.value == v
  | _ => false

end Expr

end NullPath
