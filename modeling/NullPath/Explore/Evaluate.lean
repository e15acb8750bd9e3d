import NullPath.Expr.Fold
import NullPath.Memory.Access

/-!
# Values of operands and right-hand sides

Evaluation reads places, and turns operators of source code into terms.  Operators apply to
operands of one sort; what does not fit is an unsupported construct.

* `Store.operand`: the value of an operand.
* `SourceBinOp.term`, `SourceUnOp.term`, `Ty.castTerm`: the term of an operation.
* `Store.rvalue`: the value of a right-hand side.
* `Store.assertEqual`: records that a name equals a value.
-/

namespace NullPath

/-- The term of a binary operation.  Truth values are combined by the bitwise operators. -/
def SourceBinOp.term (op : SourceBinOp) (lhs rhs : Expr) : Except Error Expr :=
  if rhs.sort ≠ lhs.sort then
    .error (.unsupported "binary operation"
      s!"{op.text} on {lhs.sort.text} and {rhs.sort.text}")
  else match op with
    | .eq => .ok (.mkEq lhs rhs)
    | .ne => .ok (.mkNot (.mkEq lhs rhs))
    | _ =>
      if lhs.sort = .bool then
        match op with
        | .bitAnd => .ok (.mkAnd lhs rhs)
        | .bitOr => .ok (.mkOr lhs rhs)
        | .bitXor => .ok (.mkNot (.mkEq lhs rhs))
        | _ => .error (.unsupported "binary operation" s!"{op.text} on Bool")
      else match op with
        | .add | .offset => .ok (.mkArith .add lhs rhs)
        | .sub => .ok (.mkArith .sub lhs rhs)
        | .mul => .ok (.mkArith .mul lhs rhs)
        | .div => .ok (.mkArith .div lhs rhs)
        | .rem => .ok (.mkArith .mod lhs rhs)
        | .lt => .ok (.mkCompare .lt lhs rhs)
        | .le => .ok (.mkCompare .le lhs rhs)
        | .gt => .ok (.mkCompare .lt rhs lhs)
        | .ge => .ok (.mkCompare .le rhs lhs)
        | _ => .error (.unsupported "binary operation" s!"{op.text} on Int")

/-- The term of a unary operation. -/
def SourceUnOp.term (op : SourceUnOp) (x : Expr) : Except Error Expr :=
  match op, x.sort with
  | .not, .bool => .ok (.mkNot x)
  | .neg, .int => .ok (.mkNeg x)
  | op, s => .error (.unsupported "unary operation" s!"{op.text} on {s.text}")

/-- The term of a conversion.  Within a sort it is the identity; a truth value becomes 0 or 1,
and a number is true if it is not zero. -/
def Ty.castTerm (t : Ty) (x : Expr) : Except Error Expr :=
  match t.sort with
  | .error e => .error e
  | .ok s =>
    .ok (if x.sort = s then x
      else if x.sort = .bool then .mkIte x (.int 1) (.int 0)
      else .mkNot (.isZero x))

namespace Store

/-- The value of an operand. -/
def operand (env : Env) : Operand → Action Store Expr
  | .copy p => do
    let name ← readCopy env p
    return (← declaration name).expr
  | .move p => do
    let name ← readMove env p
    return (← declaration name).expr
  | .const v t => do
    let sort ← Action.lift t.sort
    return if sort = .bool then .bool (v != 0) else .int v
  | .missing => Action.error (.unsupported "operand" "<nil>")

/-- Adds an assertion to the present node. -/
def assertExpr (node : Int) (e : Expr) : Action Store Unit :=
  onGraph fun g => g.addExpr node e

/-- The value of a right-hand side.  A new address is asserted to be different from zero. -/
def rvalue (env : Env) : Rvalue → Action Store Expr
  | .use x => operand env x
  | .binary op l r => do
    let lhs ← operand env l
    let rhs ← operand env r
    Action.lift (op.term lhs rhs)
  | .unary op x => do
    let x ← operand env x
    Action.lift (op.term x)
  | .cast x t => do
    let x ← operand env x
    Action.lift (t.castTerm x)
  | .ref p => do
    let (name, isNew) ← ref env p
    let address := Expr.name name .int
    if isNew then assertExpr env.node (.mkNot (.isZero address))
    return address
  | .missing => Action.error (.unsupported "rvalue" "<nil>")

/-- Records at a node that a name equals a value, which must have the sort of the name. -/
def assertEqual (node : Int) (name : Name) (value : Expr) : Action Store Unit := do
  let d ← declaration name
  if value.sort ≠ d.sort then
    Action.error (.unsupported "assignment" s!"{value.sort.text} value to {d.sort.text} name")
  else assertExpr node (.mkEq d.expr value)

end Store

end NullPath
