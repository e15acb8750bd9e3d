import NullPath.Assoc
import NullPath.Expr.Basic

/-!
# Evaluation of expressions

* `Model`: values of names.
* `BinOp.apply`: an operator on two literals.  Division is Euclidean, as in the solver's
  language, and is undefined at a zero divisor.
* `Expr.eval`: the value of a term in a model.
* `Expr.eval_not_eq_ok`, `Expr.eval_binary_eq_ok`, …: a term with a value has operands with values.
-/

namespace NullPath

/-- Why a term has no value. -/
inductive EvalError
  | unboundName (n : Name)
  | zeroDivisor (op : BinOp)
  | invalidOperator (op : BinOp)
  | noExpression
  deriving DecidableEq

namespace EvalError

/-- The wording of an evaluation failure. -/
def message : EvalError → String
  | .unboundName n => s!"name not bound: {n.label}"
  | .zeroDivisor op => s!"{op.symbol} by zero"
  | .invalidOperator op => s!"invalid binary operator: {op.symbol}"
  | .noExpression => "invalid expression type: <nil>"

end EvalError

/-- Values of names. -/
abbrev Model := Assoc Name Constant

namespace Constant

/-- The negated number. -/
def neg (a : Constant) : Constant :=
  .ofInt (-a.value)

/-- The opposite truth value. -/
def not (a : Constant) : Constant :=
  .ofBool (!a.isTrue)

/-- Whether two literals have equal values. -/
def eq (a b : Constant) : Constant :=
  .ofBool (a.value == b.value)

/-- Whether one value is below the other. -/
def lt (a b : Constant) : Constant :=
  .ofBool (a.value < b.value)

/-- Whether one value is at most the other. -/
def le (a b : Constant) : Constant :=
  .ofBool (a.value ≤ b.value)

/-- The value as a signed 64-bit word, keeping the low bits. -/
def toWord (a : Constant) : Int :=
  a.value.bmod 0x10000000000000000

end Constant

namespace BinOp

/-- The value of an operator on two literals. -/
def apply (op : BinOp) (a b : Constant) : Except EvalError Constant :=
  match op with
  | .add => .ok (.ofInt (a.value + b.value))
  | .sub => .ok (.ofInt (a.value - b.value))
  | .mul => .ok (.ofInt (a.value * b.value))
  | .div => if b.value = 0 then .error (.zeroDivisor .div) else .ok (.ofInt (a.value.ediv b.value))
  | .mod => if b.value = 0 then .error (.zeroDivisor .mod) else .ok (.ofInt (a.value.emod b.value))
  | .and => .ok (.ofBool (a.isTrue && b.isTrue))
  | .or => .ok (.ofBool (a.isTrue || b.isTrue))
  | .implies => .ok (.ofBool (!a.isTrue || b.isTrue))
  | .eq => .ok (a.eq b)
  | .ne => .ok (a.eq b).not
  | .lt => .ok (a.lt b)
  | .le => .ok (a.le b)
  | .gt => .ok (b.lt a)
  | .ge => .ok (b.le a)
  | .other c h => .error (.invalidOperator (.other c h))

end BinOp

namespace Expr

/-- The value of a term.  Of a choice, only the chosen branch is evaluated. -/
def eval (m : Model) : Expr → Except EvalError Constant
  | .const c => .ok c
  | .name n _ =>
    match m.get? n with
    | some c => .ok c
    | none => .error (.unboundName n)
  | .not e =>
    match eval m e with
    | .ok v => .ok v.not
    | .error err => .error err
  | .neg e =>
    match eval m e with
    | .ok v => .ok v.neg
    | .error err => .error err
  | .ite c t e =>
    match eval m c with
    | .ok v => if v.isTrue then eval m t else eval m e
    | .error err => .error err
  | .binary op l r =>
    match eval m l with
    | .ok a =>
      match eval m r with
      | .ok b => op.apply a b
      | .error err => .error err
    | .error err => .error err

/-- The value of a term that may be absent. -/
def evalOption (m : Model) : Option Expr → Except EvalError Constant
  | some e => e.eval m
  | none => .error .noExpression

/-! ## Values of operands -/

variable {m : Model} {a b c : Expr} {v : Constant}

attribute [local simp] eval

theorem eval_name_eq_ok {n : Name} {s : ExprSort} :
    (name n s).eval m = .ok v ↔ m.get? n = some v := by
  cases h : m.get? n <;> simp [h]

theorem eval_not_eq_ok : (not a).eval m = .ok v ↔ ∃ x, a.eval m = .ok x ∧ x.not = v := by
  cases h : a.eval m <;> simp [h]

theorem eval_neg_eq_ok : (neg a).eval m = .ok v ↔ ∃ x, a.eval m = .ok x ∧ x.neg = v := by
  cases h : a.eval m <;> simp [h]

theorem eval_ite_eq_ok : (ite c a b).eval m = .ok v ↔
    ∃ z, c.eval m = .ok z ∧ (if z.isTrue then a.eval m else b.eval m) = .ok v := by
  cases h : c.eval m <;> simp [h]

theorem eval_binary_eq_ok {op : BinOp} : (binary op a b).eval m = .ok v ↔
    ∃ x y, a.eval m = .ok x ∧ b.eval m = .ok y ∧ op.apply x y = .ok v := by
  cases ha : a.eval m <;> cases hb : b.eval m <;> simp [ha, hb]

end Expr

end NullPath
