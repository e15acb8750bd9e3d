import NullPath.Expr.Eval
import NullPath.Smt.Sexp
import NullPath.Text.Numeral

/-!
# Values in a solver's answer

* `Sexp.value`: the literal that a tree stands for, such as `12`, `(- 3)` or `true`.
-/

namespace NullPath

namespace Sexp

/-- The integer literal that a tree stands for; negations may be nested. -/
def intValue : Sexp → Except Error Constant
  | .atom s =>
    match Text.signed? s.toList with
    | some v => .ok (.ofInt v)
    | none => .error (.ofText s!"invalid Int value: {s}")
  | .list [.atom "-", e] =>
    match intValue e with
    | .ok c => .ok c.neg
    | .error err => .error err
  | e => .error (.ofText s!"invalid Int value: {e.text}")

/-- The literal of a sort that a tree stands for.  Every sort but `Bool` has integer values. -/
def value (e : Sexp) (sort : ExprSort) : Except Error Constant :=
  if sort = .bool then
    match e.atomText with
    | "true" => .ok (.ofBool true)
    | "false" => .ok (.ofBool false)
    | _ => .error (.ofText s!"invalid Bool value: {e.text}")
  else e.intValue

end Sexp

end NullPath
