import NullPath.Error

/-!
# Program text

The printed form of code, one instruction a line.  A missing part is shown by a mark.  A missing
operand inside a copied operand or an argument list has no form of its own: printed alone
this is a fault, and inside a larger text another mark stands for the whole part.

* `Operand.text`, `Statement.text`, `Function.text`: forms that always exist.
* `Rvalue.text?`, `Terminator.text?`: forms that may not.
-/

namespace NullPath

/-- Stands for a missing part. -/
def missingMark : String :=
  "%!s(<nil>)"

/-- Stands for a part whose form does not exist. -/
def faultMark : String :=
  "%!s(PANIC=String method: runtime error: invalid memory address or nil pointer dereference)"

namespace Operand

/-- The form of an operand.  Constants show their type, except the truth values. -/
def text : Operand → String
  | .copy p => p.text
  | .move p => "move " ++ p.text
  | .const v (.bool _) => if v = 0 then "false" else "true"
  | .const v t => s!"const {v}_{t.text}"
  | .missing => missingMark

/-- The form of an operand that must be there. -/
def text? : Operand → Except Fault String
  | .missing => .error .missingData
  | o => .ok o.text

end Operand

namespace Rvalue

/-- The form of a right-hand side. -/
def text? : Rvalue → Except Fault String
  | .use x => x.text?
  | .binary op l r => .ok s!"{op.text}({l.text}, {r.text})"
  | .unary op x => .ok s!"{op.text}({x.text})"
  | .cast x t => .ok s!"{x.text} as {t.text}"
  | .ref p => .ok ("&" ++ p.text)
  | .missing => .ok missingMark

/-- The form of a right-hand side inside a statement. -/
def embedded (rv : Rvalue) : String :=
  match rv.text? with
  | .ok s => s
  | .error _ => faultMark

end Rvalue

namespace Statement

/-- The form of a statement. -/
def text : Statement → String
  | .assign p rv _ => s!"{p.text} = {rv.embedded}"
  | .storageLive i => s!"StorageLive(_{i})"
  | .storageDead i => s!"StorageDead(_{i})"
  | .nop => "nop"
  | .missing => missingMark

end Statement

namespace Terminator

/-- The arms of a switch: each target with its value, and targets without one as the rest. -/
def arms : List Int → List Int → List String
  | v :: vs, t :: ts => s!"{v}: bb{t}" :: arms vs ts
  | [], t :: ts => s!"otherwise: bb{t}" :: arms [] ts
  | _, [] => []

/-- The form of a terminator. -/
def text? : Terminator → Except Fault String
  | .goto t => .ok s!"goto -> bb{t}"
  | .switch x values targets _ =>
    let arms := ", ".intercalate (arms values targets)
    .ok s!"switchInt({x.text}) -> [{arms}]"
  | .assert x expected t _ => .ok s!"assert({x.text} == {expected}) -> bb{t}"
  | .call callee args dest next _ => do
    let args := ", ".intercalate (← args.mapM Operand.text?)
    let call := s!"{callee}({args})"
    match dest with
    | some d => return s!"{d.text} = {call} -> bb{next}"
    | none => return call
  | .return => .ok "return"
  | .unreachable => .ok "unreachable"
  | .missing => .ok missingMark

/-- The form of a terminator inside a function. -/
def embedded (t : Terminator) : String :=
  match t.text? with
  | .ok s => s
  | .error _ => faultMark

end Terminator

namespace Function

/-- The parameters in a function's heading. -/
def parameterText (f : Function) : String :=
  ", ".intercalate ((f.locals.zipIdx.drop 1 |>.takeWhile fun (_, i) => (i : Int) ≤ f.argCount).map
    fun (l, i) => s!"_{i}: {l.type.text}")

/-- The function as text: heading, further locals, and blocks. -/
def text (f : Function) : String :=
  let result := match f.locals with
    | [] => ""
    | l :: _ => s!" -> {l.type.text}"
  let rest := f.locals.zipIdx.filter fun (_, i) => f.argCount < (i : Int)
  let locals := rest.map fun (l, i) => s!"    let _{i}: {l.type.text}; // {l.name}\n"
  let blocks := f.blocks.zipIdx.map fun (b, i) =>
    s!"  bb{i}: \x7b\n" ++ String.join (b.statements.map fun s => s!"    {s.text};\n") ++
      s!"    {b.terminator.embedded};\n  \x7d\n"
  s!"fn {f.name}({f.parameterText}){result} \x7b\n" ++ String.join locals ++ String.join blocks ++
    "\x7d\n"

end Function

end NullPath
