import NullPath.Query

/-!
# Scripts

The commands that are sent to a solver, one a line.

* `Query.script`: declarations, assertions and the check.
* `getValue`: asks for the values of the declared names.
* `getReason`, `exit`: the other commands of a dialogue.
-/

namespace NullPath

namespace Declaration

/-- The command that declares a name. -/
def command (d : Declaration) : String :=
  s!"(declare-const {d.name.label} {d.sort.text})\n"

end Declaration

namespace Query

/-- The script of a query. -/
def script (q : Query) : String :=
  "(set-option :produce-models true)\n" ++
    String.join (q.declarations.map Declaration.command) ++
    String.join (q.assertions.map fun e => s!"(assert {e.text})\n") ++
    "(check-sat)\n"

end Query

namespace Smt

/-- The command that asks for the values of the declared names. -/
def getValue (ds : List Declaration) : String :=
  "(get-value (" ++ " ".intercalate (ds.map fun d => d.name.label) ++ "))\n"

/-- The command that asks why a check was not decided. -/
def getReason : String :=
  "(get-info :reason-unknown)\n"

/-- The command that ends the dialogue. -/
def exit : String :=
  "(exit)\n"

end Smt

end NullPath
