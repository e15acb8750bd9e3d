import NullPath.Smt.Script
import NullPath.Smt.Value

/-!
# Solver processes

A solver process reads a script and prints s-expressions.  The dialogue sends the script, reads
the verdict, and asks for values or for a reason as the verdict demands.

* `Smt.dialogue`: the answer of a process that prints a given text, and what it is sent.
* `Smt.Run`, `Smt.Run.solve`: the same with the fate of the process taken into account.
-/

namespace NullPath.Smt

/-- The error for a reply that does not answer the command.  A reply `(error "text")` brings its
own text. -/
def unexpectedReply (e : Sexp) : Error :=
  match e with
  | .list [.atom "error", reason] => .ofText s!"smtlib: {reason.unquote}"
  | _ => .ofText s!"smtlib: unexpected response: {e.text}"

/-- The sort of a declared name; the last declaration counts. -/
def declaredSort? (ds : List Declaration) (n : Name) : Option ExprSort :=
  (ds.reverse.find? fun d => d.name = n).map Declaration.sort

/-- Reads one entry of a model: a pair of a label and a value. -/
def modelEntry (ds : List Declaration) (e : Sexp) : Except Error (Name × Constant) :=
  match e with
  | .list [label, value] =>
    match Name.parse? label.atomText with
    | none => .error (.ofText s!"smtlib: invalid name: {Text.quote label.atomText}")
    | some n =>
      match declaredSort? ds n with
      | none => .error (.ofText s!"smtlib: undeclared name in model: {n.label}")
      | some sort =>
        match value.value sort with
        | .ok c => .ok (n, c)
        | .error err => .error (err.within s!"smtlib: {n.label}")
  | _ => .error (.ofText s!"smtlib: invalid model entry: {e.text}")

/-- Reads the entries of a model in order; a later entry of a name overrides an earlier one. -/
def modelEntries (ds : List Declaration) (m : Model) : List Sexp → Except Error Model
  | [] => .ok m
  | e :: es =>
    match modelEntry ds e with
    | .ok (n, c) => modelEntries ds (m.insert n c) es
    | .error err => .error err

/-- Reads the reply to a request for values. -/
def modelOf (ds : List Declaration) (e : Sexp) : Except Error Model :=
  match e with
  | .list (.atom "error" :: _) => .error (unexpectedReply e)
  | .list es => modelEntries ds .empty es
  | .atom _ => .error (unexpectedReply e)

/-- What the reason of an undecided check comes down to. -/
def causeOfReason (reason : String) : Cause :=
  if (reason.splitOn "timeout").length > 1 then .solverTimeout
  else if (reason.splitOn "canceled").length > 1 then .solverCanceled
  else if (reason.splitOn "resource").length > 1 then .solverResourceLimit
  else if (reason.splitOn "memout").length > 1 then .solverResourceLimit
  else .solverUnknown

/-- The answer to a query of a process that prints the given text, and the text that the process
is sent. -/
def dialogue (q : Query) (output : List Char) : Except Error (Option Model) × String :=
  match Sexp.read output with
  | .error e => (.error (e.toError.within "read check-sat response"), q.script)
  | .ok (.atom "unsat", _) => (.ok none, q.script)
  | .ok (.atom "unknown", rest) =>
    let cause := match Sexp.read rest with
      | .error _ => .solverUnknown
      | .ok (e, _) => causeOfReason e.text
    (.error (.of cause), q.script ++ getReason)
  | .ok (.atom "sat", rest) =>
    if q.declarations.isEmpty then (.ok (some .empty), q.script)
    else
      let answer := match Sexp.read rest with
        | .error e => .error (e.toError.within "read get-value response")
        | .ok (e, _) => (modelOf q.declarations e).map some
      (answer, q.script ++ getValue q.declarations)
  | .ok (e, _) => (.error (unexpectedReply e), q.script)

/-- The fate of a run of a solver process. -/
inductive Run
  /-- There is no such executable. -/
  | missing (path : String)
  /-- The work was given up before the process was started. -/
  | canceled (path : String)
  /-- The process printed nothing before its time was up. -/
  | silent
  /-- The process printed a text, and complaints beside it. -/
  | answering (output : List Char) (complaints : String)

namespace Run

/-- The answer that a process gives to a query, and what it was sent if it was heard out. -/
def solve (q : Query) : Run → Except Error (Option Model) × Option String
  | .missing path =>
    (.error (.within s!"start {path}"
      (.ofText s!"exec: {Text.quote path}: executable file not found in $PATH")), none)
  | .canceled path => (.error (.within s!"start {path}" (.of .canceled)), none)
  | .silent => (.error (.of .solverTimeout), none)
  | .answering output complaints =>
    let (answer, sent) := dialogue q output
    let complaint := Text.trimBlank complaints
    let answer := match answer with
      | .error e => .error (if complaint = "" then e else e.within complaint)
      | .ok m => .ok m
    (answer, some (sent ++ exit))

end Run

end NullPath.Smt
