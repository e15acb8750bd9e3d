import NullPath.Cfg.Basic
import NullPath.Expr.Basic
import NullPath.Text.Quoted

/-!
# Errors and faults

An operation can fail in two ways.  An *error* is an answer about the data: a construct outside
the supported subset, an unbound place, a solver that gave up.  It consists of a cause and of
the context in which the cause arose.  A *fault* is the violation of a precondition by the
caller.

* `Cause`, `Error`: errors; `Error.message` is their wording.
* `Fault`: faults; `Fault.message` is their wording.
* `Failure`: an error or a fault.
-/

namespace NullPath

/-- What went wrong. -/
inductive Cause
  | unsupported (construct detail : String)
  | unbound
  | moved
  | noBody (function : String)
  | localOutOfRange (place : Place) (function : Option String)
  | parameterOutOfRange (index : Int)
  | blockOutOfRange (block : Int)
  | switchArity (values targets : Nat)
  | argumentCount (callee : String) (given : Nat) (expected : Int)
  | unknownStrategy (name : String)
  | noFrame
  | solverTimeout
  | solverCanceled
  | solverResourceLimit
  | solverUnknown
  | canceled
  | endOfInput
  | unexpectedEnd
  | helpRequested
  | text (message : String)
  deriving DecidableEq, Repr, Inhabited

namespace Cause

/-- The wording of a cause. -/
def message : Cause → String
  | .unsupported construct detail =>
    if detail = "" then s!"unsupported {construct}" else s!"unsupported {construct}: {detail}"
  | .unbound => "place is not bound"
  | .moved => "place was moved out"
  | .noBody f => s!"function has no body: {f}"
  | .localOutOfRange p none => s!"local out of range: {p.text}"
  | .localOutOfRange p (some f) => s!"local out of range: {p.text} in {f}"
  | .parameterOutOfRange i => s!"parameter out of range: _{i}"
  | .blockOutOfRange b => s!"block out of range: bb{b}"
  | .switchArity values targets => s!"switch has {values} values but {targets} targets"
  | .argumentCount callee given expected =>
    s!"call to {callee}: {given} arguments, expected {expected}"
  | .unknownStrategy name => s!"unknown search strategy: {Text.quote name}"
  | .noFrame => "nilsym: no frame available"
  | .solverTimeout => "Solver timeout"
  | .solverCanceled => "Solver canceled"
  | .solverResourceLimit => "Solver resource limit"
  | .solverUnknown => "Solver unknown error"
  | .canceled => "context canceled"
  | .endOfInput => "EOF"
  | .unexpectedEnd => "unexpected EOF"
  | .helpRequested => "flag: help requested"
  | .text message => message

end Cause

/-- A cause and what was being done when it arose, outermost activity first. -/
structure Error where
  cause : Cause
  context : List String := []
  deriving DecidableEq, Repr, Inhabited

namespace Error

/-- An error without context. -/
def of (cause : Cause) : Error :=
  ⟨cause, []⟩

/-- An error known by its wording alone. -/
def ofText (message : String) : Error :=
  ⟨.text message, []⟩

/-- An error about a construct outside the supported subset. -/
def unsupported (construct detail : String) : Error :=
  ⟨.unsupported construct detail, []⟩

/-- The error inside one more activity. -/
def within (activity : String) (e : Error) : Error :=
  { e with context := activity :: e.context }

/-- The wording of an error: its context from the outside in, then its cause. -/
def message (e : Error) : String :=
  ": ".intercalate (e.context ++ [e.cause.message])

/-- Whether a construct outside the supported subset caused the error. -/
def isUnsupported (e : Error) : Bool :=
  match e.cause with
  | .unsupported _ _ => true
  | _ => false

end Error

/-- The violation of a precondition. -/
inductive Fault
  | nodeOutOfRange (node : Int)
  | closedNode (node : Int)
  | nonBoolean (e : Expr)
  | undeclared (n : Name)
  | baseOfLocal (p : Place)
  | divisionByZero
  | modulusByZero
  | notPredecessor (pred block : Nat)
  | unreachable
  | missingData
  deriving DecidableEq, Inhabited

namespace Fault

/-- The wording of a fault. -/
def message : Fault → String
  | .nodeOutOfRange n => s!"assert: node out of range: {n}"
  | .closedNode n => s!"assert: add expr to closed node: {n}"
  | .nonBoolean e => s!"assert: non-boolean assertion: {e.text}"
  | .undeclared n => s!"assert: undeclared name: {n.label}"
  | .baseOfLocal p => s!"assert: base of local place: {p.text}"
  | .divisionByZero => "assert: division by zero"
  | .modulusByZero => "assert: modulus by zero"
  | .notPredecessor pred block => s!"block {pred} is not a predecessor of block {block}"
  | .unreachable => "unreachable"
  | .missingData => "runtime error"

end Fault

/-- The two ways to fail. -/
inductive Failure
  | error (e : Error)
  | fault (f : Fault)
  deriving DecidableEq

namespace Failure

/-- The failure inside one more activity; a fault has no context. -/
def within (activity : String) : Failure → Failure
  | .error e => .error (e.within activity)
  | .fault f => .fault f

end Failure

namespace Place

/-- The location whose value is dereferenced last.  A local variable has none. -/
def pointer (p : Place) : Except Fault Place :=
  match p.pointer? with
  | some q => .ok q
  | none => .error (.baseOfLocal p)

end Place

namespace Constant

/-- The Euclidean quotient of two literals. -/
def div (a b : Constant) : Except Fault Constant :=
  if b.value = 0 then .error .divisionByZero else .ok (.ofInt (a.value.ediv b.value))

/-- The Euclidean remainder of two literals. -/
def mod (a b : Constant) : Except Fault Constant :=
  if b.value = 0 then .error .modulusByZero else .ok (.ofInt (a.value.emod b.value))

end Constant

end NullPath
