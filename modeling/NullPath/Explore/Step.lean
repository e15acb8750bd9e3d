import NullPath.Cfg.Printer
import NullPath.Explore.Evaluate
import NullPath.Explore.Frame

/-!
# Executing a block

Executing a block of a frame runs its statements and its terminator on the frame's memory, and
records what they assert in a node of the graph.  The result is the list of frames with
which exploration goes on.

* `Options`, `Stats`: the bounds and the counters of an exploration.
* `Machine`: the graph and memory at work, and the counters.
* `Store.statement`: one statement.
* `Machine.terminator`: the frames after a terminator.
-/

namespace NullPath

/-- The bounds of an exploration. -/
structure Options where
  /-- How often a path may execute one block. -/
  maxUnroll : Int := 5
  /-- Whether calls to known functions are followed. -/
  inlineCalls : Bool := false
  /-- The depth to which calls are followed. -/
  maxCallDepth : Int := 4
  deriving DecidableEq, Repr

/-- The counters of an exploration. -/
structure Stats where
  /-- Frames that were scheduled. -/
  frames : Nat := 0
  /-- Nodes of the graph. -/
  nodes : Nat := 0
  /-- Frames that were dropped at the unroll bound. -/
  pruned : Nat := 0
  /-- Calls whose result was left open. -/
  havoced : Nat := 0
  /-- Calls that were followed. -/
  inlined : Nat := 0
  deriving DecidableEq, Repr

namespace Store

/-- Runs an action on a copy of the memory.  The graph keeps the changes; the memory stays as it
was, and the changed copy is returned. -/
def onCopy {α : Type} (x : Action Store α) : Action Store (α × Memory) :=
  fun s =>
    match x s with
    | (.ok a, s') => (.ok (a, s'.memory), { s' with memory := s.memory })
    | (.error e, s') => (.error e, { s' with memory := s.memory })

/-- Whether an assignment to a place of this type shares the name of its value.  Only an address
that is the value of a name is shared; a place without a type admits no answer. -/
def sharesName (env : Env) (p : Place) (value : Expr) : Except Fault (Option Name) :=
  match value with
  | .name n _ =>
    match env.function.placeType p with
    | .ok .untyped => .error .missingData
    | .ok t => .ok (if t.isPointer then some n else none)
    | .error _ => .ok none
  | _ => .ok none

/-- Executes an assignment.  The value is computed first, so the place may occur in it.  A copied
pointer keeps its name, so that both places lead to one cell. -/
def assign (env : Env) (p : Place) (rv : Rvalue) : Action Store Unit := do
  let value ← rvalue env rv
  match ← Action.liftFault (sharesName env p value) with
  | some n => bind env p n
  | none =>
    let name ← writeFresh env p
    assertEqual env.node name value

/-- Begins a new storage of a local, with an arbitrary value if its type has a sort. -/
def makeLive (env : Env) (base : Int) : Action Store Unit := do
  unbind env base
  match env.function.localVar? base with
  | none => Action.error (.of (.localOutOfRange ⟨base, 0⟩ none))
  | some l =>
    match l.type.sort with
    | .error _ => return
    | .ok _ =>
      let _ ← writeFresh env ⟨base, 0⟩

/-- Executes a statement. -/
def statement (env : Env) : Statement → Action Store Unit
  | .assign p rv span => assign { env with span } p rv
  | .storageLive base => makeLive env base
  | .storageDead base => unbind env base
  | .nop => return
  | .missing => Action.error (.unsupported "statement" "<nil>")

/-- Executes statements in order. -/
def statements (env : Env) : List Statement → Action Store Unit
  | [] => return
  | s :: rest => do
    statement env s
    statements env rest

/-- The values of operands in order. -/
def operands (env : Env) : List Operand → Action Store (List Expr)
  | [] => return []
  | x :: xs => do
    let e ← operand env x
    let es ← operands env xs
    return e :: es

/-- Gives the parameters of a callee new names that equal the arguments. -/
def passArguments (env : Env) (node : Int) : Nat → List Expr → Action Store Unit
  | _, [] => return
  | i, arg :: args => do
    let name ← writeFresh env ⟨i, 0⟩
    assertEqual node name arg
    passArguments env node (i + 1) args

end Store

/-- The literal that a switch compares its operand with, in the sort of the operand. -/
def switchLiteral (discr : Expr) (value : Int) : Expr :=
  if discr.sort = .bool then .bool (value != 0) else .int value

/-- The guard for one value of a switch. -/
def switchGuard (discr : Expr) (value : Int) : Expr :=
  .mkEq discr (switchLiteral discr value)

/-- The guards of a switch: one for each value, and one for no value. -/
def switchGuards (discr : Expr) (values : List Int) : List Expr :=
  let guards := values.map (switchGuard discr)
  guards ++ [Expr.conj (guards.map Expr.mkNot)]

/-- The graph and the memory at work, and the counters. -/
structure Machine where
  store : Store := {}
  stats : Stats := {}

namespace Machine

/-- An action on graph and memory. -/
def onStore {α : Type} (x : Action Store α) : Action Machine α :=
  Action.zoom store (fun s m => { m with store := s }) x

/-- Counts a call whose result is left open. -/
def countHavoc : Action Machine Unit :=
  Action.modify fun m => { m with stats.havoced := m.stats.havoced + 1 }

/-- Counts a call that is followed. -/
def countInline : Action Machine Unit :=
  Action.modify fun m => { m with stats.inlined := m.stats.inlined + 1 }

/-- The frame that goes on at a block with the memory at work. -/
def goOn (frame : Frame) (env : Env) (block : Int) (guard : Option Expr) : Action Machine Frame :=
  fun m => (.ok (frame.fork m.store.memory block guard env.node), m)

/-- Follows a call into the callee. -/
def inlineCall (frame : Frame) (env : Env) (callee : Function) (args : List Expr) (dest : Place)
    (next : Int) : Action Machine (List Frame) := do
  if (args.length : Int) ≠ callee.argCount then
    Action.error (.of (.argumentCount callee.name args.length callee.argCount))
  else
    let inner : Env := { function := callee, depth := frame.depth + 1, node := env.node }
    let ((), memory) ← onStore (Store.onCopy
      (Action.within s!"call to {callee.name}" (Store.passArguments inner env.node 1 args)))
    countInline
    return [frame.enter memory callee dest next env.node]

/-- Executes a call.  The arguments are evaluated in any case.  A known callee is followed within
the bound on the depth; otherwise the result is a new name. -/
def call (options : Options) (program : Program) (frame : Frame) (env : Env) (callee : String)
    (args : List Operand) (dest : Option Place) (next : Int) : Action Machine (List Frame) := do
  let values ← onStore (Store.operands env args)
  match dest with
  | none => return []
  | some dest =>
    let known := if options.inlineCalls && (frame.depth : Int) < options.maxCallDepth
      then program.function? callee else none
    match known with
    | some f => inlineCall frame env f values dest next
    | none =>
      countHavoc
      let _ ← onStore (Store.writeFresh env dest)
      return [← goOn frame env next none]

/-- Executes a return.  The entry function ends; a callee hands its result to the caller, whose
locals are the only ones that remain. -/
def finishCall (frame : Frame) (env : Env) : Action Machine (List Frame) :=
  match frame.callers with
  | [] => return []
  | caller :: callers => do
    let result ← onStore (Action.within s!"return from {frame.function.name}"
      (Store.readCopy env ⟨0, 0⟩))
    let outer : Env := { function := caller.function, depth := callers.length, node := env.node }
    let ((), memory) ← onStore (Store.onCopy do
      Store.drop env.depth
      let name ← Store.writeFresh outer caller.dest
      Store.assertEqual env.node name (← Store.declaration result).expr)
    return [frame.resume memory caller callers env.node]

/-- The frames with which exploration goes on after a terminator. -/
def terminator (options : Options) (program : Program) (frame : Frame) (env : Env) :
    Terminator → Action Machine (List Frame)
  | .goto target => return [← goOn frame env target none]
  | .switch x values targets span =>
    if targets.length ≠ values.length + 1 then
      Action.error (.of (.switchArity values.length targets.length))
    else do
      let discr ← onStore (Store.operand { env with span } x)
      (targets.zip (switchGuards discr values)).mapM fun (target, guard) =>
        goOn frame env target (some guard)
  | .assert x expected target span => do
    let cond ← onStore (Store.operand { env with span } x)
    if cond.sort ≠ .bool then
      Action.error (.unsupported "assert" s!"non-boolean condition {x.text}")
    else
      onStore (Store.assertExpr env.node (.mkEq cond (.bool expected)))
      return [← goOn frame env target none]
  | .call callee args dest next span =>
    call options program frame { env with span } callee args dest next
  | .return => finishCall frame env
  | .unreachable => return []
  | .missing => Action.error (.unsupported "terminator" "<nil>")

/-- Executes a block and gives the frames that follow. -/
def block (options : Options) (program : Program) (frame : Frame) (env : Env) (b : Block) :
    Action Machine (List Frame) := do
  onStore (Store.statements env b.statements)
  terminator options program frame env b.terminator

end Machine

end NullPath
