import NullPath.Explore.Searcher
import NullPath.Explore.Step

/-!
# Exploration

An explorer holds the graph built so far and the frames that wait.  A step takes the frame that
the searcher chooses, executes its block, and schedules the frames that follow.  A frame whose
block has been executed too often on its path is dropped and counted.

* `Explorer`: the state of an exploration.
* `Explorer.start`: binds the parameters and schedules the first frame.
* `Explorer.executeFrame`: executes one frame.
* `Explorer.step`: one step, with its `Outcome`.
* `Explorer.run`: steps until no frame waits or a step fails.
-/

namespace NullPath

/-- The state of an exploration of one entry function. -/
structure Explorer where
  options : Options := {}
  program : Program := .empty
  entry : Function
  searcher : Searcher Frame := .single .depthFirst
  started : Bool := false
  graph : Graph := {}
  root : Int := 0
  stats : Stats := {}

/-- How a step ended.  A step that failed with an error tells the frame that it executed, if
there was one. -/
inductive Outcome
  | finished
  | executed (frame : Frame)
  | failed (frame : Option Frame) (failure : Failure)

namespace Explorer

/-- Whether some path was cut off. -/
def incomplete (e : Explorer) : Bool :=
  0 < e.stats.pruned

/-- Hands a frame to the searcher, unless its block has been executed too often on its path. -/
def schedule (e : Explorer) (frame : Frame) : Explorer :=
  if e.options.maxUnroll ≤ frame.seen frame.location then
    { e with stats.pruned := e.stats.pruned + 1 }
  else
    { e with
      stats.frames := e.stats.frames + 1
      searcher := e.searcher.add { frame with id := e.stats.frames + 1 } }

/-- The name that a parameter is known by in reports. -/
def parameterLabel (l : LocalVar) (i : Nat) : String :=
  if l.name = "" then s!"_{i}" else l.name

/-- Binds parameters, from one index on, to new names that remember where they came from. -/
def bindParameters (f : Function) : Nat → Nat → Action Store Unit
  | 0, _ => return
  | count + 1, i => do
    match f.localVar? i with
    | none => Action.error (.of (.parameterOutOfRange i))
    | some l =>
      let sort ← Action.within s!"parameter {l.name}" (Action.lift l.type.sort)
      let name ← Store.declare sort (some ⟨f.name, i, parameterLabel l i⟩)
      Store.bind { function := f } ⟨i, 0⟩ name
      bindParameters f count (i + 1)

/-- Prepares the memory at the entry of a function: the result slot, if its type has a sort, and
the parameters. -/
def enterFunction (f : Function) : Action Store Unit := do
  match f.locals with
  | [] => Action.error (.of (.noBody f.name))
  | result :: _ =>
    if f.blocks.isEmpty then Action.error (.of (.noBody f.name))
    else
      if result.type.sort.isOk then
        let _ ← Action.within "return slot" (Store.writeFresh { function := f } ⟨0, 0⟩)
      bindParameters f f.argCount.toNat 1

/-- Schedules the first frame. -/
def start (e : Explorer) : Except Failure Unit × Explorer :=
  match enterFunction e.entry { graph := e.graph } with
  | (.ok (), s) =>
    (.ok (), schedule { e with graph := s.graph } { function := e.entry, memory := s.memory })
  | (.error failure, s) => (.error failure, { e with graph := s.graph })

/-- Links a new node to the node that a frame came from.  A frame without one is the first, and
its node becomes the root. -/
def link (e : Explorer) (frame : Frame) (node : Int) (g : Graph) : Except Fault (Int × Graph) :=
  match frame.parent with
  | none => .ok (node, g)
  | some parent =>
    match g.addEdge parent ⟨frame.guard, node⟩ with
    | .ok g' => .ok (e.root, g')
    | .error f => .error f

/-- Executes the block of a frame.  The frame is returned with its memory as the block left it. -/
def executeFrame (e : Explorer) (frame : Frame) :
    Except Failure (List Frame) × Frame × Explorer :=
  match frame.function.block? frame.block with
  | none => (.error (.error (.of (.blockOutOfRange frame.block))), frame, e)
  | some b =>
    let frame := frame.visit
    let (node, g) := e.graph.addNode
    let e := { e with stats.nodes := e.stats.nodes + 1 }
    match e.link frame node g with
    | .error f => (.error (.fault f), frame, { e with graph := g })
    | .ok (root, g) =>
      let env : Env := { function := frame.function, depth := frame.depth, node }
      let (result, m) := Machine.block e.options e.program frame env b
        { store := { graph := g, memory := frame.memory }, stats := e.stats }
      (result, { frame with memory := m.store.memory },
        { e with
          graph := m.store.graph.modifyNode node fun n => { n with closed := true }
          stats := m.stats
          root })

/-- One step: starts if that has not been done, then executes the frame that the searcher
chooses. -/
def step (e : Explorer) : Outcome × Explorer :=
  let (started, e) := if e.started then (.ok (), e) else start { e with started := true }
  match started with
  | .error failure => (.failed none failure, e)
  | .ok () =>
    match e.searcher.select with
    | (none, searcher) => (.finished, { e with searcher })
    | (some frame, searcher) =>
      match executeFrame { e with searcher } frame with
      | (.ok next, frame, e) => (.executed frame, next.foldl schedule e)
      | (.error (.error err), frame, e) =>
        (.failed (some frame)
          (.error (err.within s!"{frame.function.name}: bb{frame.block}")), e)
      | (.error (.fault f), _, e) => (.failed none (.fault f), e)

/-- The number of steps after which a run is given up. -/
def stepBudget : Nat :=
  0x4000000000000000

/-- Steps until no frame waits, a step fails, or a number of steps has been made; the last case
has no result.  The executed frames are listed, the latest first. -/
def runWithin : Nat → Explorer → List Frame → Option (Except Failure Unit) × Explorer × List Frame
  | 0, e, executed => (none, e, executed)
  | fuel + 1, e, executed =>
    match e.step with
    | (.finished, e) => (some (.ok ()), e, executed)
    | (.executed frame, e) => runWithin fuel e (frame :: executed)
    | (.failed frame failure, e) => (some (.error failure), e, frame.toList ++ executed)

/-- Steps until no frame waits or a step fails, and lists the executed frames in order. -/
def trace (e : Explorer) : Except Failure Unit × Explorer × List Frame :=
  match runWithin stepBudget e [] with
  | (some result, e, executed) => (result, e, executed.reverse)
  | (none, e, executed) => (.error (.error (.ofText "too many steps")), e, executed.reverse)

/-- Steps until no frame waits or a step fails. -/
def run (e : Explorer) : Except Failure Unit × Explorer :=
  let (result, e, _) := e.trace
  (result, e)

/-- Runs, unless the work has been given up. -/
def runUnless (canceled : Bool) (e : Explorer) : Except Failure Unit × Explorer :=
  if canceled then (.error (.error (.of .canceled)), e) else e.run

end Explorer

end NullPath
