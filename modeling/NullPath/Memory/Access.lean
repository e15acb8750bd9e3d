import NullPath.Action
import NullPath.Cfg.Typing
import NullPath.Graph.Basic
import NullPath.Memory.Basic

/-!
# Reading and writing places

A place leads to a cell.  On the way every pointer is read, and its name is tagged as
dereferenced at the node that is being built.  The first read through a pointer declares a name
for the value behind it.

* `Env`: the function, call depth, node and position at work.
* `Store`: a memory and the graph that declares its names.
* `Store.resolve`: the cell of a place.
* `Store.readCopy`, `Store.readMove`: the name that a place holds.
* `Store.bind`, `Store.writeFresh`: giving a place a name, a given or a new one.
* `Store.ref`: the address of a place.
-/

namespace NullPath

/-- Where execution stands. -/
structure Env where
  function : Function
  depth : Int := 0
  node : Int := 0
  span : Span := {}

/-- A memory and the graph that declares the names in it. -/
structure Store where
  graph : Graph := {}
  memory : Memory := {}
  deriving DecidableEq

namespace Store

/-- Runs a change of the graph that may be a fault. -/
def onGraph (f : Graph → Except Fault Graph) : Action Store Unit := do
  let s ← Action.get
  let g ← Action.liftFault (f s.graph)
  Action.set { s with graph := g }

/-- Declares a new name. -/
def declare (sort : ExprSort) (origin : Option Origin) : Action Store Name := do
  let s ← Action.get
  let (name, g) := s.graph.declare sort origin
  Action.set { s with graph := g }
  return name

/-- The declaration of a name, which must exist. -/
def declaration (n : Name) : Action Store Declaration := do
  Action.liftFault ((← Action.get).graph.declaration n)

/-- Overwrites a cell. -/
def setCell (c : Cell) (b : Binding) : Action Store Unit :=
  Action.modify fun s => { s with memory := s.memory.set c b }

/-- Tags a pointer as dereferenced at the present node, unless it is tagged there. -/
def tag (env : Env) (pointer : Name) : Action Store Unit := do
  let d ← declaration pointer
  if !d.isDerefedAt env.node then
    onGraph fun g => g.addTag pointer ⟨env.node, env.span⟩

/-- The name that a cell holds.  The place says how the cell was reached: behind a pointer, a
cell without a value gets one. -/
def readCell (env : Env) (p : Place) (c : Cell) : Action Store Name := do
  match (← Action.get).memory.get? c with
  | some ⟨name, false⟩ => return name
  | some ⟨_, true⟩ => Action.error ((Error.of .moved).within s!"read {p.text}")
  | none =>
    if p.isLocal then Action.error ((Error.of .unbound).within s!"read {p.text}")
    else
      let sort ← Action.lift (env.function.placeSort p)
      let name ← declare sort none
      setCell c ⟨name, false⟩
      return name

/-- The cell of a local that is dereferenced a number of times. -/
def resolveAt (env : Env) (base : Int) : Nat → Action Store Cell
  | 0 => do
    match env.function.localVar? base with
    | none => Action.error (.of (.localOutOfRange ⟨base, 0⟩ none))
    | some _ => return (← Action.get).memory.cellOf (.of env.depth base)
  | k + 1 => do
    let c ← resolveAt env base k
    let pointer ← readCell env ⟨base, k⟩ c
    tag env pointer
    return .behind pointer

/-- The cell of a place. -/
def resolve (env : Env) (p : Place) : Action Store Cell :=
  resolveAt env p.base p.derefs

/-- The name that a place holds. -/
def readCopy (env : Env) (p : Place) : Action Store Name := do
  readCell env p (← resolve env p)

/-- The name that a place holds, which is moved out of the place. -/
def readMove (env : Env) (p : Place) : Action Store Name := do
  let name ← readCopy env p
  setCell (← resolve env p) ⟨name, true⟩
  return name

/-- Makes a place hold a name. -/
def bind (env : Env) (p : Place) (name : Name) : Action Store Unit := do
  setCell (← resolve env p) ⟨name, false⟩

/-- Makes a place hold a new name, which is returned. -/
def writeFresh (env : Env) (p : Place) : Action Store Name := do
  let sort ← Action.lift (env.function.placeSort p)
  let c ← resolve env p
  let name ← declare sort none
  setCell c ⟨name, false⟩
  return name

/-- Ends the storage of a local. -/
def unbind (env : Env) (base : Int) : Action Store Unit :=
  Action.modify fun s => { s with memory := s.memory.unbind (.of env.depth base) }

/-- The address of a place, and whether it was taken for the first time.  The address of what a
pointer leads to is the pointer. -/
def ref (env : Env) (p : Place) : Action Store (Name × Bool) := do
  match p.pointer? with
  | some q => return (← readCopy env q, false)
  | none =>
    match env.function.localVar? p.base with
    | none => Action.error (.of (.localOutOfRange p none))
    | some _ =>
      let slot := Slot.of env.depth p.base
      match (← Action.get).memory.addrs.get? slot with
      | some address => return (address, false)
      | none =>
        let address ← declare .int none
        Action.modify fun s => { s with memory := s.memory.giveAddress slot address }
        return (address, true)

/-- Ends the storage of all locals of a call depth. -/
def drop (depth : Int) : Action Store Unit :=
  Action.modify fun s => { s with memory := s.memory.drop depth }

end Store

end NullPath
