import NullPath.Memory.Basic

/-!
# Frames

A frame is one path under exploration: where it stands, which calls it is inside of, what its
memory holds, and which blocks it has been through.

* `Location`: a block of a function, by name and number.
* `Caller`: a suspended call, with what it takes to resume it.
* `Frame`: a path.
* `Frame.seen`: how often a path has executed a block.
* `Frame.dump`: the frame as text.
-/

namespace NullPath

/-- A block of a function. -/
structure Location where
  function : String
  block : Int
  deriving DecidableEq, Repr

/-- A function that waits for a call to return.  The result goes to the destination, and
execution goes on at the next block. -/
structure Caller where
  function : Function
  block : Int
  dest : Place
  next : Int

/-- A path under exploration. -/
structure Frame where
  id : Nat := 0
  function : Function
  block : Int := 0
  /-- The suspended calls, the innermost one first. -/
  callers : List Caller := []
  memory : Memory := {}
  /-- The condition under which the path branched off. -/
  guard : Option Expr := none
  /-- The node of the block that the path came from. -/
  parent : Option Int := none
  /-- The executed blocks, the latest one first. -/
  path : List Location := []

namespace Frame

/-- The block that is executed next. -/
def location (f : Frame) : Location :=
  ⟨f.function.name, f.block⟩

/-- The number of calls that the path is inside of. -/
def depth (f : Frame) : Nat :=
  f.callers.length

/-- How often the path has executed a block. -/
def seen (f : Frame) (l : Location) : Nat :=
  f.path.count l

/-- The frame after its next block is counted as executed. -/
def visit (f : Frame) : Frame :=
  { f with path := f.location :: f.path }

/-- The frame that goes on from a node at a block of the same function. -/
def fork (f : Frame) (memory : Memory) (block : Int) (guard : Option Expr) (node : Int) : Frame :=
  { f with id := 0, memory, block, guard, parent := some node }

/-- The frame that goes on from a node at the first block of a callee. -/
def enter (f : Frame) (memory : Memory) (callee : Function) (dest : Place) (next node : Int) :
    Frame :=
  { f with
    id := 0, memory, function := callee, block := 0, guard := none, parent := some node
    callers := ⟨f.function, f.block, dest, next⟩ :: f.callers }

/-- The frame that goes on from a node in a suspended caller. -/
def resume (f : Frame) (memory : Memory) (caller : Caller) (callers : List Caller) (node : Int) :
    Frame :=
  { f with
    id := 0, memory, function := caller.function, block := caller.next, guard := none
    parent := some node, callers }

/-- The frame as text: number, guard, calls from the inside out, and memory. -/
def dump (f : Frame) : String :=
  let guard := match f.guard with
    | some g => s!"guard: {g.text}\n"
    | none => ""
  let callers := f.callers.map fun c => s!"at {c.function.name} bb{c.block}\n"
  s!"== FRAME {f.id}\n{guard}at {f.function.name} bb{f.block}\n" ++ String.join callers ++
    "== MEMORY\n" ++ f.memory.dump

end Frame

end NullPath
