import NullPath.Assoc
import NullPath.Error

/-!
# Symbolic memory

A memory maps storage cells to the names of their current values.  There are two kinds of cells:
the slot of a local variable at some call depth, and the cell behind a pointer, which is known
by the name of the pointer's value.  A local whose address has been taken has no slot of its
own any more: its value lives behind its address, so that both ways to it lead to one cell.

Memories are values.  A copy of a memory is that memory, and later changes to one of
the two do not show in the other.

* `Slot`, `Cell`, `Binding`, `Memory`: the data.
* `Memory.cellOf`, `Memory.get?`, `Memory.set`: reading and writing cells.
* `Memory.unbind`, `Memory.drop`: ending the storage of one local or of a call depth.
* `Memory.lookup?`: the present value of a local.
-/

namespace NullPath

/-- The slot of a local variable at a call depth.  Both numbers are words of 32 bits. -/
structure Slot where
  depth : Nat
  index : Nat
  deriving DecidableEq, Repr

namespace Slot

/-- The slot of a local at a call depth, each number reduced to 32 bits. -/
def of (depth base : Int) : Slot :=
  ⟨(depth % 0x100000000).toNat, (base % 0x100000000).toNat⟩

/-- Whether a slot comes before another one: by depth, then by index. -/
def le (a b : Slot) : Bool :=
  a.depth < b.depth || (a.depth == b.depth && a.index ≤ b.index)

end Slot

/-- What a cell holds: a name, and whether the value has been moved out. -/
structure Binding where
  name : Name
  moved : Bool := false
  deriving DecidableEq, Repr

/-- A storage cell: a local slot, or the cell that a pointer value leads to. -/
inductive Cell
  | slot (s : Slot)
  | behind (pointer : Name)
  deriving DecidableEq, Repr

/-- The values of the local slots, the addresses of locals, and the values behind pointers. -/
structure Memory where
  locals : Assoc Slot Binding := .empty
  addrs : Assoc Slot Name := .empty
  pointees : Assoc Name Binding := .empty
  deriving DecidableEq

namespace Memory

/-- The memory in which nothing is bound. -/
def empty : Memory :=
  {}

/-- The cell of a local slot, which is behind the local's address if that has been taken. -/
def cellOf (m : Memory) (s : Slot) : Cell :=
  match m.addrs.get? s with
  | some address => .behind address
  | none => .slot s

/-- What a cell holds. -/
def get? (m : Memory) : Cell → Option Binding
  | .slot s => m.locals.get? s
  | .behind p => m.pointees.get? p

/-- The memory with a cell overwritten. -/
def set (m : Memory) (c : Cell) (b : Binding) : Memory :=
  match c with
  | .slot s => { m with locals := m.locals.insert s b }
  | .behind p => { m with pointees := m.pointees.insert p b }

/-- Ends the storage of a local.  What lies behind its address stays there. -/
def unbind (m : Memory) (s : Slot) : Memory :=
  { m with locals := m.locals.erase s, addrs := m.addrs.erase s }

/-- Ends the storage of all locals of a call depth. -/
def drop (m : Memory) (depth : Int) : Memory :=
  { m with
    locals := m.locals.filterKeys fun s => (s.depth : Int) != depth
    addrs := m.addrs.filterKeys fun s => (s.depth : Int) != depth }

/-- Gives a local an address.  Its present value moves behind the address. -/
def giveAddress (m : Memory) (s : Slot) (address : Name) : Memory :=
  match m.locals.get? s with
  | some b =>
    { locals := m.locals.erase s
      addrs := m.addrs.insert s address
      pointees := m.pointees.insert address b }
  | none => { m with addrs := m.addrs.insert s address }

/-- The name of a local's value, if the local is bound and its value has not been moved out. -/
def lookup? (m : Memory) (depth base : Int) : Option Name :=
  match m.get? (m.cellOf (.of depth base)) with
  | some ⟨name, false⟩ => some name
  | _ => none

/-- The memory as text: local slots, addresses, and values behind pointers, each in order. -/
def dump (m : Memory) : String :=
  let locals := (m.locals.entries.mergeSort fun a b => a.1.le b.1).map fun (s, b) =>
    let moved := if b.moved then " (moved)" else ""
    s!"{s.depth}:_{s.index} = {b.name.label}{moved}\n"
  let addrs := (m.addrs.entries.mergeSort fun a b => a.1.le b.1).map fun (s, n) =>
    s!"{s.depth}:&_{s.index} = {n.label}\n"
  let pointees := (m.pointees.entries.mergeSort fun a b => a.1.index ≤ b.1.index).map fun (p, b) =>
    s!"*{p.label} = {b.name.label}\n"
  String.join (locals ++ addrs ++ pointees)

end Memory

end NullPath
