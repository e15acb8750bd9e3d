import NullPath.Proofs.Entry

/-!
# Running code with pointers

Code that takes addresses and follows pointers runs on cells.  Every local has a cell of its own as
storage, and a pointer is the address of a cell or zero.  Cells hold single values, so what can be
reached from a pointer is a chain of cells, as long as its type.

What the program does not determine is left open.  New storage holds an arbitrary value of its
type, and an arbitrary pointer is zero or leads to a chain of cells that are all new: nothing else
leads to them, and they are different from one another.  At the entry all locals get storage in
this way; the storage of a parameter holds the argument.  A run can stop in the middle of a block,
and this module tells a null dereference from every other reason.

* `Heap.Arbitrary`, `Heap.Renews`, `Heap.Begins`: arbitrary values, new storage, and the entry.
* `Heap.rvalue`, `Heap.Exec`, `Heap.Leaves`: values, statements and terminators.
-/

namespace NullPath

/-! ## Typed code -/

/-- A type without the names that it is written with. -/
def Ty.shape : Ty → Ty
  | .untyped => .untyped
  | .other _ => .other ""
  | .bool _ => .bool ""
  | .int _ => .int ""
  | .pointer _ elem => .pointer "" elem.shape

/-- The place of the operand has a type. -/
def Operand.Typed (f : Function) : Operand → Prop
  | .copy p | .move p => ∃ t, f.placeType p = .ok t
  | _ => True

/-- The places of the right-hand side have types. -/
def Rvalue.Typed (f : Function) : Rvalue → Prop
  | .use x | .unary _ x | .cast x _ => x.Typed f
  | .binary _ l r => l.Typed f ∧ r.Typed f
  | .ref p => ∃ t, f.placeType p = .ok t
  | .missing => True

/-- The right-hand side gives a pointer of a type: zero, what a place of this type holds, or the
address of a place. -/
def Rvalue.GivesPointer (f : Function) (t : Ty) : Rvalue → Prop
  | .use (.const v _) => v = 0
  | .use (.copy p) | .use (.move p) => ∃ t', f.placeType p = .ok t' ∧ t'.shape = t.shape
  | .ref p => ∃ t', f.placeType p = .ok t' ∧ t.shape = .pointer "" t'.shape
  | _ => False

/-- The places of the statement have types, and a place for pointers is given a pointer. -/
def Statement.Typed (f : Function) : Statement → Prop
  | .assign p rv _ => rv.Typed f ∧
      ∃ t, f.placeType p = .ok t ∧ (t.isPointer = true → rv.GivesPointer f t)
  | _ => True

/-- The terminator is not a call, and the place that it reads has a type. -/
def Terminator.Typed (f : Function) : Terminator → Prop
  | .switch x _ _ _ | .assert x _ _ _ => x.Typed f
  | .call .. => False
  | _ => True

/-- The function calls nothing, its places have types, and its pointers come from parameters,
addresses, the constant zero, and places that hold pointers. -/
structure Function.PointerTyped (f : Function) : Prop where
  statements : ∀ b ∈ f.blocks, ∀ st ∈ b.statements, st.Typed f
  terminators : ∀ b ∈ f.blocks, b.terminator.Typed f

namespace Heap

/-! ## Cells -/

/-- What the cells hold, by address. -/
abbrev Cells := Int → Option Constant

/-- The cells with one of them changed. -/
def Cells.set (h : Cells) (a : Int) (v : Constant) : Cells :=
  fun b => if b = a then some v else h b

/-- The address of the storage of each local, and the cells. -/
structure State where
  storage : Int → Int
  cells : Cells

/-- Why a run stops in the middle of a block. -/
inductive Stop
  | null
  | stuck
  deriving DecidableEq

/-- The value, if there is one. -/
def orStuck {α : Type} : Option α → Except Stop α
  | some x => .ok x
  | none => .error .stuck

namespace State

/-- The cell that a pointer leads to. -/
def follow (v : Constant) : Except Stop Int :=
  if v.value = 0 then .error .null else .ok v.value

/-- The address of a local that is dereferenced a number of times. -/
def addressAt (st : State) (base : Int) : Nat → Except Stop Int
  | 0 => .ok (st.storage base)
  | k + 1 => do
    let a ← st.addressAt base k
    let v ← orStuck (st.cells a)
    follow v

/-- The address of a place. -/
def address (st : State) (p : Place) : Except Stop Int :=
  st.addressAt p.base p.derefs

/-- The value that a place holds. -/
def read (st : State) (p : Place) : Except Stop Constant := do
  let a ← st.address p
  orStuck (st.cells a)

end State

/-! ## Values -/

/-- The value of an operand.  A move leaves the value where it was. -/
def operand (st : State) : Operand → Except Stop Constant
  | .copy p | .move p => st.read p
  | .const v t => orStuck (t.literal? v)
  | .missing => .error .stuck

/-- The value of a right-hand side.  The address of what a pointer leads to is the pointer. -/
def rvalue (st : State) : Rvalue → Except Stop Constant
  | .use x => operand st x
  | .binary op l r => do
    let a ← operand st l
    let b ← operand st r
    orStuck (op.value? a b)
  | .unary op x => do
    let a ← operand st x
    orStuck (op.value? a)
  | .cast x t => do
    let a ← operand st x
    orStuck (t.castValue? a)
  | .ref p =>
    match p.pointer? with
    | some q => st.read q
    | none => .ok (.ofInt (st.storage p.base))
  | .missing => .error .stuck

/-- An assignment computes the value first. -/
def assign (st : State) (p : Place) (rv : Rvalue) : Except Stop State := do
  let v ← rvalue st rv
  let a ← st.address p
  return { st with cells := st.cells.set a v }

/-! ## New storage -/

/-- An arbitrary value of a type, with new cells for everything that it leads to.  The content of
cells of other types does not matter. -/
inductive Arbitrary : Ty → Cells → Constant → Cells → Prop
  | int {s : String} {h : Cells} (v : Int) : Arbitrary (.int s) h (.ofInt v) h
  | bool {s : String} {h : Cells} (v : Bool) : Arbitrary (.bool s) h (.ofBool v) h
  | null {s : String} {elem : Ty} {h : Cells} : Arbitrary (.pointer s elem) h (.ofInt 0) h
  | pointer {s : String} {elem : Ty} {h h' : Cells} {v : Constant} {a : Int} :
    Arbitrary elem h v h' → a ≠ 0 → h' a = none →
      Arbitrary (.pointer s elem) h (.ofInt a) (h'.set a v)
  | untyped {h : Cells} (v : Constant) : Arbitrary .untyped h v h
  | other {s : String} {h : Cells} (v : Constant) : Arbitrary (.other s) h v h

/-- A local gets new storage that holds an arbitrary value. -/
inductive Renews (f : Function) (i : Int) (st : State) (v : Constant) : State → Prop
  | mk {l : LocalVar} {h : Cells} {a : Int} :
    f.localVar? i = some l → Arbitrary l.type st.cells v h → a ≠ 0 → h a = none →
      Renews f i st v ⟨fun j => if j = i then a else st.storage j, h.set a v⟩

/-- The first locals have storage, and that of a parameter holds the argument. -/
inductive Stores (f : Function) (args : List Constant) : Nat → State → Prop
  | none : Stores f args 0 ⟨fun _ => 0, fun _ => none⟩
  | next {k : Nat} {st st' : State} {v : Constant} :
    Stores f args k st → Renews f k st v st' →
      (∀ j c, k = j + 1 → args[j]? = some c → v = c) → Stores f args (k + 1) st'

/-- A run begins with storage for all locals. -/
structure Begins (f : Function) (args : List Constant) (st : State) : Prop where
  count : args.length = f.argCount.toNat
  stores : Stores f args f.locals.length st

/-! ## Runs -/

/-- Executing a statement.  Storage that has ended is like new storage. -/
inductive Exec (f : Function) : Statement → State → State → Prop
  | assign {p : Place} {rv : Rvalue} {span : Span} {st st' : State} :
    Heap.assign st p rv = .ok st' → Exec f (.assign p rv span) st st'
  | live {i : Int} {st st' : State} {v : Constant} :
    Renews f i st v st' → Exec f (.storageLive i) st st'
  | dead {i : Int} {st st' : State} {v : Constant} :
    Renews f i st v st' → Exec f (.storageDead i) st st'
  | nop {st : State} : Exec f .nop st st

/-- Executing statements in order. -/
inductive ExecAll (f : Function) : List Statement → State → State → Prop
  | nil {st : State} : ExecAll f [] st st
  | cons {s : Statement} {ss : List Statement} {st st' st'' : State} :
    Exec f s st st' → ExecAll f ss st' st'' → ExecAll f (s :: ss) st st''

/-- The block at which a run goes on after a terminator.  An assertion that fails stops it. -/
inductive Leaves (st : State) : Terminator → Int → Prop
  | goto {t : Int} : Leaves st (.goto t) t
  | switch {x : Operand} {values targets : List Int} {span : Span} {c : Constant} {i : Nat}
    {t : Int} :
    operand st x = .ok c → switchTakes c values i → targets[i]? = some t →
      Leaves st (.switch x values targets span) t
  | assert {x : Operand} {expected : Bool} {t : Int} {span : Span} :
    operand st x = .ok (.ofBool expected) → Leaves st (.assert x expected t span) t

/-- The operand that a terminator reads. -/
def reads? : Terminator → Option Operand
  | .switch x _ _ _ | .assert x _ _ _ => some x
  | _ => none

/-- The rest of a block dereferences a null pointer. -/
inductive Faults (f : Function) : List Statement → Terminator → State → Prop
  | here {p : Place} {rv : Rvalue} {span : Span} {ss : List Statement} {t : Terminator}
    {st : State} :
    Heap.assign st p rv = .error .null → Faults f (.assign p rv span :: ss) t st
  | later {s : Statement} {ss : List Statement} {t : Terminator} {st st' : State} :
    Exec f s st st' → Faults f ss t st' → Faults f (s :: ss) t st
  | last {t : Terminator} {x : Operand} {st : State} :
    reads? t = some x → operand st x = .error .null → Faults f [] t st

/-- A run of a function on arguments went through some blocks in order, and now stands at the next
one. -/
inductive Visits (f : Function) (args : List Constant) : List Int → Int → State → Prop
  | start {st : State} : Begins f args st → Visits f args [] 0 st
  | step {bs : List Int} {b b' : Int} {st st' : State} {block : Block} :
    Visits f args bs b st → f.block? b = some block → ExecAll f block.statements st st' →
      Leaves st' block.terminator b' → Visits f args (bs ++ [b]) b' st'

/-- Some run of the function on the arguments goes through some blocks, and then dereferences a
null pointer in the next one. -/
def DereferencesNull (f : Function) (args : List Constant) (bs : List Int) (b : Int) : Prop :=
  ∃ st block, Visits f args bs b st ∧ f.block? b = some block ∧
    Faults f block.statements block.terminator st

end Heap
end NullPath
