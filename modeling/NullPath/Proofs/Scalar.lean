import NullPath.Proofs.Entry

/-!
# Running scalar programs

A scalar program computes with integers and truth values only: its locals have such types, its
places are the locals themselves, and it takes no address and divides nothing.  This module runs
such programs on values.  What the program does not determine is left open: the value of storage
that becomes live, the result of a call that is not followed, and the first content of a result
slot may be any value of the right sort, and a switch may go to any target whose value matches.

* `Function.IsScalar`: scalar code.
* `Scalar.Visits`: the places that a run goes through.
-/

namespace NullPath

/-! ## Scalar code -/

/-- The operand reads a local or is a literal. -/
def Operand.IsScalar : Operand → Prop
  | .copy p | .move p => p.derefs = 0
  | _ => True

/-- The right-hand side takes no address and divides nothing. -/
def Rvalue.IsScalar : Rvalue → Prop
  | .use x | .unary _ x | .cast x _ => x.IsScalar
  | .binary op l r => op ≠ .div ∧ op ≠ .rem ∧ l.IsScalar ∧ r.IsScalar
  | .ref _ => False
  | .missing => True

/-- The statement assigns to a local. -/
def Statement.IsScalar : Statement → Prop
  | .assign p rv _ => p.derefs = 0 ∧ rv.IsScalar
  | _ => True

/-- The terminator reads and writes locals only. -/
def Terminator.IsScalar : Terminator → Prop
  | .switch x _ _ _ | .assert x _ _ _ => x.IsScalar
  | .call _ args dest _ _ => (∀ x ∈ args, x.IsScalar) ∧ ∀ p ∈ dest, p.derefs = 0
  | _ => True

/-- The integers and the truth values. -/
def Ty.IsScalar : Ty → Prop
  | .int _ | .bool _ => True
  | _ => False

/-- The function computes with integers and truth values only. -/
structure Function.IsScalar (f : Function) : Prop where
  locals : ∀ l ∈ f.locals, l.type.IsScalar
  statements : ∀ b ∈ f.blocks, ∀ st ∈ b.statements, st.IsScalar
  terminators : ∀ b ∈ f.blocks, b.terminator.IsScalar

/-! ## Runs -/

namespace Scalar

/-- The values of the locals of one call.  A local without storage, or whose value was moved out,
has none. -/
abbrev Locals := Int → Option Constant

/-- The locals with one of them changed. -/
def Locals.set (σ : Locals) (i : Int) (v : Option Constant) : Locals :=
  fun j => if j = i then v else σ j

theorem Locals.set_set (σ : Locals) (i : Int) (v w : Option Constant) :
    (σ.set i v).set i w = σ.set i w := by
  funext j
  by_cases hj : j = i <;> simp [Locals.set, hj]

/-- The value of an operand, and the locals after it has been read. -/
def operand (σ : Locals) : Operand → Option (Constant × Locals)
  | .copy p => (σ p.base).map fun c => (c, σ)
  | .move p => (σ p.base).map fun c => (c, σ.set p.base none)
  | .const v t => (t.literal? v).map fun c => (c, σ)
  | .missing => none

/-- The values of operands in order. -/
def operands (σ : Locals) : List Operand → Option (List Constant × Locals)
  | [] => some ([], σ)
  | x :: xs => do
    let (c, σ) ← operand σ x
    let (cs, σ) ← operands σ xs
    return (c :: cs, σ)

/-- The value of a right-hand side. -/
def rvalue (σ : Locals) : Rvalue → Option (Constant × Locals)
  | .use x => operand σ x
  | .binary op l r => do
    let (a, σ) ← operand σ l
    let (b, σ) ← operand σ r
    let c ← op.value? a b
    return (c, σ)
  | .unary op x => do
    let (a, σ) ← operand σ x
    let c ← op.value? a
    return (c, σ)
  | .cast x t => do
    let (a, σ) ← operand σ x
    let c ← t.castValue? a
    return (c, σ)
  | .ref _ | .missing => none

/-- Executing a statement.  New storage holds any value of the sort of its local. -/
inductive Exec (f : Function) : Statement → Locals → Locals → Prop
  | assign {p : Place} {rv : Rvalue} {span : Span} {σ σ' : Locals} {c : Constant} :
    rvalue σ rv = some (c, σ') → f.placeSort p = .ok c.sort →
      Exec f (.assign p rv span) σ (σ'.set p.base (some c))
  | live {i : Int} {sort : ExprSort} {σ : Locals} {c : Constant} :
    f.placeSort ⟨i, 0⟩ = .ok sort → c.HasSort sort →
      Exec f (.storageLive i) σ (σ.set i (some c))
  | dead {i : Int} {σ : Locals} : Exec f (.storageDead i) σ (σ.set i none)
  | nop {σ : Locals} : Exec f .nop σ σ

/-- Executing statements in order. -/
inductive ExecAll (f : Function) : List Statement → Locals → Locals → Prop
  | nil {σ : Locals} : ExecAll f [] σ σ
  | cons {st : Statement} {sts : List Statement} {σ σ' σ'' : Locals} :
    Exec f st σ σ' → ExecAll f sts σ' σ'' → ExecAll f (st :: sts) σ σ''

/-- A call that waits for its callee, with its locals, the place for the result and the block at
which it goes on. -/
structure Call where
  function : Function
  locals : Locals
  dest : Place
  next : Int

/-- Where a run stands: the function and block, the values of its locals, and the waiting calls,
the innermost one first. -/
structure State where
  function : Function
  block : Int
  locals : Locals
  calls : List Call

/-- The block that is executed next, and the number of calls that it is inside of. -/
def State.place (s : State) : Location × Nat :=
  (⟨s.function.name, s.block⟩, s.calls.length)

/-- The locals at the entry of a function.  The parameters have the values of the arguments, which
must have their sorts; the result slot, if there is one, holds any value of its sort. -/
structure Enters (f : Function) (args : List Constant) (σ : Locals) : Prop where
  count : args.length = f.argCount.toNat
  result : ∀ l, f.localVar? 0 = some l →
    ∃ sort c, l.type.sort = .ok sort ∧ c.HasSort sort ∧ σ 0 = some c
  params : ∀ (k : Nat) c, args[k]? = some c →
    ∃ l sort, f.localVar? (k + 1) = some l ∧ l.type.sort = .ok sort ∧ c.HasSort sort ∧
      σ (k + 1) = some c
  others : ∀ i : Int, i < 0 ∨ args.length < i → σ i = none

/-- Where a terminator leads.  A call is followed or returns any value of the sort of its
destination; a call without a destination does not return, and neither does the outermost
function. -/
inductive Leaves (options : Options) (program : Program) (f : Function) (calls : List Call) :
    Terminator → Locals → State → Prop
  | goto {t : Int} {σ : Locals} : Leaves options program f calls (.goto t) σ ⟨f, t, σ, calls⟩
  | switch {x : Operand} {values targets : List Int} {span : Span} {σ σ' : Locals}
    {c : Constant} {i : Nat} {t : Int} :
    targets.length = values.length + 1 → operand σ x = some (c, σ') → switchTakes c values i →
      targets[i]? = some t →
      Leaves options program f calls (.switch x values targets span) σ ⟨f, t, σ', calls⟩
  | assert {x : Operand} {expected : Bool} {t : Int} {span : Span} {σ σ' : Locals} :
    operand σ x = some (.ofBool expected, σ') →
      Leaves options program f calls (.assert x expected t span) σ ⟨f, t, σ', calls⟩
  | havoc {callee : String} {args : List Operand} {dest : Place} {next : Int} {span : Span}
    {σ σ' : Locals} {cs : List Constant} {sort : ExprSort} {c : Constant} :
    operands σ args = some (cs, σ') → options.followed program calls.length callee = none →
      f.placeSort dest = .ok sort → c.HasSort sort →
      Leaves options program f calls (.call callee args (some dest) next span) σ
        ⟨f, next, σ'.set dest.base (some c), calls⟩
  | enter {callee : String} {args : List Operand} {dest : Place} {next : Int} {span : Span}
    {σ σ' τ : Locals} {cs : List Constant} {g : Function} :
    operands σ args = some (cs, σ') → options.followed program calls.length callee = some g →
      Enters g cs τ →
      Leaves options program f calls (.call callee args (some dest) next span) σ
        ⟨g, 0, τ, ⟨f, σ', dest, next⟩ :: calls⟩
  | result {call : Call} {rest : List Call} {σ : Locals} {c : Constant} :
    calls = call :: rest → σ 0 = some c → call.function.placeSort call.dest = .ok c.sort →
      Leaves options program f calls .return σ
        ⟨call.function, call.next, call.locals.set call.dest.base (some c), rest⟩

/-- Executing the block at which a run stands. -/
inductive Step (options : Options) (program : Program) (s : State) : State → Prop
  | mk {b : Block} {σ : Locals} {s' : State} :
    s.function.block? s.block = some b → ExecAll s.function b.statements s.locals σ →
      Leaves options program s.function s.calls b.terminator σ s' → Step options program s s'

/-- A run of a function on arguments went through some places in order, and now stands at the
next one. -/
inductive Visits (options : Options) (program : Program) (f : Function) (args : List Constant) :
    List (Location × Nat) → State → Prop
  | start {σ : Locals} : Enters f args σ → Visits options program f args [] ⟨f, 0, σ, []⟩
  | step {ls : List (Location × Nat)} {s s' : State} :
    Visits options program f args ls s → Step options program s s' →
      Visits options program f args (ls ++ [s.place]) s'

end Scalar
end NullPath
