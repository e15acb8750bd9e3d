import NullPath.Action
import NullPath.Assoc
import NullPath.Cfg.Typing
import NullPath.Ssa.Basic

/-!
# From single-assignment form to control-flow graphs

Every register becomes a local of its own, after the result slot and the parameters.  The blocks
keep their numbers; further blocks follow them where a call ends a block in the middle, or where
phi nodes are assigned on an edge.  The phi nodes of a block are assigned by its predecessors,
through temporaries, so that all of them see the values from before the edge.

* `Ssa.Function.operand`: the operand that reads a value.
* `Ssa.Builder`: the locals and blocks written so far.
* `Ssa.Function.lower`: the control-flow graph of a function.
-/

namespace NullPath.Ssa

namespace Function

/-- The local that holds a value.  The result slot comes first, then the parameters, then the
registers. -/
def slot? (f : Function) : Value → Option Nat
  | .register n => (f.registers.findIdx? fun r => r.number == n).map (· + f.params.length + 1)
  | .parameter i => if i < f.params.length then some (i + 1) else none
  | .global _ _ => none
  | .const _ _ => none

/-- The error for a value that no local holds. -/
def noSlot (f : Function) (v : Value) : Error :=
  let kind := match v with
    | .register _ => "register"
    | .parameter _ => "parameter"
    | .global _ _ => "*ssa.Global"
    | .const _ _ => "*ssa.Const"
  .unsupported "value" s!"{kind}: {f.valueText v}"

/-- The local that holds a value. -/
def slot (f : Function) (v : Value) : Except Error Nat :=
  match f.slot? v with
  | some i => .ok i
  | none => .error (f.noSlot v)

/-- Whether a number fits into 64 bits with sign. -/
def fitsWord (v : Int) : Bool :=
  -0x8000000000000000 ≤ v && v < 0x8000000000000000

/-- The operand for a constant. -/
def constOperand (c : Literal) (t : GoType) : Except Error Operand :=
  match t.lower.sort with
  | .error e => .error e
  | .ok sort =>
    match c with
    | .zero => .ok (.const 0 t.lower)
    | .bool b =>
      if sort = .bool then .ok (.const (if b then 1 else 0) t.lower)
      else .error (.unsupported "constant" (c.text t))
    | .int v =>
      if sort = .int then
        if fitsWord v then .ok (.const v t.lower)
        else .error (.unsupported "constant" s!"{v} overflows int64")
      else .error (.unsupported "constant" (c.text t))
    | .float _ => .error (.unsupported "constant" (c.text t))

/-- The operand that reads a value. -/
def operand (f : Function) (v : Value) : Except Error Operand :=
  match v with
  | .const c t => constOperand c t
  | v =>
    match f.slot v with
    | .error e => .error e
    | .ok i =>
      match ((f.valueType? v).map GoType.lower).getD .untyped |>.sort with
      | .error e => .error e
      | .ok _ => .ok (.copy ⟨i, 0⟩)

/-- The operands that read values. -/
def operands (f : Function) : List Value → Except Error (List Operand)
  | [] => .ok []
  | v :: vs =>
    match f.operand v with
    | .error e => .error e
    | .ok x =>
      match f.operands vs with
      | .error e => .error e
      | .ok xs => .ok (x :: xs)

end Function

/-- The operators that have a counterpart. -/
def binaryOperator? : String → Option SourceBinOp
  | "+" => some .add
  | "-" => some .sub
  | "*" => some .mul
  | "/" => some .div
  | "%" => some .rem
  | "&" => some .bitAnd
  | "|" => some .bitOr
  | "^" => some .bitXor
  | "<<" => some .shl
  | ">>" => some .shr
  | "==" => some .eq
  | "!=" => some .ne
  | "<" => some .lt
  | "<=" => some .le
  | ">" => some .gt
  | ">=" => some .ge
  | _ => none

/-- The locals and blocks written so far, and the block that is being filled. -/
structure Builder where
  locals : List LocalVar
  blocks : List NullPath.Block
  current : Nat := 0

namespace Builder

/-- A block to be filled. -/
def emptyBlock : NullPath.Block :=
  ⟨[], .missing⟩

/-- Appends a statement to the block that is being filled. -/
def emit (s : Statement) : Action Builder Unit :=
  .modify fun b => { b with
    blocks := b.blocks.modify b.current fun blk =>
      { blk with statements := blk.statements ++ [s] } }

/-- Ends the block that is being filled. -/
def terminate (t : Terminator) : Action Builder Unit :=
  .modify fun b => { b with
    blocks := b.blocks.modify b.current fun blk => { blk with terminator := t } }

/-- Goes on with another block. -/
def moveTo (block : Nat) : Action Builder Unit :=
  .modify fun b => { b with current := block }

/-- A new local. -/
def newLocal (l : LocalVar) : Action Builder Nat :=
  fun b => (.ok b.locals.length, { b with locals := b.locals ++ [l] })

/-- A new block. -/
def newBlock : Action Builder Nat :=
  fun b => (.ok b.blocks.length, { b with blocks := b.blocks ++ [emptyBlock] })

end Builder

open Builder

namespace Function

/-- The local of a register. -/
def registerSlot (f : Function) (r : Register) : Nat :=
  (f.slot? (.register r.number)).getD 0

/-- Assigns to the local of a register. -/
def assign (f : Function) (r : Register) (value : Rvalue) : Action Builder Unit := do
  let _ ← Action.lift r.type.lower.sort
  emit (.assign ⟨f.registerSlot r, 0⟩ value r.span)

/-- Gives a new storage instance to a new local and assigns its address.  Values with a sort start
at zero. -/
def lowerAlloc (f : Function) (r : Register) (comment : String) : Action Builder Unit := do
  match r.type with
  | .pointer elem =>
    let slot ← newLocal ⟨comment, elem.lower⟩
    emit (.storageLive slot)
    if elem.lower.sort.isOk then
      emit (.assign ⟨slot, 0⟩ (.use (.const 0 elem.lower)) r.span)
    emit (.assign ⟨f.registerSlot r, 0⟩ (.ref ⟨slot, 0⟩) r.span)
  | _ => Action.fault .missingData

/-- Assigns the value of a unary operator.  A load is one. -/
def lowerUnary (f : Function) (r : Register) (op : String) (x : Value) (commaOk : Bool) :
    Action Builder Unit := do
  if commaOk then Action.error (.unsupported "unary operation" s!"{op} with comma-ok")
  else
    match op with
    | "*" =>
      let address ← Action.lift (f.slot x)
      f.assign r (.use (.copy ⟨address, 1⟩))
    | "!" => f.assign r (.unary .not (← Action.lift (f.operand x)))
    | "-" => f.assign r (.unary .neg (← Action.lift (f.operand x)))
    | op => Action.error (.unsupported "unary operation" op)

/-- The name and the arguments of a call.  A call with an argument that has no operand keeps none
of them.  Such a call, and one whose target is not known, goes by its text. -/
def callParts (f : Function) (callee : Callee) (args : List Value) : String × List Operand :=
  match f.operands args with
  | .error _ => (f.callText callee args, [])
  | .ok xs =>
    match callee with
    | .static name => (if name = "" then f.callText callee args else name, xs)
    | _ => (f.callText callee args, xs)

/-- Ends the block with a call and goes on in a new one.  A result without a sort goes to a local
that nothing reads. -/
def lowerCall (f : Function) (r : Register) (callee : Callee) (args : List Value) :
    Action Builder Unit := do
  let (name, xs) := f.callParts callee args
  let dest ← if r.type.lower.sort.isOk then pure (f.registerSlot r)
    else newLocal ⟨"", .integer⟩
  let next ← newBlock
  terminate (.call name xs (some ⟨dest, 0⟩) next r.span)
  moveTo next

/-- The position of a block among the predecessors of another. -/
def predIndex (f : Function) (pred block : Nat) : Except Fault Nat :=
  match f.blocks[block]? with
  | none => .error .missingData
  | some b =>
    match b.preds.findIdx? (· == pred) with
    | some i => .ok i
    | none => .error (.notPredecessor pred block)

/-- The value that a phi node of a block takes from a predecessor. -/
def incomingValue (f : Function) (pred block : Nat) (edges : List Value) : Except Fault Value :=
  match f.predIndex pred block with
  | .error e => .error e
  | .ok i =>
    match edges[i]? with
    | none => .error .missingData
    | some v => .ok v

/-- The phi nodes of a block, each with the value that it takes from a predecessor. -/
def incoming (f : Function) (pred block : Nat) :
    List (Register × List Value) → Except Fault (List (Register × Value))
  | [] => .ok []
  | (r, edges) :: rest =>
    match f.incomingValue pred block edges with
    | .error e => .error e
    | .ok v =>
      match f.incoming pred block rest with
      | .error e => .error e
      | .ok more => .ok ((r, v) :: more)

/-- The phi nodes of a block with that number. -/
def phisAt (f : Function) (block : Nat) : List (Register × List Value) :=
  (f.blocks[block]?.map Block.phis).getD []

/-- Checks that phi nodes and the values that they take can be represented. -/
def checkPhis (f : Function) (pred block : Nat) :
    List (Register × List Value) → Action Builder Unit
  | [] => return
  | (r, edges) :: rest => do
    let v ← Action.liftFault (f.incomingValue pred block edges)
    let _ ← Action.lift (f.operand v)
    let _ ← Action.lift r.type.lower.sort
    f.checkPhis pred block rest

/-- Checks the phi nodes of all successors of a block. -/
def checkSuccessors (f : Function) (pred : Nat) : List Nat → Action Builder Unit
  | [] => return
  | block :: rest => do
    f.checkPhis pred block (f.phisAt block)
    f.checkSuccessors pred rest

/-- Copies incoming values to temporaries. -/
def copyIn (f : Function) : List (Register × Value) → Action Builder (List (Register × Nat))
  | [] => return []
  | (r, v) :: rest => do
    let temporary ← newLocal ⟨"", r.type.lower⟩
    let x := match f.operand v with
      | .ok x => x
      | .error _ => .missing
    emit (.assign ⟨temporary, 0⟩ (.use x) {})
    return (r, temporary) :: (← f.copyIn rest)

/-- Copies temporaries to the locals of phi nodes. -/
def copyOut (f : Function) : List (Register × Nat) → Action Builder Unit
  | [] => return
  | (r, temporary) :: rest => do
    emit (.assign ⟨f.registerSlot r, 0⟩ (.use (.copy ⟨temporary, 0⟩)) {})
    f.copyOut rest

/-- Assigns the phi nodes of a block as control comes from a predecessor. -/
def copyPhis (f : Function) (pred block : Nat) : Action Builder Unit := do
  let _ ← Action.liftFault (f.predIndex pred block)
  let values ← Action.liftFault (f.incoming pred block (f.phisAt block))
  f.copyOut (← f.copyIn values)

/-- The block to go to for a successor.  If control can go elsewhere too, the phi nodes of the
successor are assigned in a block on the edge. -/
def edgeTarget (f : Function) (pred : Nat) (b : Block) (i : Nat) : Action Builder Nat := do
  match b.succs[i]? with
  | none => Action.fault .missingData
  | some block =>
    if b.succs.length == 1 || (f.phisAt block).isEmpty then return block
    else
      let saved := (← Action.get).current
      let edge ← newBlock
      moveTo edge
      f.copyPhis pred block
      terminate (.goto block)
      moveTo saved
      return edge

/-- Checks the phi nodes of the successors, and assigns them if there is only one successor. -/
def emitPhiCopies (f : Function) (pred : Nat) (b : Block) : Action Builder Unit := do
  f.checkSuccessors pred b.succs
  match b.succs with
  | [block] => f.copyPhis pred block
  | _ => return

/-- Writes one instruction of a block. -/
def lowerInstr (f : Function) (index : Nat) (b : Block) : Instr → Action Builder Unit
  | .debug | .runDefers | .phi _ _ => return
  | .alloc r comment => f.lowerAlloc r comment
  | .binary r op x y => do
    match binaryOperator? op with
    | none => Action.error (.unsupported "binary operation" op)
    | some o =>
      let x ← Action.lift (f.operand x)
      let y ← Action.lift (f.operand y)
      f.assign r (.binary o x y)
  | .unary r op x commaOk => f.lowerUnary r op x commaOk
  | .convert r x | .changeType r x => do
    f.assign r (.cast (← Action.lift (f.operand x)) r.type.lower)
  | .store address value span => do
    let x ← Action.lift (f.operand value)
    let slot ← Action.lift (f.slot address)
    emit (.assign ⟨slot, 1⟩ (.use x) span)
  | .call r callee args => f.lowerCall r callee args
  | .branch condition => do
    let x ← Action.lift (f.operand condition)
    f.emitPhiCopies index b
    let otherwise ← f.edgeTarget index b 1
    let taken ← f.edgeTarget index b 0
    terminate (.switch x [0] [otherwise, taken] {})
  | .jump => do
    f.emitPhiCopies index b
    terminate (.goto (← f.edgeTarget index b 0))
  | .return [result] span => do
    emit (.assign ⟨0, 0⟩ (.use (← Action.lift (f.operand result))) span)
    terminate .return
  | .return _ _ => terminate .return
  | .panic _ => terminate .unreachable
  | .send channel value _ =>
    Action.error (.unsupported "instruction"
      s!"*ssa.Send: send {f.valueText channel} <- {f.valueText value}")
  | .slice _ x =>
    Action.error (.unsupported "instruction" s!"*ssa.Slice: slice {f.valueText x}[:]")

/-- Writes instructions of a block. -/
def lowerInstrs (f : Function) (index : Nat) (b : Block) : List Instr → Action Builder Unit
  | [] => return
  | i :: rest => do
    Action.within i.span.text (f.lowerInstr index b i)
    f.lowerInstrs index b rest

/-- Writes blocks, from a number on. -/
def lowerBlocks (f : Function) : Nat → List Block → Action Builder Unit
  | _, [] => return
  | index, b :: rest => do
    moveTo index
    f.lowerInstrs index b b.instrs
    f.lowerBlocks (index + 1) rest

/-- The type of the result slot.  Only a single result is tracked. -/
def resultType (f : Function) : Ty :=
  match f.results with
  | [t] => t.lower
  | ts => .other (GoType.tuple ts).text

/-- The locals and blocks before any instruction has been written. -/
def builder (f : Function) : Builder where
  locals := ⟨"", f.resultType⟩ ::
    f.params.map (fun p => ⟨p.name, p.type.lower⟩) ++
    f.registers.map (fun r => ⟨r.name, r.type.lower⟩)
  blocks := f.blocks.map fun _ => emptyBlock

/-- The control-flow graph of a function. -/
def lower (f : Function) : Except Failure NullPath.Function :=
  if f.freeVars > 0 then
    .error (.error (.unsupported "closure" s!"{f.freeVars} free variables"))
  else if f.blocks.isEmpty then .error (.error (.unsupported "function" "no body"))
  else
    match f.lowerBlocks 0 f.blocks f.builder with
    | (.error e, _) => .error e
    | (.ok (), b) => .ok ⟨f.name, f.span, b.locals, f.params.length, b.blocks⟩

end Function

end NullPath.Ssa
