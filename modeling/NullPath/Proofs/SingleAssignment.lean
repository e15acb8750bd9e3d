import Mathlib.Data.Set.Basic
import NullPath.Proofs.Actions
import NullPath.Ssa.Lower

/-!
# Well-formed single-assignment form

Every block ends in one instruction that leaves it and has distinct predecessors, phi nodes come
first, no register is defined twice, and definitions dominate uses: on every path from the entry to
a use the register has been defined.  A phi node uses its values at the ends of the predecessors,
and is itself defined on the way into its block.

* `Ssa.Function.WellFormed`: well-formed functions.
* `Ssa.Function.slot?_register`, `Ssa.Function.operand_eq_ok`: where values are kept.
-/

namespace NullPath.Ssa

/-! ## Definitions and uses -/

/-- The values that a call needs to find its target. -/
def Callee.uses : Callee → List Value
  | .method receiver _ => [receiver]
  | _ => []

/-- The values that an instruction computes with where it stands. -/
def Instr.uses : Instr → List Value
  | .binary _ _ x y => [x, y]
  | .unary _ _ x _ | .convert _ x | .changeType _ x | .slice _ x | .branch x => [x]
  | .call _ callee args => callee.uses ++ args
  | .store x y _ | .send x y _ => [x, y]
  | .return results _ => results
  | _ => []

/-- The register that is defined where the instruction stands. -/
def Instr.defines? : Instr → Option Register
  | .phi _ _ => none
  | i => i.result?

/-- The registers that are defined by instructions in a row. -/
def definedBy (instrs : List Instr) : Set Nat :=
  {n | ∃ i ∈ instrs, ∃ r, i.defines? = some r ∧ r.number = n}

/-- The registers that are defined on the way into a block. -/
def Block.joins (b : Block) : Set Nat :=
  {n | ∃ r edges, .phi r edges ∈ b.instrs ∧ r.number = n}

/-- A phi node of the block with some edges takes the value when control comes from a block. -/
def Block.Takes (b : Block) (pred : Nat) (edges : List Value) (v : Value) : Prop :=
  ∃ j : Nat, b.preds[j]? = some pred ∧ edges[j]? = some v

/-- A phi node takes one value on an edge. -/
theorem Block.Takes.unique {b : Block} {pred : Nat} {edges : List Value} {v v' : Value}
    (h : b.Takes pred edges v) (h' : b.Takes pred edges v') (hpreds : b.preds.Nodup) : v = v' := by
  obtain ⟨j, hp, hv⟩ := h
  obtain ⟨j', hp', hv'⟩ := h'
  have hlt := lt_length_of_getElem? hp
  obtain rfl := (List.getElem?_inj hlt hpreds).mp (hp.trans hp'.symm)
  exact Option.mem_unique hv hv'

/-- The name of a function that is known by its name. -/
def Callee.name? : Callee → Option String
  | .static name => some name
  | _ => none

/-- The target and the arguments of a call. -/
def Instr.call? : Instr → Option (Callee × List Value)
  | .call _ callee args => some (callee, args)
  | _ => none

/-- Whether an instruction leaves its block. -/
def Instr.isExit : Instr → Bool
  | .branch _ | .jump | .return _ _ | .panic _ => true
  | _ => false

theorem definedBy_append (instrs instrs' : List Instr) :
    definedBy (instrs ++ instrs') = definedBy instrs ∪ definedBy instrs' := by
  ext n
  simp [definedBy, or_and_right, exists_or]

theorem definedBy_singleton {i : Instr} {r : Register} (h : i.defines? = some r) :
    definedBy [i] = {r.number} := by
  ext n
  simp [definedBy, h, eq_comm]

namespace Function

variable {f : Function} {b : Block} {rest : List Instr} {r : Register} {i : Nat} {v : Value}

/-- The targets and the arguments of the calls of a function. -/
def calls (f : Function) : List (Callee × List Value) :=
  f.blocks.flatMap fun b => b.instrs.filterMap Instr.call?

/-- A path from the entry leads to the block, and some registers have been defined on it. -/
inductive Arrives (f : Function) : Nat → Set Nat → Prop
  | entry : Arrives f 0 ∅
  | edge {k s : Nat} {D : Set Nat} {b b' : Block} : Arrives f k D → f.blocks[k]? = some b →
    s ∈ b.succs → f.blocks[s]? = some b' → Arrives f s (D ∪ definedBy b.instrs ∪ b'.joins)

/-- The instruction leaves its block, whose successors fit. -/
def Exits (f : Function) (b : Block) : Instr → Prop
  | .branch _ => ∃ s t, b.succs = [s, t] ∧ s ≠ t
  | .jump => ∃ s, b.succs = [s]
  | .return results _ => b.succs = [] ∧ results.length = f.results.length
  | .panic _ => b.succs = []
  | _ => False

/-- The last instruction leaves the block, and no other one does. -/
def Closes (f : Function) (b : Block) (instrs : List Instr) : Prop :=
  ∃ init last, instrs = init ++ [last] ∧ (∀ i ∈ init, i.isExit = false) ∧ f.Exits b last

/-- What is required of a function in single-assignment form. -/
structure WellFormed (f : Function) : Prop where
  distinct : (f.registers.map Register.number).Nodup
  closed : ∀ b ∈ f.blocks, f.Closes b b.instrs
  inside : ∀ b ∈ f.blocks, ∀ s ∈ b.succs, s < f.blocks.length
  preds : ∀ b ∈ f.blocks, b.preds.Nodup
  leading : ∀ b ∈ f.blocks, ∀ r edges, .phi r edges ∈ b.instrs → (r, edges) ∈ b.phis
  uses : ∀ k D b, f.Arrives k D → f.blocks[k]? = some b → ∀ done i rest,
    b.instrs = done ++ i :: rest → ∀ n, Value.register n ∈ i.uses → n ∈ D ∪ definedBy done
  joins : ∀ k D b s b', f.Arrives k D → f.blocks[k]? = some b → s ∈ b.succs →
    f.blocks[s]? = some b' → ∀ r edges, .phi r edges ∈ b'.instrs → ∀ n,
    b'.Takes k edges (.register n) → n ∈ D ∪ definedBy b.instrs

/-- The instruction leaves its block, and there are as many successors as it needs. -/
def Leaves (b : Block) : Instr → Prop
  | .branch _ => b.succs.length = 2
  | .jump => b.succs.length = 1
  | .return _ _ | .panic _ => True
  | _ => False

/-- The last instruction leaves the block, and no other one does. -/
def Ends (b : Block) (instrs : List Instr) : Prop :=
  ∃ init last, instrs = init ++ [last] ∧ (∀ i ∈ init, i.isExit = false) ∧ Leaves b last

theorem Closes.ends {instrs : List Instr} (h : f.Closes b instrs) : Ends b instrs := by
  obtain ⟨init, last, heq, hinit, hlast⟩ := h
  refine ⟨init, last, heq, hinit, ?_⟩
  cases last with
  | branch c =>
    obtain ⟨s, t, hs, -⟩ := hlast
    exact congrArg List.length hs
  | jump =>
    obtain ⟨s, hs⟩ := hlast
    exact congrArg List.length hs
  | «return» | panic => trivial
  | _ => exact hlast.elim

theorem WellFormed.ends (hf : f.WellFormed) : ∀ b ∈ f.blocks, Ends b b.instrs :=
  fun b hb => (hf.closed b hb).ends

theorem Ends.cons {i : Instr} (h : Ends b (i :: rest)) :
    (rest = [] ∧ Leaves b i) ∨ (i.isExit = false ∧ Ends b rest) := by
  obtain ⟨init, last, heq, hinit, hlast⟩ := h
  cases init with
  | nil =>
    cases heq
    exact .inl ⟨rfl, hlast⟩
  | cons j init =>
    cases heq
    rw [List.forall_mem_cons] at hinit
    exact .inr ⟨hinit.1, init, last, rfl, hinit.2, hlast⟩

theorem not_ends_nil : ¬Ends b [] := by
  rintro ⟨init, last, heq, -, -⟩
  simp at heq

/-- A list of instructions that starts with an exit is that exit. -/
theorem Ends.eq_nil {i : Instr} (h : Ends b (i :: rest)) (hi : i.isExit = true) :
    rest = [] ∧ Leaves b i := by
  rcases h.cons with h | ⟨hnot, -⟩
  · exact h
  · rw [hi] at hnot
    cases hnot

theorem Ends.tail {i : Instr} (h : Ends b (i :: rest)) (hi : i.isExit = false) : Ends b rest := by
  rcases h.cons with ⟨-, hexit⟩ | ⟨-, h⟩
  · cases i <;> first | exact hexit.elim | cases hi
  · exact h

/-! ## Where values are kept -/

/-- The number of locals for the result, the parameters and the registers. -/
def fixed (f : Function) : Nat :=
  f.params.length + f.registers.length + 1

theorem length_locals_builder (f : Function) : f.builder.locals.length = f.fixed := by
  simp [builder, fixed]

theorem mem_registers {i : Instr} (hb : b ∈ f.blocks) (hi : i ∈ b.instrs)
    (hr : i.result? = some r) : r ∈ f.registers :=
  List.mem_flatMap.mpr ⟨b, hb, List.mem_filterMap.mpr ⟨i, hi, hr⟩⟩

theorem mem_calls {callee : Callee} {args : List Value} (hb : b ∈ f.blocks)
    (hi : .call r callee args ∈ b.instrs) : (callee, args) ∈ f.calls :=
  List.mem_flatMap.mpr ⟨b, hb, List.mem_filterMap.mpr ⟨_, hi, rfl⟩⟩

theorem result?_of_defines? {i : Instr} (h : i.defines? = some r) : i.result? = some r := by
  cases i <;> first | exact h | cases h

/-- The local of a register comes after the parameters. -/
theorem slot?_register {n : Nat} (h : f.slot? (.register n) = some i) :
    ∃ j r, f.registers[j]? = some r ∧ r.number = n ∧ i = j + f.params.length + 1 := by
  obtain ⟨j, hj, rfl⟩ := Option.map_eq_some_iff.mp h
  obtain ⟨hlt, hnum, -⟩ := List.findIdx?_eq_some_iff_getElem.mp hj
  exact ⟨j, f.registers[j], by simp, by simpa using hnum, rfl⟩

theorem slot?_parameter {j : Nat} (h : f.slot? (.parameter j) = some i) :
    j < f.params.length ∧ i = j + 1 := by
  by_cases hlt : j < f.params.length
  · rw [slot?, if_pos hlt, Option.some.injEq] at h
    exact ⟨hlt, h.symm⟩
  · simp [slot?, hlt] at h

theorem slot?_lt (h : f.slot? v = some i) : 0 < i ∧ i < f.fixed := by
  cases v with
  | register n =>
    obtain ⟨j, r, hr, -, rfl⟩ := slot?_register h
    have hlt := lt_length_of_getElem? hr
    unfold fixed
    omega
  | parameter j =>
    obtain ⟨hlt, rfl⟩ := slot?_parameter h
    unfold fixed
    omega
  | global | const => cases h

/-- Every register has a local. -/
theorem exists_slot (hr : r ∈ f.registers) :
    f.slot? (.register r.number) = some (f.registerSlot r) := by
  have hsome : (f.slot? (.register r.number)).isSome := by
    simpa [slot?] using ⟨r, hr, rfl⟩
  obtain ⟨i, hi⟩ := Option.isSome_iff_exists.mp hsome
  simp [registerSlot, hi]

theorem registerSlot_lt (hr : r ∈ f.registers) :
    0 < f.registerSlot r ∧ f.registerSlot r < f.fixed :=
  slot?_lt (exists_slot hr)

/-- Different registers have different locals. -/
theorem slot?_register_inj {n m : Nat} (hn : f.slot? (.register n) = some i)
    (hm : f.slot? (.register m) = some i) : n = m := by
  obtain ⟨j, r, hr, rfl, rfl⟩ := slot?_register hn
  obtain ⟨j', r', hr', rfl, heq⟩ := slot?_register hm
  obtain rfl : j = j' := by omega
  rw [Option.mem_unique hr hr']

theorem WellFormed.eq_of_number (hf : f.WellFormed) {r' : Register} (hr : r ∈ f.registers)
    (hr' : r' ∈ f.registers) (h : r.number = r'.number) : r = r' :=
  List.inj_on_of_nodup_map hf.distinct hr hr' h

theorem WellFormed.valueType?_register (hf : f.WellFormed) (hr : r ∈ f.registers) :
    f.valueType? (.register r.number) = some r.type := by
  show (f.registers.find? fun r' => r'.number == r.number).map Register.type = some r.type
  cases hfind : f.registers.find? fun r' => r'.number == r.number with
  | none =>
    have hnone := List.find?_eq_none.mp hfind r hr
    simp at hnone
  | some r' =>
    have hnum : r'.number = r.number := by simpa using List.find?_some hfind
    rw [hf.eq_of_number (List.mem_of_find?_eq_some hfind) hr hnum]
    rfl

/-- A value that is kept in a local is a register or a parameter. -/
theorem WellFormed.slot_cases (hf : f.WellFormed) (h : f.slot? v = some i) :
    (∃ r ∈ f.registers, v = .register r.number ∧ i = f.registerSlot r ∧
      f.valueType? v = some r.type) ∨ ∃ j < f.params.length, v = .parameter j ∧ i = j + 1 := by
  cases v with
  | register n =>
    obtain ⟨j, r, hr, rfl, -⟩ := slot?_register h
    have hmem := List.mem_of_getElem? hr
    have hi := Option.some.inj (h.symm.trans (exists_slot hmem))
    exact .inl ⟨r, hmem, rfl, hi, hf.valueType?_register hmem⟩
  | parameter j =>
    obtain ⟨hlt, hi⟩ := slot?_parameter h
    exact .inr ⟨j, hlt, rfl, hi⟩
  | global | const => cases h

theorem slot_eq_ok (h : f.slot v = .ok i) : f.slot? v = some i := by
  unfold slot at h
  split at h
  · next j hj =>
    rw [hj, Except.ok.inj h]
  · cases h

theorem constOperand_eq_ok {c : Literal} {t : GoType} {x : Operand}
    (h : constOperand c t = .ok x) :
    ∃ v, x = .const v t.lower := by
  unfold constOperand at h
  split at h
  · cases h
  · split at h
    · exact ⟨_, (Except.ok.inj h).symm⟩
    · split at h
      · exact ⟨_, (Except.ok.inj h).symm⟩
      · cases h
    · split at h
      · split at h
        · exact ⟨_, (Except.ok.inj h).symm⟩
        · cases h
      · cases h
    · cases h

/-- An operand is a literal, or it reads the local of its value, whose type has a sort. -/
theorem operand_eq_ok {x : Operand} (h : f.operand v = .ok x) :
    (∃ c t, v = .const c t ∧ constOperand c t = .ok x) ∨
      ∃ i t sort, f.slot? v = some i ∧ x = .copy ⟨i, 0⟩ ∧
        f.valueType? v = some t ∧ t.lower.sort = .ok sort := by
  by_cases hconst : ∃ c t, v = .const c t
  · obtain ⟨c, t, rfl⟩ := hconst
    exact .inl ⟨c, t, rfl, h⟩
  · refine .inr ?_
    unfold operand at h
    split at h
    · next c t => exact absurd ⟨c, t, rfl⟩ hconst
    · split at h
      · cases h
      · next i hi =>
        split at h
        · cases h
        · next sort hsort =>
          cases ht : f.valueType? v with
          | none =>
            rw [ht] at hsort
            cases hsort
          | some t =>
            rw [ht] at hsort
            exact ⟨i, t, sort, slot_eq_ok hi, (Except.ok.inj h).symm, rfl, hsort⟩

end Function

end NullPath.Ssa
