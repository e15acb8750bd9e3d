import NullPath.Proofs.LoweredRuns

/-!
# The shape of lowered code

Writing the control-flow graph of a function, locals and blocks are added while others are still
being filled.  At the end everything that is mentioned exists, and every local that was added serves
a single purpose.

* `Ssa.Function.Shapes`: the shape of a control-flow graph that represents a function.
* `Ssa.Function.shapes_of_lower`: lowered code has this shape.
-/

namespace NullPath.Ssa.Function

variable {f : Function} {g : NullPath.Function}

/-- The shape of a control-flow graph that represents a function.  All blocks have terminators, and
what they mention exists.  The first locals are the result slot, the parameters and the registers, in
this order.  The first blocks begin with the code of the blocks of the function.  Each of the other
locals is taken at one point of the code: as a temporary that is copied to the local of a phi node,
as the storage whose address an allocation gives to its register, or as the destination of a call. -/
structure Shapes (f : Function) (g : NullPath.Function) : Prop where
  terminated : ∀ blk ∈ g.blocks, blk.terminator ≠ .missing
  targets : ∀ blk ∈ g.blocks, ∀ k ∈ blk.terminator.targets, ∃ blk', g.block? k = some blk'
  switches : ∀ blk ∈ g.blocks, ∀ x values targets span,
    blk.terminator = .switch x values targets span → targets.length = values.length + 1
  statements : ∀ blk ∈ g.blocks, ∀ st ∈ blk.statements, ∀ i ∈ st.locals, ∃ l, g.localVar? i = some l
  places : ∀ blk ∈ g.blocks, ∀ p ∈ blk.terminator.places, ∃ l, g.localVar? p.base = some l
  result : g.locals[0]? = some ⟨"", f.resultType⟩
  argCount : g.argCount = f.params.length
  params : ∀ j p, f.params[j]? = some p → f.slot? (.parameter j) = some (j + 1) ∧
    g.locals[j + 1]? = some ⟨p.name, p.type.lower⟩
  registers : ∀ r ∈ f.registers, ∃ i t, f.slot? (.register r.number) = some i ∧
    g.locals[i]? = some ⟨r.name, t⟩
  apart : ∀ v v' i, f.slot? v = some i → f.slot? v' = some i → v = v'
  heads : ∀ k b, f.blocks[k]? = some b → ∃ sts t, g.blocks[k]? = some ⟨sts, t⟩ ∧
    f.Codes g.locals g.blocks k b b.instrs sts t
  taken : (g.blocks.flatMap (Block.taken f.fixed)).Perm
    (List.range' f.fixed (g.locals.length - f.fixed))

theorem exists_nth? {α : Type} {xs : List α} {i : Int} (h : Below xs.length i) :
    ∃ x, nth? xs i = some x := by
  obtain ⟨k, rfl⟩ := Int.eq_ofNat_of_zero_le h.1
  have hlt : k < xs.length := Int.ofNat_lt.mp h.2
  exact ⟨xs[k], by simp [nth?, hlt]⟩

theorem slot?_inj {v v' : Value} {i : Nat} (h : f.slot? v = some i) (h' : f.slot? v' = some i) :
    v = v' := by
  cases v with
  | register n =>
    cases v' with
    | register m => rw [slot?_register_inj h h']
    | parameter j =>
      obtain ⟨j', r, hr, -, rfl⟩ := slot?_register h
      obtain ⟨hlt, heq⟩ := slot?_parameter h'
      omega
    | global | const => cases h'
  | parameter j =>
    obtain ⟨hlt, rfl⟩ := slot?_parameter h
    cases v' with
    | register m =>
      obtain ⟨j', r, hr, -, heq⟩ := slot?_register h'
      omega
    | parameter j' =>
      obtain ⟨-, heq⟩ := slot?_parameter h'
      rw [Nat.succ.inj heq]
    | global | const => cases h'
  | global | const => cases h

/-- Lowering gives well-formed code.  It is only assumed that every block ends with the one
instruction that leaves it, which has as many successors as it needs, and that these exist. -/
theorem shapes_of_lower (h : f.lower = .ok g) (hends : ∀ b ∈ f.blocks, Ends b b.instrs)
    (hinside : ∀ b ∈ f.blocks, ∀ s ∈ b.succs, s < f.blocks.length) : f.Shapes g := by
  have hg := coded_of_lower h hends hinside
  have hlocal : ∀ {i : Nat} {l}, f.builder.locals[i]? = some l → g.locals[i]? = some l :=
    fun hl => getElem?_of_extends hl hg.locals
  refine ⟨hg.ended, fun blk hblk k hk => exists_nth? ((hg.fits blk hblk).terminator.targets k hk),
    fun blk hblk => (hg.fits blk hblk).terminator.arity,
    fun blk hblk st hst i hi => exists_nth? ((hg.fits blk hblk).locals st hst i hi),
    fun blk hblk p hp => exists_nth? ((hg.fits blk hblk).terminator.places p hp), hlocal rfl,
    hg.argCount, fun j p hp => ?_, fun r hr => ?_, fun v v' i => slot?_inj, hg.blocks, hg.taken⟩
  · obtain ⟨hlt, rfl⟩ := List.getElem?_eq_some_iff.mp hp
    exact ⟨if_pos hlt, hlocal (by simp [builder, List.getElem?_append_left, hlt])⟩
  · obtain ⟨j, r', hr', hnumber, hi⟩ := slot?_register (exists_slot hr)
    refine ⟨_, r'.type.lower, exists_slot hr, hlocal ?_⟩
    have hlen : (f.params.map fun p => (⟨p.name, p.type.lower⟩ : LocalVar)).length ≤
        j + f.params.length := by simp
    rw [hi, builder, List.cons_append, List.getElem?_cons_succ, List.getElem?_append_right hlen]
    simp [hr', Register.name, hnumber]

/-- A loop with two phi nodes and a call. -/
theorem shapes_swapLoop : swapLoop.lower = .ok swapLoop.code ∧ swapLoop.Shapes swapLoop.code :=
  ⟨lower_swapLoop, shapes_of_lower lower_swapLoop wellFormed_swapLoop.ends
    wellFormed_swapLoop.inside⟩

end NullPath.Ssa.Function
