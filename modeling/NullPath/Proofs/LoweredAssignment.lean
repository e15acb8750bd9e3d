import NullPath.Proofs.AssignedFrames
import NullPath.Proofs.LoweredCode

/-!
# Lowered code assigns before it reads

Where a block of a well-formed function is reached, its registers are defined as single-assignment
form requires, and the locals of the registers have been assigned on the corresponding path of the
lowered function.  This is carried from block to block: through the statements of an instruction,
through the continuation after a call, and through the copies for phi nodes on an edge.

The results of calls are an exception.  One whose type has no sort goes to a local of its own, and
the local of the register is left as it is.  It cannot be an operand, but loads and stores go
through a register whatever its type is.

* `Ssa.Function.Strays`: the statements that read such a local.
* `Ssa.Function.Stands`: where a path of the lowered function stands in the original.
* `Ssa.Function.assignsFirst`: other lowered code assigns before it reads.
-/

namespace NullPath

theorem assignedBy_append (D : Set Int) (sts sts' : List Statement) :
    assignedBy D (sts ++ sts') = assignedBy (assignedBy D sts) sts' := by
  induction sts generalizing D with
  | nil => rfl
  | cons st sts ih => exact ih _

theorem readsInOrder_append {C : Statement → Prop} {g : Function} {D : Set Int}
    {sts sts' : List Statement} :
    ReadsInOrder C g D (sts ++ sts') ↔
      ReadsInOrder C g D sts ∧ ReadsInOrder C g (assignedBy D sts) sts' := by
  induction sts generalizing D with
  | nil => simp [ReadsInOrder, assignedBy]
  | cons st sts ih => simp [ReadsInOrder, assignedBy, ih, and_assoc]

theorem Function.has_of_lt {g : Function} {i : Nat} (h : i < g.locals.length) : g.Has i := by
  refine ⟨g.locals[i], ?_⟩
  simp [localVar?, nth?, h]

/-- The statement loads or stores through a local. -/
def Statement.Follows (i : Int) : Statement → Prop
  | .assign p rv _ => p = ⟨i, 1⟩ ∨ rv = .use (.copy ⟨i, 1⟩)
  | _ => False

namespace Ssa.Function

variable {f : Function} {g : NullPath.Function} {C : Statement → Prop} {D D' : Set Nat}
  {E E' : Set Int} {b : Block} {r : Register} {v : Value} {i : Nat} {x : Operand}
  {out : List Statement} {values : List (Register × Value)}

/-- The result of a call whose type has no sort. -/
def Untracked (f : Function) (r : Register) : Prop :=
  (∃ err, r.type.lower.sort = .error err) ∧
    ∃ b ∈ f.blocks, ∃ callee args, .call r callee args ∈ b.instrs

/-- The statement loads or stores through the local of an untracked result. -/
def Strays (f : Function) (st : Statement) : Prop :=
  ∃ r, f.Untracked r ∧ st.Follows (f.registerSlot r)

/-- The locals of the parameters, and those of defined registers that are tracked, have been
assigned. -/
structure Keeps (f : Function) (D : Set Nat) (E : Set Int) : Prop where
  params : ∀ j < f.params.length, ((j + 1 : Nat) : Int) ∈ E
  registers : ∀ r ∈ f.registers, r.number ∈ D → ¬f.Untracked r → (f.registerSlot r : Int) ∈ E

theorem Keeps.mono (h : f.Keeps D E) (hD : D' ⊆ D) (hE : E ⊆ E') : f.Keeps D' E' :=
  ⟨fun j hj => hE (h.params j hj), fun r hr hn hs => hE (h.registers r hr (hD hn) hs)⟩

/-- Assigning the local of a register defines it. -/
theorem Keeps.insert (h : f.Keeps D E) (hf : f.WellFormed) (hr : r ∈ f.registers)
    (hE : insert (f.registerSlot r : Int) E ⊆ E') : f.Keeps (D ∪ {r.number}) E' := by
  refine ⟨fun j hj => hE (.inr (h.params j hj)), fun r' hr' hn hs => hE ?_⟩
  rcases hn with hn | hn
  · exact .inr (h.registers r' hr' hn hs)
  · rw [hf.eq_of_number hr' hr hn]
    exact .inl rfl

/-- Ending the storage of a local that belongs to no register. -/
theorem Keeps.sdiff {a : Nat} (h : f.Keeps D E) (ha : f.fixed ≤ a) :
    f.Keeps D (E \ {(a : Int)}) := by
  refine ⟨fun j hj => ⟨h.params j hj, ?_⟩, fun r hr hn hs => ⟨h.registers r hr hn hs, ?_⟩⟩
  · unfold fixed at ha
    rw [Set.mem_singleton_iff]
    omega
  · have hlt := (registerSlot_lt hr).2
    rw [Set.mem_singleton_iff]
    omega

/-- The local of a defined value has been assigned, unless it is an untracked result. -/
theorem Keeps.slot (h : f.Keeps D E) (hf : f.WellFormed) (hi : f.slot? v = some i)
    (hv : ∀ n, v = .register n → n ∈ D) : (i : Int) ∈ E ∨
      ∃ r, f.Untracked r ∧ f.valueType? v = some r.type ∧ i = f.registerSlot r := by
  rcases hf.slot_cases hi with ⟨r, hr, rfl, rfl, htype⟩ | ⟨j, hj, rfl, rfl⟩
  · by_cases hu : f.Untracked r
    · exact .inr ⟨r, hu, htype, rfl⟩
    · exact .inl (h.registers r hr (hv _ rfl) hu)
  · exact .inl (h.params j hj)

theorem Keeps.operand {C : Prop} (h : f.Keeps D E) (hf : f.WellFormed) (hx : f.operand v = .ok x)
    (hv : ∀ n, v = .register n → n ∈ D) : x.ReadsFrom C g E := by
  rcases operand_eq_ok hx with ⟨c, t, -, hc⟩ | ⟨i, t, sort, hi, rfl, ht, hsort⟩
  · obtain ⟨w, rfl⟩ := constOperand_eq_ok hc
    trivial
  · refine .inl ((h.slot hf hi hv).resolve_right ?_)
    -- operands have sorts
    rintro ⟨r, ⟨⟨err, herr⟩, -⟩, htype, -⟩
    obtain rfl := Option.mem_unique htype ht
    cases herr.symm.trans hsort

/-! ## Instructions -/

theorem Coded.has_of_lt (hg : f.Coded g) (h : i < f.fixed) : g.Has i := by
  refine NullPath.Function.has_of_lt (h.trans_le ?_)
  rw [← length_locals_builder]
  exact hg.locals.length_le

theorem Coded.has_register (hg : f.Coded g) (hr : r ∈ f.registers) : g.Has (f.registerSlot r) :=
  hg.has_of_lt (registerSlot_lt hr).2

theorem has_of_getElem? {l : LocalVar} (h : g.locals[i]? = some l) : g.Has i :=
  NullPath.Function.has_of_lt (lt_length_of_getElem? h)

/-- An instruction that assigns to the local of its register. -/
theorem Keeps.assigns (h : f.Keeps D E) (hf : f.WellFormed) (hg : f.Coded g) {i : Instr}
    {rv : Rvalue} (hr : r ∈ f.registers) (hi : i.defines? = some r)
    (hrv : rv.ReadsFrom (C (.assign ⟨f.registerSlot r, 0⟩ rv r.span)) g E) :
    ReadsInOrder C g E [.assign ⟨f.registerSlot r, 0⟩ rv r.span] ∧
      f.Keeps (D ∪ definedBy [i]) (assignedBy E [.assign ⟨f.registerSlot r, 0⟩ rv r.span]) := by
  refine ⟨⟨⟨.of_has (hg.has_register hr), hrv⟩, trivial⟩, ?_⟩
  rw [definedBy_singleton hi]
  exact h.insert hf hr subset_rfl

/-- The statements of an instruction read what has been assigned unless they stray, and assign the
local of the register that the instruction defines. -/
theorem Emits.reads {i : Instr} (h : f.Emits g.locals i out) (hf : f.WellFormed) (hg : f.Coded g)
    (hb : b ∈ f.blocks) (hi : i ∈ b.instrs) (hkeeps : f.Keeps D E)
    (huses : ∀ n, Value.register n ∈ i.uses → n ∈ D) (hC : ∀ st, f.Strays st → C st) :
    ReadsInOrder C g E out ∧ f.Keeps (D ∪ definedBy [i]) (assignedBy E out) := by
  have hmem : ∀ r, i.defines? = some r → r ∈ f.registers :=
    fun r hr => mem_registers hb hi (result?_of_defines? hr)
  have hoperand : ∀ {C v x}, v ∈ i.uses → f.operand v = .ok x → x.ReadsFrom C g E := fun hv hx =>
    hkeeps.operand hf hx fun n hn => huses n (hn ▸ hv)
  have hpointer : ∀ {v a st}, v ∈ i.uses → f.slot? v = some a → st.Follows a →
      (a : Int) ∈ E ∨ C st := by
    intro v a st hv ha hfollows
    refine (hkeeps.slot hf ha fun n hn => huses n (hn ▸ hv)).imp_right ?_
    rintro ⟨r, hr, -, rfl⟩
    exact hC st ⟨r, hr, hfollows⟩
  cases h with
  | silent hsilent =>
    refine ⟨trivial, hkeeps.mono ?_ subset_rfl⟩
    rcases hsilent with rfl | rfl | ⟨r, edges, rfl⟩ <;> simp [definedBy, Instr.defines?, Instr.result?]
  | binary ho hx hy hsort =>
    exact hkeeps.assigns hf hg (hmem _ rfl) rfl
      ⟨hoperand (by simp [Instr.uses]) hx, hoperand (by simp [Instr.uses]) hy⟩
  | unary ho hx hsort =>
    exact hkeeps.assigns hf hg (hmem _ rfl) rfl (hoperand (by simp [Instr.uses]) hx)
  | load ha hsort =>
    refine hkeeps.assigns hf hg (hmem _ rfl) rfl (Or.imp_right (fun hC => ⟨hC, ?_⟩)
      (hpointer (by simp [Instr.uses]) ha (Or.inr rfl)))
    exact hg.has_of_lt (slot?_lt ha).2
  | cast hcast hx hsort =>
    rcases hcast with rfl | rfl <;>
      exact hkeeps.assigns hf hg (hmem _ rfl) rfl (hoperand (by simp [Instr.uses]) hx)
  | store hx ha =>
    refine ⟨⟨⟨⟨hg.has_of_lt (slot?_lt ha).2, fun _ => ?_⟩, ?_⟩, trivial⟩, hkeeps.mono ?_ ?_⟩
    · exact hpointer (by simp [Instr.uses]) ha (Or.inl rfl)
    · exact hoperand (by simp [Instr.uses]) hx
    · simp [definedBy, Instr.defines?, Instr.result?]
    · exact subset_rfl
  | @alloc r comment elem a init hr hfix ha hinit =>
    have hhas := has_of_getElem? ha
    have hreg := hmem r rfl
    rw [definedBy_singleton rfl]
    have hkept := hkeeps.sdiff hfix
    have hset : ∀ C E', Place.Settable C g E' ⟨f.registerSlot r, 0⟩ ∧
        Place.Settable C g E' ⟨a, 0⟩ :=
      fun C E' => ⟨.of_has (hg.has_register hreg), .of_has hhas⟩
    rcases hinit with rfl | rfl
    · exact ⟨⟨hhas, hset _ _, trivial⟩, hkept.insert hf hreg subset_rfl⟩
    · refine ⟨⟨hhas, ⟨(hset _ _).2, trivial⟩, hset _ _, trivial⟩, ?_⟩
      exact hkept.insert hf hreg (Set.insert_subset_insert (Set.subset_insert _ _))

/-! ## Phi nodes -/

/-- Copies to temporaries assign these. -/
theorem CopiesIn.reads {t : Nat} {sts : List Statement} (h : f.CopiesIn g.locals t values sts)
    (hf : f.WellFormed) (hkeeps : f.Keeps D E)
    (huses : ∀ rv ∈ values, ∀ n, rv.2 = .register n → n ∈ D) :
    ReadsInOrder C g E sts ∧ E ⊆ assignedBy E sts ∧
      ∀ j < values.length, ((t + j : Nat) : Int) ∈ assignedBy E sts := by
  induction h generalizing E with
  | nil => exact ⟨trivial, subset_rfl, by simp⟩
  | @cons t r v x rest sts hx ht _ ih =>
    rw [List.forall_mem_cons] at huses
    have hsub : E ⊆ insert (t : Int) E := Set.subset_insert _ _
    obtain ⟨hreads, hkept, htemps⟩ := ih (hkeeps.mono (Set.Subset.refl D) hsub) huses.2
    refine ⟨⟨⟨.of_has (has_of_getElem? ht), hkeeps.operand hf hx huses.1⟩, hreads⟩,
      hsub.trans hkept, fun j hj => ?_⟩
    cases j with
    | zero => exact hkept (.inl rfl)
    | succ j =>
      have hj' := htemps j (by simpa using hj)
      rwa [Nat.add_right_comm] at hj'

/-- Copies from temporaries assign the locals of the registers. -/
theorem copiesOut_reads (hg : f.Coded g) {t : Nat} (hregs : ∀ rv ∈ values, rv.1 ∈ f.registers)
    (htemps : ∀ j < values.length, ((t + j : Nat) : Int) ∈ E) :
    ReadsInOrder C g E (f.copiesOut t values) ∧ E ⊆ assignedBy E (f.copiesOut t values) ∧
      ∀ rv ∈ values, (f.registerSlot rv.1 : Int) ∈ assignedBy E (f.copiesOut t values) := by
  induction values generalizing t E with
  | nil => exact ⟨trivial, subset_rfl, by simp⟩
  | cons rv values ih =>
    obtain ⟨r, v⟩ := rv
    rw [List.forall_mem_cons] at hregs
    have hsub : E ⊆ insert (f.registerSlot r : Int) E := Set.subset_insert _ _
    have htemps' : ∀ j < values.length, ((t + 1 + j : Nat) : Int) ∈ insert (f.registerSlot r : Int) E := by
      intro j hj
      rw [Nat.add_right_comm]
      exact hsub (htemps (j + 1) (by simpa using hj))
    obtain ⟨hreads, hkept, hassigned⟩ := ih hregs.2 htemps'
    refine ⟨⟨⟨.of_has (hg.has_register hregs.1), .inl (htemps 0 (by simp))⟩, hreads⟩,
      hsub.trans hkept, ?_⟩
    exact List.forall_mem_cons.mpr ⟨hkept (.inl rfl), hassigned⟩

/-- The copies for phi nodes read what has been assigned, and assign the locals of the phi nodes. -/
theorem Joins.reads {pred s : Nat} {b' : Block} {sts : List Statement}
    (h : f.Joins g.locals pred s sts) (hf : f.WellFormed) (hg : f.Coded g)
    (hb' : f.blocks[s]? = some b') (hkeeps : f.Keeps D E)
    (huses : ∀ r edges, .phi r edges ∈ b'.instrs → ∀ n, b'.Takes pred edges (.register n) → n ∈ D) :
    ReadsInOrder C g E sts ∧ f.Keeps (D ∪ b'.joins) (assignedBy E sts) := by
  obtain ⟨values, t, loads, hvalues, -, hloads, rfl⟩ := h
  rw [phisAt_eq hb'] at hvalues
  have hdefined : ∀ rv ∈ values, ∀ n, rv.2 = .register n → n ∈ D := by
    intro rv hrv n hn
    obtain ⟨edges, hphi, htakes⟩ := takes_of_mem_incoming hb' hvalues hrv
    exact huses _ _ hphi n (hn ▸ htakes)
  have hregs : ∀ rv ∈ values, rv.1 ∈ f.registers := fun _ => mem_registers_of_incoming hb' hvalues
  obtain ⟨hin, hsub, htemps⟩ := hloads.reads hf hkeeps hdefined
  obtain ⟨hout, hsub', hassigned⟩ := copiesOut_reads hg hregs htemps
  rw [readsInOrder_append, assignedBy_append]
  have hkept := hkeeps.mono (Set.Subset.refl D) (hsub.trans hsub')
  refine ⟨⟨hin, hout⟩, hkept.params, fun r hr hn hs => ?_⟩
  rcases hn with hn | ⟨r', edges, hphi, hnum⟩
  · exact hkept.registers r hr hn hs
  · have hb := List.mem_of_getElem? hb'
    obtain rfl := hf.eq_of_number hr (mem_registers hb hphi rfl) hnum.symm
    obtain ⟨v, hv, -⟩ := exists_incoming hvalues (hf.leading b' hb r edges hphi)
    exact hassigned (r, v) hv

/-! ## Paths -/

/-- A path of the lowered function stands before instructions of a block of the original, or on an
edge where phi nodes are assigned, and what the original has defined there has been assigned. -/
inductive Stands (f : Function) (g : NullPath.Function) : Nat → Set Int → Prop
  | within {k c : Nat} {b : Block} {D : Set Nat} {E : Set Int} {done rest : List Instr}
    {sts : List Statement} {t : Terminator} : f.Arrives k D → f.blocks[k]? = some b →
    b.instrs = done ++ rest → g.blocks[c]? = some ⟨sts, t⟩ →
    f.Codes g.locals g.blocks k b rest sts t → f.Keeps (D ∪ definedBy done) E → Stands f g c E
  | edge {k s c : Nat} {b : Block} {D : Set Nat} {E : Set Int} {sts : List Statement} :
    f.Arrives k D → f.blocks[k]? = some b → s ∈ b.succs → g.blocks[c]? = some ⟨sts, .goto s⟩ →
    f.Joins g.locals k s sts → f.Keeps (D ∪ definedBy b.instrs) E → Stands f g c E

/-- A block of the lowered function reads what has been assigned, apart from statements that are
excused, and goes on in a place of the original. -/
structure Safe (C : Statement → Prop) (f : Function) (g : NullPath.Function) (blk : NullPath.Block)
    (E : Set Int) : Prop where
  statements : ReadsInOrder C g E blk.statements
  terminator : blk.terminator.ReadsFrom g (assignedBy E blk.statements)
  targets : ∀ t ∈ blk.terminator.targets, ∃ c : Nat, t = c ∧
    f.Stands g c (blk.terminator.assigned (assignedBy E blk.statements))
  result : blk.terminator = .return → f.results.length = 1 → 0 ∈ assignedBy E blk.statements
  calls : ∀ callee args dest next span, blk.terminator = .call callee args dest next span →
    ∃ call ∈ f.calls, (callee, args) = f.callParts call.1 call.2

variable {k s c : Nat} {sts : List Statement} {t : Terminator} {done rest : List Instr}

theorem Safe.prepend (h : Safe C f g ⟨sts, t⟩ (assignedBy E out))
    (hout : ReadsInOrder C g E out) : Safe C f g ⟨out ++ sts, t⟩ E := by
  refine ⟨readsInOrder_append.mpr ⟨hout, h.statements⟩, ?_, ?_, ?_, h.calls⟩
  · show t.ReadsFrom g (assignedBy E (out ++ sts))
    rw [assignedBy_append]
    exact h.terminator
  · show ∀ i ∈ t.targets, ∃ c : Nat, i = c ∧ f.Stands g c (t.assigned (assignedBy E (out ++ sts)))
    rw [assignedBy_append]
    exact h.targets
  · show t = .return → f.results.length = 1 → 0 ∈ assignedBy E (out ++ sts)
    rw [assignedBy_append]
    exact h.result

section
variable (hf : f.WellFormed) (hg : f.Coded g) (harr : f.Arrives k D) (hb : f.blocks[k]? = some b)
  (hs : s ∈ b.succs)
include hf hg harr hb hs

/-- A path enters a successor whose phi nodes have been assigned. -/
theorem stands_succ
    (hkeeps : ∀ b', f.blocks[s]? = some b' → f.Keeps (D ∪ definedBy b.instrs ∪ b'.joins) E) :
    f.Stands g s E := by
  have hlt := hf.inside b (List.mem_of_getElem? hb) s hs
  have hb' : f.blocks[s]? = some f.blocks[s] := List.getElem?_eq_getElem hlt
  obtain ⟨sts, t, hblk, hcodes⟩ := hg.blocks s _ hb'
  refine .within (.edge harr hb hs hb') hb' (List.nil_append _).symm hblk hcodes ?_
  exact (hkeeps _ hb').mono (by simp [definedBy]) subset_rfl

/-- The copies for the phi nodes of a successor, in a block that goes there. -/
theorem Joins.safe (h : f.Joins g.locals k s sts) (hkeeps : f.Keeps (D ∪ definedBy b.instrs) E) :
    Safe C f g ⟨sts, .goto s⟩ E := by
  have hlt := hf.inside b (List.mem_of_getElem? hb) s hs
  have hb' : f.blocks[s]? = some f.blocks[s] := List.getElem?_eq_getElem hlt
  obtain ⟨hreads, hkept⟩ := h.reads hf hg hb' hkeeps (hf.joins k D b s _ harr hb hs hb')
  refine ⟨hreads, trivial, ?_, by simp, by simp⟩
  refine List.forall_mem_singleton.mpr ⟨s, rfl, stands_succ hf hg harr hb hs fun b' hb'' => ?_⟩
  obtain rfl := Option.mem_unique hb' hb''
  exact hkept

/-- A target of a branch. -/
theorem Leads.stands {target : Nat} (h : f.Leads g.locals g.blocks k s target)
    (hkeeps : f.Keeps (D ∪ definedBy b.instrs) E) : f.Stands g target E := by
  rcases h with ⟨rfl, hphis⟩ | ⟨sts, -, hblk, hjoins⟩
  · -- without phi nodes the edge defines nothing
    refine stands_succ hf hg harr hb hs fun b' hb' => hkeeps.mono ?_ subset_rfl
    rw [phisAt_eq hb'] at hphis
    rintro n (hn | ⟨r, edges, hphi, -⟩)
    · exact hn
    · have hmem := hf.leading b' (List.mem_of_getElem? hb') r edges hphi
      rw [hphis] at hmem
      cases hmem
  · exact .edge harr hb hs hblk hjoins hkeeps

end

/-- After a call the local of its register has been assigned, if the result is tracked. -/
theorem Receives.keeps {callee : Callee} {vs : List Value} {dest : Nat}
    (h : f.Receives g.locals r dest) (hf : f.WellFormed) (hg : f.Coded g) (hb : b ∈ f.blocks)
    (hi : .call r callee vs ∈ b.instrs) (hkeeps : f.Keeps D E) :
    g.Has dest ∧ f.Keeps (D ∪ definedBy [.call r callee vs]) (insert (dest : Int) E) := by
  have hr := mem_registers hb hi rfl
  rw [definedBy_singleton rfl]
  rcases h with ⟨rfl, -⟩ | ⟨herr, -, hdest⟩
  · exact ⟨hg.has_register hr, hkeeps.insert hf hr subset_rfl⟩
  · refine ⟨has_of_getElem? hdest, fun j hj => .inr (hkeeps.params j hj), fun r' hr' hn hs => ?_⟩
    rcases hn with hn | hn
    · exact .inr (hkeeps.registers r' hr' hn hs)
    · rw [hf.eq_of_number hr' hr hn] at hs
      exact absurd ⟨herr, b, hb, callee, vs, hi⟩ hs

/-- The last instruction leaves its block. -/
theorem Closes.exits {i : Instr} (h : f.Closes b (done ++ [i])) : f.Exits b i := by
  obtain ⟨init, last, heq, -, hlast⟩ := h
  obtain rfl := (List.append_inj' heq rfl).2 |> List.cons.inj |>.1
  exact hlast

variable (hf : f.WellFormed) (hg : f.Coded g) (hC : ∀ st, f.Strays st → C st)
include hf hg hC

/-- The code of instructions reads what has been assigned, unless it strays. -/
theorem Codes.safe (h : f.Codes g.locals g.blocks k b rest sts t) (harr : f.Arrives k D)
    (hb : f.blocks[k]? = some b) (hsplit : b.instrs = done ++ rest)
    (hkeeps : f.Keeps (D ∪ definedBy done) E) : Safe C f g ⟨sts, t⟩ E := by
  have hmem := List.mem_of_getElem? hb
  induction h generalizing done E with
  | @emit i rest out sts t hi _ ih =>
    have huses := hf.uses k D b harr hb done i rest hsplit
    obtain ⟨hreads, hkept⟩ := hi.reads hf hg hmem (by simp [hsplit]) hkeeps huses hC
    have hsplit' : b.instrs = (done ++ [i]) ++ rest := by simpa using hsplit
    refine Safe.prepend (ih hsplit' ?_) hreads
    rwa [definedBy_append, ← Set.union_assoc]
  | @call r callee vs rest dest next sts t hdest _ hnext hcodes ih =>
    have hi : .call r callee vs ∈ b.instrs := by simp [hsplit]
    have huses := hf.uses k D b harr hb done _ rest hsplit
    obtain ⟨hhas, hkept⟩ := hdest.keeps hf hg hmem hi hkeeps
    refine ⟨trivial, ⟨fun x hx => ?_, ?_⟩, ?_, by simp [callTo], ?_⟩
    · obtain ⟨v, hv, hvx⟩ := mem_callParts hx
      refine hkeeps.operand hf hvx fun n hn => huses n ?_
      simp [Instr.uses, ← hn, hv]
    · rintro p ⟨⟩
      exact .of_has hhas
    · have hsplit' : b.instrs = (done ++ [.call r callee vs]) ++ rest := by simpa using hsplit
      refine List.forall_mem_singleton.mpr ⟨next, rfl, .within harr hb hsplit' hnext hcodes ?_⟩
      rw [definedBy_append, ← Set.union_assoc]
      exact hkept
    · rintro _ _ _ _ _ ⟨⟩
      exact ⟨_, mem_calls hmem hi, rfl⟩
  | jump hs hjoins =>
    refine hjoins.safe hf hg harr hb (by simp [hs]) (hkeeps.mono ?_ subset_rfl)
    rw [hsplit, definedBy_append]
    simp [definedBy, Instr.defines?, Instr.result?]
  | @branch cond x s s' taken otherwise hs hx htaken hother =>
    have hall : f.Keeps (D ∪ definedBy b.instrs) E := by
      refine hkeeps.mono ?_ subset_rfl
      rw [hsplit, definedBy_append]
      simp [definedBy, Instr.defines?, Instr.result?]
    have huses := hf.uses k D b harr hb done _ [] hsplit
    refine ⟨trivial, ⟨rfl, hkeeps.operand hf hx fun n hn => huses n ?_⟩, ?_, by simp, by simp⟩
    · simp [Instr.uses, ← hn]
    · have hother' := hother.stands hf hg harr hb (by simp [hs]) hall
      have htaken' := htaken.stands hf hg harr hb (by simp [hs]) hall
      exact List.forall_mem_cons.mpr ⟨⟨otherwise, rfl, hother'⟩,
        List.forall_mem_singleton.mpr ⟨taken, rfl, htaken'⟩⟩
  | result hx =>
    have huses := hf.uses k D b harr hb done _ [] hsplit
    have hhas := hg.has_of_lt (i := 0) (by simp [fixed])
    refine ⟨⟨⟨.of_has hhas, hkeeps.operand hf hx fun n hn => huses n ?_⟩, trivial⟩, trivial,
      by simp [Terminator.targets], fun _ _ => .inl rfl, by simp⟩
    simp [Instr.uses, ← hn]
  | @results vs span hvs =>
    refine ⟨trivial, trivial, by simp [Terminator.targets], fun _ hone => ?_, by simp⟩
    have hexit := (hsplit ▸ hf.closed b hmem : f.Closes b (done ++ [.return vs span])).exits
    exact absurd (hexit.2.trans hone) hvs
  | panic => exact ⟨trivial, trivial, by simp [Terminator.targets], by simp, by simp⟩

theorem Stands.safe (h : f.Stands g c E) :
    ∃ blk, g.blocks[c]? = some blk ∧ Safe C f g blk E := by
  cases h with
  | within harr hb hsplit hblk hcodes hkeeps =>
    exact ⟨_, hblk, hcodes.safe hf hg hC harr hb hsplit hkeeps⟩
  | edge harr hb hs hblk hjoins hkeeps =>
    exact ⟨_, hblk, hjoins.safe hf hg harr hb hs hkeeps⟩

/-- Every path of the lowered function stands somewhere in the original. -/
theorem stands_of_arrives {i : Int} (h : g.Arrives i E) : ∃ c : Nat, i = c ∧ f.Stands g c E := by
  induction h with
  | entry =>
    obtain ⟨b, bs, hblocks⟩ := List.exists_cons_of_ne_nil hg.nonempty
    have hb : f.blocks[0]? = some b := by simp [hblocks]
    obtain ⟨sts, t, hblk, hcodes⟩ := hg.blocks 0 b hb
    refine ⟨0, rfl, .within .entry hb (List.nil_append _).symm hblk hcodes ⟨?_, ?_⟩⟩
    · intro j hj
      refine ⟨?_, ?_⟩
      · omega
      · rw [hg.argCount]
        omega
    · simp [definedBy]
  | step _ hb ht ih =>
    obtain ⟨c, rfl, hstands⟩ := ih
    obtain ⟨blk, hblk, hsafe⟩ := hstands.safe hf hg hC
    rw [NullPath.Function.block?_natCast, hblk] at hb
    cases hb
    exact hsafe.targets _ ht

theorem safe_of_arrives {i : Int} (h : g.Arrives i E) :
    ∃ blk, g.block? i = some blk ∧ Safe C f g blk E := by
  obtain ⟨c, rfl, hstands⟩ := stands_of_arrives hf hg hC h
  exact hstands.safe hf hg hC

/-- Lowered code assigns before it reads, unless it strays. -/
theorem assignsFirst : g.AssignsFirst C where
  result := hg.has_of_lt (by simp [fixed])
  params i h1 hi := by
    rw [hg.argCount] at hi
    obtain ⟨j, rfl⟩ := Int.eq_ofNat_of_zero_le (by omega : 0 ≤ i)
    refine hg.has_of_lt ?_
    unfold fixed
    omega
  blocks i E h := by
    obtain ⟨blk, hblk, hsafe⟩ := safe_of_arrives hf hg hC h
    exact ⟨blk, hblk, hsafe.statements, hsafe.terminator⟩

end Ssa.Function
end NullPath
