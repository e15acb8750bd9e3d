import Mathlib.Data.List.Flatten
import NullPath.Proofs.LoweredCode
import NullPath.Proofs.SanityCheck
import NullPath.Proofs.SsaRuns

/-!
# Lowering preserves meaning

The locals of a lowered function hold what the registers and parameters of the original hold, whenever
both stand at the same block or have ended.  Between two blocks of the original, the lowered function
may pass through blocks of its own: the rest of a block after a call, and the copies for the phi nodes
of an edge.  The copies go through temporaries, so that they can be done one after the other.

* `Ssa.Instr.IsScalar`: the instructions that are considered.
* `Ssa.Function.Agrees`: registers and parameters against locals.
* `Ssa.Function.Joins.joined`: copies in a row do what phi nodes do at once.
* `Ssa.Function.Codes.corresponds`: the rest of a block, in both directions.
* `Ssa.Function.Matches`: points of runs against each other.
* `Ssa.Function.lowered_reaches`: lowering preserves meaning.
-/

namespace NullPath

open Reading

open Scalar (Locals)

namespace Ssa

/-! ## Operators and literals -/

theorem binaryOperator?_eq_some {op : String} {o : SourceBinOp} :
    binaryOperator? op = some o ↔ o.token? = some op := by
  constructor
  · intro h
    unfold binaryOperator? at h
    split at h <;> cases h <;> rfl
  · intro h
    cases o <;> cases h <;> rfl

/-- The instructions of scalar code: operators except loads, conversions, calls and control flow. -/
def Instr.IsScalar : Instr → Prop
  | .unary _ op _ _ => op = "!" ∨ op = "-"
  | .runDefers | .alloc _ _ | .slice _ _ | .store _ _ _ | .send _ _ _ => False
  | _ => True

namespace Function

variable {x : Operand}

theorem unaryOperator?_eq_some {op : String} {o : SourceUnOp} :
    unaryOperator? op = some o ↔ o.token? = some op := by
  constructor
  · intro h
    unfold unaryOperator? at h
    split at h <;> cases h <;> rfl
  · intro h
    cases o <;> cases h <;> rfl

/-- The operand for a literal has the value of the literal. -/
theorem exists_literal {c : Literal} {t : GoType} (h : constOperand c t = .ok x) :
    ∃ a, c.value? t = some a ∧ ∀ σ, Scalar.operand σ x = some (a, σ) := by
  unfold constOperand at h
  split at h
  · cases h
  · next sort hsort =>
    have hliteral : ∀ σ v, Scalar.operand σ (.const v t.lower) =
        some (if sort = .bool then .ofBool (v != 0) else .ofInt v, σ) := by
      intro σ v
      simp [Scalar.operand, Ty.literal?, hsort]
    cases c with
    | zero =>
      cases h
      refine ⟨if sort = .bool then .ofBool false else .ofInt 0, ?_, fun σ => hliteral σ 0⟩
      rw [Literal.value?, hsort]
    | bool b =>
      by_cases hbool : sort = .bool
      · simp only [if_pos hbool] at h
        cases h
        refine ⟨_, rfl, fun σ => ?_⟩
        rw [hliteral, if_pos hbool]
        cases b <;> rfl
      · simp [hbool] at h
    | int v =>
      by_cases hint : sort = .int
      · simp only [if_pos hint] at h
        split at h
        · cases h
          refine ⟨_, rfl, fun σ => ?_⟩
          rw [hliteral, if_neg (by simp [hint])]
        · cases h
      · simp [hint] at h
    | float literal => cases h

/-! ## Agreement -/

/-- The locals of parameters hold the arguments, and those of registers whose types have sorts hold
what the registers hold. -/
structure Agrees (f : Function) (args : List Constant) (ρ : Regs) (σ : Locals) : Prop where
  params : ∀ i < f.params.length, σ ((i + 1 : Nat) : Int) = args[i]?
  registers : ∀ r ∈ f.registers, (∃ sort, r.type.lower.sort = .ok sort) →
    σ (f.registerSlot r) = ρ r.number

variable {R : Reading} {f : Function} {g : NullPath.Function} {args : List Constant} {ρ ρ' : Regs}
  {σ σ' : Locals} {L : List LocalVar} {D : Set Nat} {b : Block} {i : Instr} {out : List Statement}

namespace Agrees

variable (h : f.Agrees args ρ σ)
include h

/-- Operands have the values of what they are for. -/
theorem operand {v : Value} {x : Operand} (hf : f.WellFormed) (hx : f.operand v = .ok x) :
    Scalar.operand σ x = (v.read args ρ).map fun c => (c, σ) := by
  rcases operand_eq_ok hx with ⟨c, t, rfl, hc⟩ | ⟨i, t, sort, hi, rfl, ht, hsort⟩
  · obtain ⟨a, ha, hread⟩ := exists_literal hc
    rw [hread, Value.read, ha]
    rfl
  · rcases hf.slot_cases hi with ⟨r, hr, rfl, rfl, htype⟩ | ⟨j, hj, rfl, rfl⟩
    · obtain rfl := Option.mem_unique htype ht
      simp [Scalar.operand, Value.read, h.registers r hr ⟨sort, hsort⟩]
    · rw [Scalar.operand, Value.read, h.params j hj]

theorem set {r : Register} (hr : r ∈ f.registers) (c : Constant) :
    f.Agrees args (ρ.set r.number c) (σ.set (f.registerSlot r) (some c)) where
  params i hi := by
    obtain ⟨j, r', -, -, hj⟩ := slot?_register (exists_slot hr)
    have hne : ((i + 1 : Nat) : Int) ≠ f.registerSlot r := by omega
    rw [Locals.set, if_neg hne, h.params i hi]
  registers r' hr' hs := by
    by_cases hn : r'.number = r.number
    · have hslot : f.registerSlot r' = f.registerSlot r := by simp [registerSlot, hn]
      simp [Locals.set, Regs.set, hn, hslot]
    · have hslot : (f.registerSlot r' : Int) ≠ f.registerSlot r := by
        intro heq
        have hr'' := exists_slot hr'
        rw [Int.ofNat.inj heq] at hr''
        exact hn (slot?_register_inj hr'' (exists_slot hr))
      rw [Locals.set, Regs.set, if_neg hn, if_neg hslot, h.registers r' hr' hs]

/-- The result slot and the locals after those of the registers do not matter. -/
theorem set_other {i : Int} (hi : i = 0 ∨ (f.fixed : Int) ≤ i) (v : Option Constant) :
    f.Agrees args ρ (σ.set i v) where
  params j hj := by
    have hne : ((j + 1 : Nat) : Int) ≠ i := by
      unfold fixed at hi
      omega
    rw [Locals.set, if_neg hne, h.params j hj]
  registers r hr hs := by
    have hlt := registerSlot_lt hr
    have hne : (f.registerSlot r : Int) ≠ i := by omega
    rw [Locals.set, if_neg hne, h.registers r hr hs]

/-- A register whose type has no sort does not matter. -/
theorem set_unsorted (hf : f.WellFormed) {r : Register} (hr : r ∈ f.registers) {err : Error}
    (herr : r.type.lower.sort = .error err) (c : Constant) :
    f.Agrees args (ρ.set r.number c) σ where
  params := h.params
  registers r' hr' hs := by
    have hne : r'.number ≠ r.number := by
      intro hn
      obtain ⟨sort, hsort⟩ := hs
      rw [hf.eq_of_number hr' hr hn, herr] at hsort
      cases hsort
    rw [Regs.set, if_neg hne, h.registers r' hr' hs]

end Agrees

/-! ## Instructions -/

section
variable (h : f.Emits L i out) (hi : i.IsScalar) (hf : f.WellFormed) (hagree : f.Agrees args ρ σ)
include h hi hf hagree

/-- A scalar instruction that stays in its block and is not silent assigns the value that it computes
to the local of its register. -/
theorem Emits.assigns : (out = [] ∧ (i = .debug ∨ ∃ r edges, i = .phi r edges)) ∨
      ∃ r rv, out = [.assign ⟨f.registerSlot r, 0⟩ rv r.span] ∧ i.defines? = some r ∧
        i.call? = none ∧ ∀ c τ, R.rvalue σ rv = some (c, τ) ↔ i.Computes R args ρ c ∧ σ = τ := by
  cases h with
  | silent h =>
    rcases h with rfl | rfl | hphi
    · exact .inl ⟨rfl, .inl rfl⟩
    · exact hi.elim
    · exact .inl ⟨rfl, .inr hphi⟩
  | @binary r op o x y x' y' sort ho hx hy hsort =>
    refine .inr ⟨r, _, rfl, rfl, rfl, fun c τ => ?_⟩
    rw [rvalue_binary (hagree.operand hf hx) (hagree.operand hf hy)]
    constructor
    · rintro ⟨a, b, hvx, hvy, hc, hτ⟩
      exact ⟨.binary (binaryOperator?_eq_some.mp ho) hvx hvy hc, hτ⟩
    · rintro ⟨hc, hτ⟩
      cases hc with
      | @binary _ _ o' _ _ a b _ ho' hvx hvy hc =>
        obtain rfl := Option.some.inj ((binaryOperator?_eq_some.mpr ho').symm.trans ho)
        exact ⟨a, b, hvx, hvy, hc, hτ⟩
  | @unary r op o x x' sort ho hx hsort =>
    refine .inr ⟨r, _, rfl, rfl, rfl, fun c τ => ?_⟩
    rw [rvalue_unary (hagree.operand hf hx)]
    constructor
    · rintro ⟨a, hvx, hc, hτ⟩
      exact ⟨.unary (unaryOperator?_eq_some.mp ho) hvx hc, hτ⟩
    · rintro ⟨hc, hτ⟩
      cases hc with
      | @unary _ _ o' _ a _ ho' hvx hc =>
        obtain rfl := Option.some.inj ((unaryOperator?_eq_some.mpr ho').symm.trans ho)
        exact ⟨a, hvx, hc, hτ⟩
  | load => simp [Instr.IsScalar] at hi
  | @cast i r x x' sort hcast hx hsort =>
    have hrv := fun c τ => rvalue_cast (R := R) (c := c) (τ := τ) (hagree.operand hf hx)
      r.type.lower
    rcases hcast with rfl | rfl
    · refine .inr ⟨r, _, rfl, rfl, rfl, fun c τ => (hrv c τ).trans ⟨?_, ?_⟩⟩
      · rintro ⟨a, hvx, hc, hτ⟩
        exact ⟨.convert hvx hc, hτ⟩
      · rintro ⟨hc, hτ⟩
        cases hc with
        | convert hvx hc => exact ⟨_, hvx, hc, hτ⟩
    · refine .inr ⟨r, _, rfl, rfl, rfl, fun c τ => (hrv c τ).trans ⟨?_, ?_⟩⟩
      · rintro ⟨a, hvx, hc, hτ⟩
        exact ⟨.changeType hvx hc, hτ⟩
      · rintro ⟨hc, hτ⟩
        cases hc with
        | changeType hvx hc => exact ⟨_, hvx, hc, hτ⟩
  | store | alloc => exact hi.elim

/-- What an instruction does to the registers, its statements do to the locals, and the other way
round. -/
theorem Emits.exec (hb : b ∈ f.blocks) (hmem : i ∈ b.instrs) :
    (∀ cs ρ', i.Exec R args ρ cs ρ' → cs = [] ∧ ∃ σ', R.ExecAll out σ σ' ∧ f.Agrees args ρ' σ') ∧
      ∀ σ', R.ExecAll out σ σ' → ∃ ρ', i.Exec R args ρ [] ρ' ∧ f.Agrees args ρ' σ' := by
  rcases h.assigns (R := R) hi hf hagree with ⟨rfl, hsilent⟩ | ⟨r, rv, rfl, hr, hcall, hrv⟩
  · constructor
    · intro cs ρ' hexec
      cases hexec with
      | debug | phi => exact ⟨rfl, σ, .nil, hagree⟩
      | compute hr _ => rcases hsilent with rfl | ⟨_, _, rfl⟩ <;> cases hr
      | call => simp at hsilent
    · rintro σ' ⟨⟩
      rcases hsilent with rfl | ⟨r, edges, rfl⟩
      · exact ⟨ρ, .debug, hagree⟩
      · exact ⟨ρ, .phi, hagree⟩
  · have hset := hagree.set (mem_registers hb hmem (result?_of_defines? hr))
    constructor
    · intro cs ρ' hexec
      cases hexec with
      | debug | phi => cases hr
      | call => cases hcall
      | @compute _ r' _ c hr' hc =>
        obtain rfl := Option.mem_unique hr' hr
        exact ⟨rfl, _, execAll_assign.mpr ⟨c, σ, (hrv c σ).mpr ⟨hc, rfl⟩, rfl⟩, hset c⟩
    · intro σ' hexec
      obtain ⟨c, τ, hval, rfl⟩ := execAll_assign.mp hexec
      obtain ⟨hc, rfl⟩ := (hrv c τ).mp hval
      exact ⟨_, .compute hr hc, hset c⟩

end

/-! ## Phi nodes -/

variable {values : List (Register × Value)} {k s : Nat} {sts : List Statement} {b' : Block}
  {rv : Register × Value}

/-- An assignment of an operand that moves nothing. -/
theorem exec_use {a? : Option Constant} {i : Int} {span : Span}
    (hx : Scalar.operand σ x = a?.map fun a => (a, σ)) :
    R.Exec (.assign ⟨i, 0⟩ (.use x) span) σ σ' ↔ ∃ c, a? = some c ∧ σ' = σ.set i (some c) := by
  constructor
  · intro h
    cases h with
    | @assign _ _ _ _ τ c hrv =>
      change Scalar.operand σ x = some (c, τ) at hrv
      rw [hx, Option.map_eq_some_iff] at hrv
      obtain ⟨a, ha, heq⟩ := hrv
      obtain ⟨rfl, rfl⟩ := Prod.mk.inj heq
      exact ⟨a, ha, rfl⟩
  · rintro ⟨c, rfl, rfl⟩
    exact .assign hx

/-- Copies to temporaries can be made if there are values.  They leave the values there, and other
locals as they are. -/
theorem CopiesIn.spec {t : Nat} (h : f.CopiesIn L t values sts) (hf : f.WellFormed)
    (ht : f.fixed ≤ t) (hagree : f.Agrees args ρ σ) :
    ((∀ rv ∈ values, ∃ c, rv.2.read args ρ = some c) → ∃ σ', R.ExecAll sts σ σ') ∧
      ∀ σ', R.ExecAll sts σ σ' → (∀ i, i < t → σ' i = σ i) ∧
        ∀ j rv, values[j]? = some rv →
          ∃ c, rv.2.read args ρ = some c ∧ σ' ((t + j : Nat) : Int) = some c := by
  induction h generalizing σ with
  | nil =>
    refine ⟨fun _ => ⟨σ, .nil⟩, fun σ' hexec => ?_⟩
    cases hexec
    exact ⟨fun _ _ => rfl, by simp⟩
  | @cons t r v x rest sts hx _ _ ih =>
    have hrest := fun c => ih (by omega)
      (hagree.set_other (.inr (by exact_mod_cast ht)) (i := t) (some c))
    have hread := hagree.operand hf hx
    constructor
    · intro hreads
      rw [List.forall_mem_cons] at hreads
      obtain ⟨c, hc⟩ := hreads.1
      obtain ⟨σ', hσ'⟩ := (hrest c).1 hreads.2
      exact ⟨σ', .cons ((exec_use hread).mpr ⟨c, hc, rfl⟩) hσ'⟩
    · rintro σ' (_ | ⟨hst, hsts⟩)
      obtain ⟨c, hc, rfl⟩ := (exec_use hread).mp hst
      obtain ⟨hbelow, htemps⟩ := (hrest c).2 σ' hsts
      refine ⟨fun i hi => ?_, fun j rv hj => ?_⟩
      · rw [hbelow i (by omega), Locals.set, if_neg (by omega)]
      · cases j with
        | zero =>
          cases hj
          refine ⟨c, hc, ?_⟩
          rw [hbelow _ (by omega)]
          simp [Locals.set]
        | succ j =>
          obtain ⟨c', hc', hσ'⟩ := htemps j rv hj
          refine ⟨c', hc', ?_⟩
          rwa [Nat.add_right_comm] at hσ'

/-- Copies from temporaries that hold values can be made.  They leave the values in the locals of
different registers, and other locals as they are. -/
theorem spec_copiesOut {t : Nat} (hslots : ∀ rv ∈ values, f.registerSlot rv.1 < t)
    (hdistinct : (values.map fun rv => f.registerSlot rv.1).Nodup) :
    ((∀ j < values.length, ∃ c, σ ((t + j : Nat) : Int) = some c) →
      ∃ σ', R.ExecAll (f.copiesOut t values) σ σ') ∧
    ∀ σ', R.ExecAll (f.copiesOut t values) σ σ' →
      (∀ i : Int, (∀ rv ∈ values, i ≠ f.registerSlot rv.1) → σ' i = σ i) ∧
        ∀ j rv, values[j]? = some rv →
          σ' (f.registerSlot rv.1) = σ ((t + j : Nat) : Int) := by
  induction values generalizing t σ with
  | nil =>
    refine ⟨fun _ => ⟨σ, .nil⟩, fun σ' hexec => ?_⟩
    cases hexec
    exact ⟨fun _ _ => rfl, by simp⟩
  | cons rv values ih =>
    obtain ⟨r, v⟩ := rv
    rw [List.forall_mem_cons] at hslots
    rw [List.map_cons, List.nodup_cons] at hdistinct
    have hlt : f.registerSlot r < t := hslots.1
    have hcopy : Scalar.operand σ (.copy ⟨t, 0⟩) = (σ t).map fun a => (a, σ) := rfl
    -- the other temporaries lie above the local that is written
    have habove : ∀ c (j : Nat), σ.set (f.registerSlot r) c ((t + 1 + j : Nat) : Int) =
        σ ((t + (j + 1) : Nat) : Int) := by
      intro c j
      rw [Locals.set, if_neg (by omega), Nat.add_right_comm]
      rfl
    have hrest := fun c => ih (σ := σ.set (f.registerSlot r) (some c))
      (fun rv hrv => (hslots.2 rv hrv).trans (Nat.lt_succ_self t)) hdistinct.2
    constructor
    · intro htemps
      obtain ⟨c, hc⟩ := htemps 0 (by simp)
      obtain ⟨σ', hσ'⟩ := (hrest c).1 fun j hj => by
        rw [habove]
        exact htemps (j + 1) (by simpa using hj)
      exact ⟨σ', .cons ((exec_use hcopy).mpr ⟨c, hc, rfl⟩) hσ'⟩
    · rintro σ' (_ | ⟨hst, hsts⟩)
      obtain ⟨c, hc, rfl⟩ := (exec_use hcopy).mp hst
      obtain ⟨hothers, hregs⟩ := (hrest c).2 σ' hsts
      refine ⟨fun i hi => ?_, fun j rv hj => ?_⟩
      · rw [List.forall_mem_cons] at hi
        rw [hothers i hi.2, Locals.set, if_neg hi.1]
      · cases j with
        | zero =>
          cases hj
          rw [hothers _ ?_, Locals.set, if_pos rfl]
          · exact hc.symm
          · intro rv hrv heq
            exact hdistinct.1 (List.mem_map.mpr ⟨rv, hrv, (Int.ofNat.inj heq).symm⟩)
        | succ j => rw [hregs j rv hj, habove]

theorem sublist_phisOf (instrs : List Instr) :
    ((phisOf instrs).map Prod.fst).Sublist (instrs.filterMap Instr.result?) := by
  fun_induction phisOf instrs with
  | case1 r edges rest ih => exact ih.cons_cons r
  | case2 rest ih => exact ih
  | case3 => exact List.nil_sublist _

theorem WellFormed.nodup_phis (hf : f.WellFormed) (hb : b ∈ f.blocks) :
    ((b.phis.map Prod.fst).map Register.number).Nodup := by
  have hblock : [b].Sublist f.blocks := List.singleton_sublist.mpr hb
  have hregs := hblock.flatMap fun b => b.instrs.filterMap Instr.result?
  rw [List.flatMap_singleton] at hregs
  exact hf.distinct.sublist (((sublist_phisOf b.instrs).trans hregs).map Register.number)

theorem map_fst_incoming {phis : List (Register × List Value)}
    (h : f.incoming k s phis = .ok values) : values.map Prod.fst = phis.map Prod.fst := by
  have hall := incoming_eq_ok h
  clear h
  induction hall with
  | nil => rfl
  | cons hhead _ ih => rw [List.map_cons, List.map_cons, hhead.1, ih]

section
variable (hb' : f.blocks[s]? = some b') (hvalues : f.incoming k s b'.phis = .ok values)
include hb' hvalues

theorem WellFormed.nodup_incoming (hf : f.WellFormed) :
    ((values.map Prod.fst).map Register.number).Nodup := by
  rw [map_fst_incoming hvalues]
  exact hf.nodup_phis (List.mem_of_getElem? hb')

/-- The phi nodes of a block are kept in different locals. -/
theorem WellFormed.nodup_slots (hf : f.WellFormed) :
    (values.map fun rv => f.registerSlot rv.1).Nodup := by
  have hnumbers := hf.nodup_incoming hb' hvalues
  rw [List.map_map] at hnumbers
  refine List.pairwise_map.mpr ((List.pairwise_map.mp hnumbers).imp_of_mem ?_)
  intro rv rv' hrv hrv' hne heq
  have hslot := exists_slot (mem_registers_of_incoming hb' hvalues hrv)
  rw [heq] at hslot
  exact hne (slot?_register_inj hslot (exists_slot (mem_registers_of_incoming hb' hvalues hrv')))

end

/-- The registers after phi nodes have taken their values. -/
def carried (args : List Constant) (ρ : Regs) (values : List (Register × Value)) : Regs :=
  fun n =>
    match values.find? fun rv => rv.1.number == n with
    | some rv => rv.2.read args ρ
    | none => ρ n

theorem carried_of_mem (hdistinct : ((values.map Prod.fst).map Register.number).Nodup)
    (hrv : rv ∈ values) : carried args ρ values rv.1.number = rv.2.read args ρ := by
  cases hfind : values.find? fun rv' => rv'.1.number == rv.1.number with
  | none =>
    have hnone := List.find?_eq_none.mp hfind rv hrv
    simp at hnone
  | some rv' =>
    have hnum : rv'.1.number = rv.1.number := by simpa using List.find?_some hfind
    rw [List.map_map] at hdistinct
    have heq : rv' = rv :=
      List.inj_on_of_nodup_map hdistinct (List.mem_of_find?_eq_some hfind) hrv hnum
    rw [carried, hfind, heq]

theorem carried_of_not_mem {n : Nat} (hn : ∀ rv ∈ values, rv.1.number ≠ n) :
    carried args ρ values n = ρ n := by
  have hfind : values.find? (fun rv => rv.1.number == n) = none :=
    List.find?_eq_none.mpr fun rv hrv => by simpa using hn rv hrv
  rw [carried, hfind]

/-- The way into a block is determined. -/
theorem Joined.unique {ρ₁ ρ₂ : Regs} (hf : f.WellFormed) (h₁ : f.Joined args k s ρ ρ₁)
    (h₂ : f.Joined args k s ρ ρ₂) : ρ₁ = ρ₂ := by
  obtain ⟨b₁, hb₁, hphis₁, hothers₁⟩ := h₁
  obtain ⟨b₂, hb₂, hphis₂, hothers₂⟩ := h₂
  obtain rfl := Option.mem_unique hb₁ hb₂
  have hpreds := hf.preds b₁ (List.mem_of_getElem? hb₁)
  ext1 n
  by_cases hn : n ∈ b₁.joins
  · obtain ⟨r, edges, hphi, rfl⟩ := hn
    obtain ⟨v₁, c₁, htakes₁, hc₁, hr₁⟩ := hphis₁ r edges hphi
    obtain ⟨v₂, c₂, htakes₂, hc₂, hr₂⟩ := hphis₂ r edges hphi
    obtain rfl := htakes₁.unique htakes₂ hpreds
    rw [hr₁, hr₂, ← hc₁, hc₂]
  · rw [hothers₁ n hn, hothers₂ n hn]

section
variable (hf : f.WellFormed) (hb' : f.blocks[s]? = some b')
include hf hb'

/-- The values that phi nodes take are those of the edge. -/
theorem joined_carried (hvalues : f.incoming k s b'.phis = .ok values)
    (hreads : ∀ rv ∈ values, ∃ c, rv.2.read args ρ = some c) :
    f.Joined args k s ρ (carried args ρ values) := by
  have hdistinct := hf.nodup_incoming hb' hvalues
  have hleading := hf.leading b' (List.mem_of_getElem? hb')
  refine ⟨b', hb', fun r edges hphi => ?_, fun n hn => carried_of_not_mem fun rv hrv hnum => ?_⟩
  · obtain ⟨v, hv, hin⟩ := exists_incoming hvalues (hleading r edges hphi)
    obtain ⟨c, hc⟩ := hreads _ hv
    exact ⟨v, c, takes_of_incomingValue hb' hin, hc, (carried_of_mem hdistinct hv).trans hc⟩
  · obtain ⟨edges, hphi, -⟩ := takes_of_mem_incoming hb' hvalues hrv
    exact hn ⟨rv.1, edges, hphi, hnum⟩

/-- What phi nodes take on the way into a block has values. -/
theorem Joined.exists_read (h : f.Joined args k s ρ ρ')
    (hvalues : f.incoming k s b'.phis = .ok values) (hrv : rv ∈ values) :
    ∃ c, rv.2.read args ρ = some c := by
  obtain ⟨b₁, hb₁, hphis, -⟩ := h
  obtain rfl := Option.mem_unique hb' hb₁
  obtain ⟨edges, hphi, htakes'⟩ := takes_of_mem_incoming hb' hvalues hrv
  obtain ⟨v, c, htakes, hc, -⟩ := hphis _ _ hphi
  rw [← htakes.unique htakes' (hf.preds b' (List.mem_of_getElem? hb'))]
  exact ⟨c, hc⟩

/-- The copies for the phi nodes of a block take a run into it. -/
theorem Joins.joined (h : f.Joins L k s sts) (hagree : f.Agrees args ρ σ)
    (hexec : R.ExecAll sts σ σ') : ∃ ρ', f.Joined args k s ρ ρ' ∧ f.Agrees args ρ' σ' := by
  obtain ⟨values, t, loads, hvalues, ht, hloads, rfl⟩ := h
  rw [phisAt_eq hb'] at hvalues
  obtain ⟨σ₁, hin, hout⟩ := execAll_append.mp hexec
  obtain ⟨hbelow, htemps⟩ := (hloads.spec hf ht hagree).2 σ₁ hin
  have hregs : ∀ rv ∈ values, rv.1 ∈ f.registers := fun _ => mem_registers_of_incoming hb' hvalues
  have hslots : ∀ rv ∈ values, f.registerSlot rv.1 < t := fun rv hrv =>
    (registerSlot_lt (hregs rv hrv)).2.trans_le ht
  obtain ⟨hothers, hwritten⟩ := (spec_copiesOut hslots (hf.nodup_slots hb' hvalues)).2 σ' hout
  have hreads : ∀ rv ∈ values, ∃ c, rv.2.read args ρ = some c := by
    intro rv hrv
    obtain ⟨j, hj⟩ := List.getElem?_of_mem hrv
    obtain ⟨c, hc, -⟩ := htemps j rv hj
    exact ⟨c, hc⟩
  -- all temporaries lie above the registers, so no copy overwrites a value that is still needed
  refine ⟨carried args ρ values, joined_carried hf hb' hvalues hreads, ?_, ?_⟩
  · intro i hi
    rw [hothers, hbelow, hagree.params i hi]
    · unfold fixed at ht
      omega
    · intro rv hrv heq
      obtain ⟨j, r', -, -, hj⟩ := slot?_register (exists_slot (hregs rv hrv))
      omega
  · intro r hr hs
    by_cases hphi : ∃ rv ∈ values, rv.1.number = r.number
    · obtain ⟨rv, hrv, hnum⟩ := hphi
      obtain rfl := hf.eq_of_number (hregs rv hrv) hr hnum
      obtain ⟨j, hj⟩ := List.getElem?_of_mem hrv
      obtain ⟨c, hc, hσ₁⟩ := htemps j rv hj
      rw [hwritten j rv hj, hσ₁, carried_of_mem (hf.nodup_incoming hb' hvalues) hrv, hc]
    · have hne : ∀ rv ∈ values, rv.1.number ≠ r.number := fun rv hrv hnum => hphi ⟨rv, hrv, hnum⟩
      rw [carried_of_not_mem hne, hothers, hbelow, hagree.registers r hr hs]
      · have hlt := (registerSlot_lt hr).2
        omega
      · intro rv hrv heq
        have hslot := exists_slot (hregs rv hrv)
        rw [← Int.ofNat.inj heq] at hslot
        exact hne rv hrv (slot?_register_inj hslot (exists_slot hr))

/-- The way into a block can be copied. -/
theorem Joins.execAll (h : f.Joins L k s sts) (hagree : f.Agrees args ρ σ)
    (hjoined : f.Joined args k s ρ ρ') : ∃ σ', R.ExecAll sts σ σ' ∧ f.Agrees args ρ' σ' := by
  have hjoins := h
  obtain ⟨values, t, loads, hvalues, ht, hloads, rfl⟩ := h
  rw [phisAt_eq hb'] at hvalues
  have hreads : ∀ rv ∈ values, ∃ c, rv.2.read args ρ = some c := fun _ =>
    hjoined.exists_read hf hb' hvalues
  have hslots : ∀ rv ∈ values, f.registerSlot rv.1 < t := fun rv hrv =>
    (registerSlot_lt (mem_registers_of_incoming hb' hvalues hrv)).2.trans_le ht
  obtain ⟨hload, hloaded⟩ := hloads.spec hf ht hagree
  obtain ⟨σ₁, hin⟩ := hload hreads
  obtain ⟨σ', hout⟩ := (spec_copiesOut (R := R) hslots (hf.nodup_slots hb' hvalues)).1 fun j hj => by
    obtain ⟨c, -, hc⟩ := (hloaded σ₁ hin).2 j values[j] (List.getElem?_eq_getElem hj)
    exact ⟨c, hc⟩
  have hexec := execAll_append.mpr ⟨σ₁, hin, hout⟩
  -- what these copies do is known already, and there is one way into the block
  obtain ⟨ρ'', hjoined', hagree'⟩ := hjoins.joined hf hb' hagree hexec
  rw [hjoined'.unique hf hjoined] at hagree'
  exact ⟨σ', hexec, hagree'⟩

end

/-! ## Blocks -/

/-- A point of a run of the function, and a point of a run of its lowered form: both stand at the
same block, or both have returned, where a single result is in the result slot, or both have stopped;
and the locals hold what the registers hold. -/
inductive Matches (f : Function) (args : List Constant) : Point → Reading.Point → Prop
  | head {k : Nat} {ρ : Regs} {σ : Locals} : f.Agrees args ρ σ → Matches f args (.head k ρ) (.head k σ)
  | returned {results : List (Option Constant)} {ρ : Regs} {σ : Locals} : f.Agrees args ρ σ →
    (results.length = 1 → ∃ c, results = [some c] ∧ σ 0 = some c) →
    Matches f args (.returned results ρ) (.returned σ)
  | panicked {ρ : Regs} {σ : Locals} : f.Agrees args ρ σ → Matches f args (.panicked ρ) (.stopped σ)

variable {cs : List Constant} {rest : List Instr} {t : Terminator} {p : Point} {q : Point}
  {target : Nat}

/-- Instructions that stay in their block do not leave it. -/
theorem Emits.not_exit (h : f.Emits L i out) : i.isExit = false := by
  cases h with
  | silent h => rcases h with rfl | rfl | ⟨r, edges, rfl⟩ <;> rfl
  | cast h => rcases h with rfl | rfl <;> rfl
  | binary | unary | load | store | alloc => rfl

/-- The first of several instructions is executed first. -/
theorem Runs.cons (h : f.Runs R args k b (i :: rest) ρ cs p) (hi : i.isExit = false) :
    ∃ cs₁ cs₂ ρ', i.Exec R args ρ cs₁ ρ' ∧ f.Runs R args k b rest ρ' cs₂ p ∧ cs = cs₁ ++ cs₂ := by
  cases h with
  | step hexec hrest => exact ⟨_, _, _, hexec, hrest, rfl⟩
  | jump | taken | otherwise | «return» | panic => cases hi

/-- The runs along an edge. -/
inductive Crosses (f : Function) (args : List Constant) (k s : Nat) (ρ : Regs) :
    List Constant → Point → Prop
  | mk {ρ' : Regs} : f.Joined args k s ρ ρ' → Crosses f args k s ρ [] (.head s ρ')

/-- For each run of the function, with the values that calls have returned, there is one of its lowered
form that comes to a matching point, and the other way round. -/
structure Corresponds (f : Function) (args : List Constant) (runs : List Constant → Point → Prop)
    (runs' : List Constant → Reading.Point → Prop) : Prop where
  forth : ∀ cs p, runs cs p → ∃ q, runs' cs q ∧ f.Matches args p q
  back : ∀ cs q, runs' cs q → ∃ p, runs cs p ∧ f.Matches args p q

/-- A call ends a block, and the rest of the code stands in the next one. -/
theorem corresponds_call {r : Register} {callee : Callee} {vs : List Value} {as : List Constant}
    {dest next : Nat} (has : Scalar.operands σ (f.callParts callee vs).2 = some (as, σ))
    (hlen : f.blocks.length ≤ next) (hnext : g.blocks[next]? = some ⟨sts, t⟩)
    (hrest : ∀ c, f.Corresponds args (f.Runs R args k b rest (ρ.set r.number c))
      (R.Runs g f.blocks.length sts t (σ.set dest (some c)))) :
    f.Corresponds args (f.Runs R args k b (.call r callee vs :: rest) ρ)
      (R.Runs g f.blocks.length [] (f.callTo r callee vs dest next) σ) := by
  have hblk := NullPath.Function.block?_natCast.trans hnext
  refine ⟨fun cs p hrun => ?_, fun cs q hrun => ?_⟩
  · obtain ⟨cs₁, cs₂, ρ', hexec, hp, rfl⟩ := hrun.cons rfl
    cases hexec with
    | compute _ hc => cases hc
    | call c =>
      obtain ⟨q, hq, hmatch⟩ := (hrest c).forth _ _ hp
      exact ⟨q, Leaves.runs (.call c has) (.pass hlen hblk hq), hmatch⟩
  · obtain ⟨cs₁, cs₂, k', σ', hleaves, henters, rfl⟩ := hrun.enters nofun nofun
    obtain ⟨c, rfl, hk', rfl⟩ : ∃ c, cs₁ = [c] ∧ (k' : Int) = next ∧ σ' = σ.set dest (some c) := by
      generalize (k' : Int) = i at hleaves
      cases hleaves with
      | call c has' =>
        cases has.symm.trans has'
        exact ⟨c, rfl, rfl, rfl⟩
    obtain rfl := Int.ofNat.inj hk'
    cases henters with
    | head hlt => omega
    | pass _ hblk' hq =>
      cases hblk.symm.trans hblk'
      obtain ⟨p, hp, hmatch⟩ := (hrest c).back _ _ hq
      exact ⟨p, .step (.call c) hp, hmatch⟩

/-- A branch is a switch that compares with zero. -/
theorem corresponds_branch {v : Value} {s' taken otherwise : Nat} (hs : b.succs = [s, s'])
    (hread : Scalar.operand σ x = (v.read args ρ).map fun c => (c, σ))
    (htaken : f.Corresponds args (f.Crosses args k s ρ) (R.Enters g f.blocks.length taken σ))
    (hother : f.Corresponds args (f.Crosses args k s' ρ) (R.Enters g f.blocks.length otherwise σ)) :
    f.Corresponds args (f.Runs R args k b [.branch v] ρ)
      (R.Runs g f.blocks.length [] (.switch x [0] [otherwise, taken] {}) σ) := by
  refine ⟨fun cs p hrun => ?_, fun cs q hrun => ?_⟩
  · cases hrun with
    | step hexec => cases hexec.not_exit
    | taken hs₁ hc hval hjoined =>
      obtain ⟨rfl, rfl⟩ : s = _ ∧ s' = _ := by simpa using hs.symm.trans hs₁
      obtain ⟨q, hq, hmatch⟩ := htaken.forth _ _ ⟨hjoined⟩
      refine ⟨q, Leaves.runs ((leaves_switch hread).mpr ⟨_, hc, rfl, rfl, ?_⟩) hq, hmatch⟩
      rw [if_neg hval]
    | otherwise hs₁ hc hval hjoined =>
      obtain ⟨rfl, rfl⟩ : s = _ ∧ s' = _ := by simpa using hs.symm.trans hs₁
      obtain ⟨q, hq, hmatch⟩ := hother.forth _ _ ⟨hjoined⟩
      refine ⟨q, Leaves.runs ((leaves_switch hread).mpr ⟨_, hc, rfl, rfl, ?_⟩) hq, hmatch⟩
      rw [if_pos hval]
  · obtain ⟨cs₁, cs₂, k', σ', hleaves, henters, rfl⟩ := hrun.enters nofun nofun
    obtain ⟨c, hc, rfl, rfl, hk'⟩ := (leaves_switch hread).mp hleaves
    by_cases hval : c.value = 0
    · rw [if_pos hval] at hk'
      obtain rfl := Int.ofNat.inj hk'
      obtain ⟨_, ⟨hjoined⟩, hmatch⟩ := hother.back _ _ henters
      exact ⟨_, .otherwise hs hc hval hjoined, hmatch⟩
    · rw [if_neg hval] at hk'
      obtain rfl := Int.ofNat.inj hk'
      obtain ⟨_, ⟨hjoined⟩, hmatch⟩ := htaken.back _ _ henters
      exact ⟨_, .taken hs hc hval hjoined, hmatch⟩

/-- A single result is put into the result slot. -/
theorem corresponds_result {v : Value} {c : Constant} {span : Span} (hagree : f.Agrees args ρ σ)
    (hread : Scalar.operand σ x = (v.read args ρ).map fun c => (c, σ))
    (hc : v.read args ρ = some c) :
    f.Corresponds args (f.Runs R args k b [.return [v] span] ρ)
      (R.Runs g f.blocks.length [.assign ⟨0, 0⟩ (.use x) span] .return σ) := by
  have hmatch : f.Matches args (.returned ([v].map (Value.read args ρ)) ρ)
      (.returned (σ.set 0 (some c))) :=
    .returned (hagree.set_other (.inl rfl) _) fun _ => ⟨c, by simp [hc], by simp [Locals.set]⟩
  refine ⟨fun cs p hrun => ?_, fun cs q hrun => ?_⟩
  · cases hrun with
    | step hexec => cases hexec.not_exit
    | «return» => exact ⟨_, .returned (.cons ((exec_use hread).mpr ⟨c, hc, rfl⟩) .nil), hmatch⟩
  · cases hrun with
    | arrive _ ht | pass _ ht => cases ht
    | returned hsts =>
      cases hsts with
      | cons hst hnil =>
        cases hnil
        obtain ⟨c', hc', rfl⟩ := (exec_use hread).mp hst
        obtain rfl := Option.mem_unique hc hc'
        exact ⟨_, .return, hmatch⟩

section
variable (hf : f.WellFormed)
include hf

/-- The copies for the phi nodes of a block, in a block that goes there. -/
theorem Joins.corresponds (h : f.Joins L k s sts) (hs : s < f.blocks.length)
    (hagree : f.Agrees args ρ σ) :
    f.Corresponds args (f.Crosses args k s ρ) (R.Runs g f.blocks.length sts (.goto s) σ) := by
  have hb' : f.blocks[s]? = some f.blocks[s] := List.getElem?_eq_getElem hs
  constructor
  · rintro _ _ ⟨hjoined⟩
    obtain ⟨σ', hexec, hagree'⟩ := h.execAll hf hb' hagree hjoined
    exact ⟨.head s σ', .arrive hexec .goto hs, .head hagree'⟩
  · intro cs q hrun
    obtain ⟨σ', hexec, hgoto⟩ := runs_iff.mp hrun
    obtain ⟨ρ', hjoined, hagree'⟩ := h.joined hf hb' hagree hexec
    obtain ⟨cs₁, cs₂, k', σ'', hleaves, henters, rfl⟩ := hgoto.enters nofun nofun
    obtain ⟨rfl, hk', rfl⟩ : cs₁ = [] ∧ (k' : Int) = s ∧ σ'' = σ' := by
      generalize (k' : Int) = i at hleaves
      cases hleaves
      exact ⟨rfl, rfl, rfl⟩
    obtain rfl := Int.ofNat.inj hk'
    cases henters with
    | head => exact ⟨_, ⟨hjoined⟩, .head hagree'⟩
    | pass hlen => omega

/-- An edge without phi nodes changes nothing. -/
theorem joined_of_phisAt_eq_nil (hs : s < f.blocks.length) (hphis : f.phisAt s = []) (ρ : Regs) :
    f.Joined args k s ρ ρ := by
  have hb' : f.blocks[s]? = some f.blocks[s] := List.getElem?_eq_getElem hs
  rw [phisAt_eq hb'] at hphis
  refine ⟨_, hb', fun r edges hphi => ?_, fun _ _ => rfl⟩
  have hmem := hf.leading _ (List.mem_of_getElem? hb') r edges hphi
  rw [hphis] at hmem
  cases hmem

/-- An edge is followed directly, or through a block of its own. -/
theorem Leads.corresponds (h : f.Leads g.locals g.blocks k s target) (hs : s < f.blocks.length)
    (hagree : f.Agrees args ρ σ) :
    f.Corresponds args (f.Crosses args k s ρ) (R.Enters g f.blocks.length target σ) := by
  rcases h with ⟨rfl, hphis⟩ | ⟨sts, hlen, hblk, hjoins⟩
  · have hstay : f.Joined args k target ρ ρ := joined_of_phisAt_eq_nil hf hs hphis ρ
    constructor
    · rintro _ _ ⟨hjoined⟩
      obtain rfl := hjoined.unique hf hstay
      exact ⟨_, .head hs, .head hagree⟩
    · rintro cs q (_ | hlen)
      · exact ⟨_, ⟨hstay⟩, .head hagree⟩
      · omega
  · have hruns := hjoins.corresponds (R := R) (g := g) hf hs hagree
    constructor
    · intro cs p hp
      obtain ⟨q, hq, hmatch⟩ := hruns.forth cs p hp
      exact ⟨q, .pass hlen (NullPath.Function.block?_natCast.trans hblk) hq, hmatch⟩
    · rintro cs q (hlt | ⟨_, hblk', hrun⟩)
      · omega
      · rw [NullPath.Function.block?_natCast, hblk] at hblk'
        cases hblk'
        exact hruns.back cs q hrun

/-- The value of an operand is defined if its register is. -/
theorem WellFormed.exists_read {v : Value} (hx : f.operand v = .ok x)
    (hargs : args.length = f.params.length) (hcov : ρ.Covers D) (hv : ∀ n, v = .register n → n ∈ D)
    : ∃ c, v.read args ρ = some c := by
  rcases operand_eq_ok hx with ⟨c, t, rfl, hc⟩ | ⟨i, t, sort, hi, -, -, -⟩
  · obtain ⟨a, ha, -⟩ := exists_literal hc
    exact ⟨a, ha⟩
  · rcases hf.slot_cases hi with ⟨r, -, rfl, -, -⟩ | ⟨j, hj, rfl, -⟩
    · exact hcov _ (hv _ rfl)
    · exact ⟨args[j], List.getElem?_eq_getElem (by omega)⟩

/-- The arguments of a call have values if their registers are defined. -/
theorem WellFormed.exists_arguments {r : Register} {callee : Callee} {vs : List Value}
    (hargs : args.length = f.params.length) (hcov : ρ.Covers D) (hagree : f.Agrees args ρ σ)
    (huses : ∀ n, .register n ∈ (Instr.call r callee vs).uses → n ∈ D) :
    ∃ as, Scalar.operands σ (f.callParts callee vs).2 = some (as, σ) := by
  refine exists_operands fun x hx => ?_
  obtain ⟨v, hv, hvx⟩ := mem_callParts hx
  obtain ⟨a, ha⟩ := hf.exists_read hvx hargs hcov fun n hn => huses n (by simp [Instr.uses, ← hn, hv])
  exact ⟨a, by rw [hagree.operand hf hvx, ha]; rfl⟩

/-- After a call the local of its register holds the result, if there is one. -/
theorem Receives.agrees {r : Register} {dest : Nat} (h : f.Receives L r dest) (hr : r ∈ f.registers)
    (hagree : f.Agrees args ρ σ) (c : Constant) :
    f.Agrees args (ρ.set r.number c) (σ.set dest (some c)) := by
  rcases h with ⟨rfl, -⟩ | ⟨⟨err, herr⟩, hfix, -⟩
  · exact hagree.set hr c
  · exact (hagree.set_other (.inr (by exact_mod_cast hfix)) _).set_unsorted hf hr herr c

/-- The runs of the instructions that end a block, and those of their code. -/
theorem Codes.corresponds (h : f.Codes g.locals g.blocks k b rest sts t)
    (hscalar : ∀ i ∈ b.instrs, i.IsScalar) (hargs : args.length = f.params.length)
    {done : List Instr} (harr : f.Arrives k D) (hb : f.blocks[k]? = some b)
    (hsplit : b.instrs = done ++ rest) (hcov : ρ.Covers (D ∪ definedBy done))
    (hagree : f.Agrees args ρ σ) :
    f.Corresponds args (f.Runs R args k b rest ρ) (R.Runs g f.blocks.length sts t σ) := by
  have hmem := List.mem_of_getElem? hb
  induction h generalizing done ρ σ with
  | @emit i rest out sts t hi _ ih =>
    have hi' : i ∈ b.instrs := by simp [hsplit]
    have hsplit' : b.instrs = done ++ [i] ++ rest := by simpa using hsplit
    obtain ⟨hforth, hback⟩ := hi.exec (hscalar i hi') hf hagree hmem hi'
    refine ⟨fun cs p hrun => ?_, fun cs q hrun => ?_⟩
    · obtain ⟨cs₁, cs₂, ρ', hexec, hrest, rfl⟩ := hrun.cons hi.not_exit
      obtain ⟨rfl, σ', hout, hagree'⟩ := hforth _ _ hexec
      obtain ⟨q, hq, hmatch⟩ := (ih hsplit' (hexec.covers_snoc hcov) hagree').forth _ _ hrest
      exact ⟨q, runs_append.mpr ⟨σ', hout, hq⟩, hmatch⟩
    · obtain ⟨σ', hout, hsts⟩ := runs_append.mp hrun
      obtain ⟨ρ', hexec, hagree'⟩ := hback _ hout
      obtain ⟨p, hp, hmatch⟩ := (ih hsplit' (hexec.covers_snoc hcov) hagree').back _ _ hsts
      exact ⟨p, .step hexec hp, hmatch⟩
  | @call r callee vs rest dest next sts t hdest hlen hnext _ ih =>
    -- the code reads the arguments, so they must have values, which the call itself does not ask for
    obtain ⟨as, has⟩ := hf.exists_arguments hargs hcov hagree
      (hf.uses k D b harr hb done _ rest hsplit)
    have hexec : ∀ c, (Instr.call r callee vs).Exec R args ρ [c] (ρ.set r.number c) := .call
    have hi : .call r callee vs ∈ b.instrs := by simp [hsplit]
    exact corresponds_call has hlen hnext fun c => ih (by simpa using hsplit)
      ((hexec c).covers_snoc hcov) (hdest.agrees hf (mem_registers hmem hi rfl) hagree c)
  | @jump s sts hs hjoins =>
    have hedge := hjoins.corresponds (R := R) (g := g) hf (hf.inside b hmem s (by simp [hs])) hagree
    refine ⟨fun cs p hrun => hedge.forth cs p ?_, fun cs q hrun => ?_⟩
    · cases hrun with
      | step hexec => cases hexec.not_exit
      | jump hs' hjoined =>
        obtain rfl := List.singleton_inj.mp (hs.symm.trans hs')
        exact ⟨hjoined⟩
    · obtain ⟨_, ⟨hjoined⟩, hmatch⟩ := hedge.back cs q hrun
      exact ⟨_, .jump hs hjoined, hmatch⟩
  | @branch v x s s' taken otherwise hs hx htaken hother =>
    exact corresponds_branch hs (hagree.operand hf hx)
      (htaken.corresponds hf (hf.inside b hmem s (by simp [hs])) hagree)
      (hother.corresponds hf (hf.inside b hmem s' (by simp [hs])) hagree)
  | @result v x span hx =>
    have huses := hf.uses k D b harr hb done _ [] hsplit
    obtain ⟨c, hc⟩ := hf.exists_read hx hargs hcov fun n hn => huses n (by simp [Instr.uses, ← hn])
    exact corresponds_result hagree (hagree.operand hf hx) hc
  | @results vs span hvs =>
    have hmatch : f.Matches args (.returned (vs.map (Value.read args ρ)) ρ) (.returned σ) :=
      .returned hagree fun hone => absurd (by simpa using hone) hvs
    refine ⟨fun cs p hrun => ?_, fun cs q hrun => ?_⟩
    · cases hrun with
      | step hexec => cases hexec.not_exit
      | «return» => exact ⟨_, .returned .nil, hmatch⟩
    · cases hrun with
      | arrive _ ht | pass _ ht => cases ht
      | returned hsts =>
        cases hsts
        exact ⟨_, .return, hmatch⟩
  | panic =>
    refine ⟨fun cs p hrun => ?_, fun cs q hrun => ?_⟩
    · cases hrun with
      | step hexec => cases hexec.not_exit
      | panic => exact ⟨_, .stopped .nil, .panicked hagree⟩
    · cases hrun with
      | arrive _ ht | pass _ ht => cases ht
      | stopped hsts =>
        cases hsts
        exact ⟨_, .panic, .panicked hagree⟩

end

/-! ## Runs -/

/-- At the entry the parameters hold the arguments, and the registers hold nothing. -/
theorem agrees_entry (hargs : args.length = f.params.length) :
    f.Agrees args (fun _ => none) (entryLocals args) where
  params i hi := by
    have hindex : (((i + 1 : Nat) : Int) - 1).toNat = i := by omega
    rw [entryLocals, if_pos (by omega), hindex]
  registers r hr hs := by
    obtain ⟨j, r', -, -, hj⟩ := slot?_register (exists_slot hr)
    rw [entryLocals, if_pos (by omega), List.getElem?_eq_none_iff]
    omega

variable {ks : List Nat}

/-- The runs of a function, and those of its lowered form. -/
theorem Coded.corresponds (hg : f.Coded g) (hf : f.WellFormed)
    (hscalar : ∀ b ∈ f.blocks, ∀ i ∈ b.instrs, i.IsScalar) (hargs : args.length = f.params.length) :
    f.Corresponds args (f.Reaches R args ks) (R.Reaches g f.blocks.length args ks) := by
  have hcodes : ∀ {ks cs k ρ b σ}, f.Reaches R args ks cs (.head k ρ) → f.blocks[k]? = some b →
      f.Agrees args ρ σ → ∃ sts t, g.block? k = some ⟨sts, t⟩ ∧
        f.Corresponds args (f.Runs R args k b b.instrs ρ) (R.Runs g f.blocks.length sts t σ) := by
    intro ks cs k ρ b σ hreach hb hagree
    obtain ⟨D, harr, hcov⟩ := hreach.covers
    obtain ⟨sts, t, hblk, hcodes⟩ := hg.blocks k b hb
    refine ⟨sts, t, NullPath.Function.block?_natCast.trans hblk, ?_⟩
    exact hcodes.corresponds hf (hscalar b (List.mem_of_getElem? hb)) hargs harr hb
      (List.nil_append _).symm (by simpa [definedBy] using hcov) hagree
  constructor
  · intro cs p h
    induction h with
    | start => exact ⟨_, .start, .head (agrees_entry hargs)⟩
    | step hreach hb hrun ih =>
      obtain ⟨q, hq, ⟨hagree⟩⟩ := ih
      obtain ⟨sts, t, hblk, hruns⟩ := hcodes hreach hb hagree
      obtain ⟨q', hq', hmatch⟩ := hruns.forth _ _ hrun
      exact ⟨q', .step hq hblk hq', hmatch⟩
  · intro cs q h
    induction h with
    | start => exact ⟨_, .start, .head (agrees_entry hargs)⟩
    | step _ hblk hrun ih =>
      obtain ⟨p, hp, ⟨hagree⟩⟩ := ih
      obtain ⟨b, hb⟩ := hp.exists_block hg.nonempty
      obtain ⟨sts, t, hblk', hruns⟩ := hcodes hp hb hagree
      cases hblk'.symm.trans hblk
      obtain ⟨p', hp', hmatch⟩ := hruns.back _ _ hrun
      exact ⟨p', .step hp hb hp', hmatch⟩

/-- Lowering preserves meaning: on the same arguments, and if calls return the same values, the
function and its lowered form visit the same blocks in the same order and come to the same point, with
the same values in registers and locals. -/
theorem lowered_reaches (hf : f.WellFormed) (hlower : f.lower = .ok g)
    (hscalar : ∀ b ∈ f.blocks, ∀ i ∈ b.instrs, i.IsScalar) (hargs : args.length = f.params.length)
    (R : Reading) (ks : List Nat) (cs : List Constant) :
    (∀ p, f.Reaches R args ks cs p →
      ∃ q, R.Reaches g f.blocks.length args ks cs q ∧ f.Matches args p q) ∧
    ∀ q, R.Reaches g f.blocks.length args ks cs q →
      ∃ p, f.Reaches R args ks cs p ∧ f.Matches args p q := by
  have hg := coded_of_lower hlower hf.ends hf.inside
  obtain ⟨hforth, hback⟩ : f.Corresponds args (f.Reaches R args ks) _ :=
    hg.corresponds hf hscalar hargs
  exact ⟨hforth cs, hback cs⟩

/-! ## A loop that swaps two values -/

/-- Calls a function and swaps two values by phi nodes, until the call returns no less than the first of
them. -/
def swapLoop : Function where
  name := "swap"
  results := [.basic "int"]
  params := [⟨"x", .basic "int"⟩]
  blocks := [
    ⟨[.jump], [], [1]⟩,
    ⟨[.phi ⟨0, .basic "int", {}⟩ [.parameter 0, .register 1],
      .phi ⟨1, .basic "int", {}⟩ [.const (.int 0) (.basic "int"), .register 0],
      .phi ⟨2, .basic "bool", {}⟩ [.const (.bool true) (.basic "bool"), .register 4],
      .branch (.register 2)], [0, 2], [2, 3]⟩,
    ⟨[.call ⟨3, .basic "int", {}⟩ (.static "observe") [.register 0],
      .binary ⟨4, .basic "bool", {}⟩ "<" (.register 3) (.register 0),
      .jump], [1], [1]⟩,
    ⟨[.return [.register 0] {}], [1], []⟩]

theorem wellFormed_swapLoop : swapLoop.WellFormed :=
  wellFormed_of_sane (fun k => if k = 0 then [] else [0, 1, 2]) (by decide)

theorem lower_swapLoop : swapLoop.lower = .ok swapLoop.code := by decide +kernel

/-- With argument 5, and if the call returns 7, the loop swaps once and returns zero. -/
theorem reaches_swapLoop : ∃ ρ, swapLoop.Reaches .standard [.ofInt 5] [0, 1, 2, 1, 3] [.ofInt 7]
    (.returned [some (.ofInt 0)] ρ) := by
  have hf := wellFormed_swapLoop
  have h₀ : swapLoop.Reaches .standard [.ofInt 5] [] [] _ := .start
  have h₁ := h₀.step rfl (.jump rfl (joined_carried hf rfl rfl (by simp [Value.read, Literal.value?])))
  have h₂ := h₁.step rfl (.step .phi (.step .phi (.step .phi (.taken rfl rfl (by decide)
    (joined_carried hf rfl rfl (by simp))))))
  have h₃ := h₂.step rfl (.step (.call (.ofInt 7)) (.step (.compute rfl
    (.binary (o := .lt) rfl rfl rfl rfl)) (.jump rfl (joined_carried hf rfl rfl (by
      simp [Value.read, Literal.value?, Regs.set, carried])))))
  have h₄ := h₃.step rfl (.step .phi (.step .phi (.step .phi (.otherwise rfl rfl rfl
    (joined_carried hf rfl rfl (by simp))))))
  obtain ⟨ρ, hzero, h⟩ : ∃ ρ, ρ 0 = some (.ofInt 0) ∧
      swapLoop.Reaches .standard [.ofInt 5] [0, 1, 2, 1] [.ofInt 7] (.head 3 ρ) :=
    ⟨_, by simp [carried, Regs.set, Value.read, Literal.value?], h₄⟩
  have h₅ := h.step rfl .return
  rw [List.map, Value.read, hzero] at h₅
  exact ⟨ρ, h₅⟩

theorem reaches_swapLoop_code : ∃ ρ q,
    swapLoop.Reaches .standard [.ofInt 5] [0, 1, 2, 1, 3] [.ofInt 7] (.returned [some (.ofInt 0)] ρ) ∧
      Reading.standard.Reaches swapLoop.code 4 [.ofInt 5] [0, 1, 2, 1, 3] [.ofInt 7] q ∧
      swapLoop.Matches [.ofInt 5] (.returned [some (.ofInt 0)] ρ) q := by
  obtain ⟨ρ, h⟩ := reaches_swapLoop
  obtain ⟨q, hq⟩ := (lowered_reaches wellFormed_swapLoop lower_swapLoop
    (by simp [swapLoop, Instr.IsScalar]) rfl .standard _ _).1 _ h
  exact ⟨ρ, q, h, hq⟩

end Function
end Ssa
end NullPath
