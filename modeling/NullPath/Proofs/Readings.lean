import NullPath.Proofs.Scalar

/-!
# Running control-flow graphs under a reading of the operators

What operators and conversions do to values is left to a reading, which may also give no value.  A
call returns any value; the values that calls have returned are recorded.  A run is observed at the
blocks below a number and goes through the others on its way.

* `Reading.Exec`, `Reading.ExecAll`: statements.
* `Reading.Runs`: from the code of a block to the next observed block, or to the end.
* `Reading.Reaches`: runs from the entry.
-/

namespace NullPath

open Scalar (Locals)

/-- What operators and conversions do to values. -/
structure Reading where
  binary : SourceBinOp → Constant → Constant → Option Constant
  unary : SourceUnOp → Constant → Option Constant
  cast : Ty → Constant → Option Constant

namespace Reading

/-- The reading of integers without bounds and of truth values. -/
def standard : Reading :=
  ⟨SourceBinOp.value?, SourceUnOp.value?, Ty.castValue?⟩

/-- The value of a right-hand side, and the locals after it has been read. -/
def rvalue (R : Reading) (σ : Locals) : Rvalue → Option (Constant × Locals)
  | .use x => Scalar.operand σ x
  | .binary op l r => do
    let (a, σ) ← Scalar.operand σ l
    let (b, σ) ← Scalar.operand σ r
    let c ← R.binary op a b
    return (c, σ)
  | .unary op x => do
    let (a, σ) ← Scalar.operand σ x
    let c ← R.unary op a
    return (c, σ)
  | .cast x t => do
    let (a, σ) ← Scalar.operand σ x
    let c ← R.cast t a
    return (c, σ)
  | .ref _ | .missing => none

section
variable {R : Reading} {σ τ : Locals} {x y : Operand} {a? b? : Option Constant} {c : Constant}

variable (hx : Scalar.operand σ x = a?.map fun a => (a, σ))
include hx

/-- A binary operation on operands that move nothing. -/
theorem rvalue_binary (hy : Scalar.operand σ y = b?.map fun b => (b, σ)) (op : SourceBinOp) :
    R.rvalue σ (.binary op x y) = some (c, τ) ↔
      ∃ a b, a? = some a ∧ b? = some b ∧ R.binary op a b = some c ∧ σ = τ := by
  cases a? with
  | none => simp [rvalue, hx]
  | some a =>
    cases b? with
    | none => simp [rvalue, hx, hy]
    | some b => simp [rvalue, hx, hy, Option.bind_eq_some_iff]

theorem rvalue_unary (op : SourceUnOp) : R.rvalue σ (.unary op x) = some (c, τ) ↔
      ∃ a, a? = some a ∧ R.unary op a = some c ∧ σ = τ := by
  cases a? <;> simp [rvalue, hx, Option.bind_eq_some_iff]

theorem rvalue_cast (t : Ty) :
    R.rvalue σ (.cast x t) = some (c, τ) ↔ ∃ a, a? = some a ∧ R.cast t a = some c ∧ σ = τ := by
  cases a? <;> simp [rvalue, hx, Option.bind_eq_some_iff]

end

/-- Executing a statement.  New storage holds any value. -/
inductive Exec (R : Reading) : Statement → Locals → Locals → Prop
  | assign {i : Int} {rv : Rvalue} {span : Span} {σ σ' : Locals} {c : Constant} :
    R.rvalue σ rv = some (c, σ') → Exec R (.assign ⟨i, 0⟩ rv span) σ (σ'.set i (some c))
  | live {i : Int} {σ : Locals} {c : Constant} : Exec R (.storageLive i) σ (σ.set i (some c))
  | dead {i : Int} {σ : Locals} : Exec R (.storageDead i) σ (σ.set i none)
  | nop {σ : Locals} : Exec R .nop σ σ

/-- Executing statements in order. -/
inductive ExecAll (R : Reading) : List Statement → Locals → Locals → Prop
  | nil {σ : Locals} : ExecAll R [] σ σ
  | cons {st : Statement} {sts : List Statement} {σ σ' σ'' : Locals} :
    R.Exec st σ σ' → ExecAll R sts σ' σ'' → ExecAll R (st :: sts) σ σ''

/-- Where a terminator leads, and what a call has returned. -/
inductive Leaves : Terminator → Locals → List Constant → Int → Locals → Prop
  | goto {t : Int} {σ : Locals} : Leaves (.goto t) σ [] t σ
  | switch {x : Operand} {values targets : List Int} {span : Span} {σ σ' : Locals} {c : Constant}
    {i : Nat} {t : Int} : targets.length = values.length + 1 → Scalar.operand σ x = some (c, σ') →
    switchTakes c values i → targets[i]? = some t →
    Leaves (.switch x values targets span) σ [] t σ'
  | assert {x : Operand} {expected : Bool} {t : Int} {span : Span} {σ σ' : Locals} :
    Scalar.operand σ x = some (.ofBool expected, σ') → Leaves (.assert x expected t span) σ [] t σ'
  | call {callee : String} {args : List Operand} {i next : Int} {span : Span} {σ σ' : Locals}
    {cs : List Constant} (c : Constant) : Scalar.operands σ args = some (cs, σ') →
    Leaves (.call callee args (some ⟨i, 0⟩) next span) σ [c] next (σ'.set i (some c))

/-- How far a run has come: it stands at an observed block, or it has ended. -/
inductive Point
  | head (block : Nat) (locals : Locals)
  | returned (locals : Locals)
  | stopped (locals : Locals)

/-- Executing statements and a terminator, and further blocks up to the next one below a number. -/
inductive Runs (R : Reading) (g : Function) (heads : Nat) :
    List Statement → Terminator → Locals → List Constant → Point → Prop
  | arrive {sts : List Statement} {t : Terminator} {σ σ' σ'' : Locals} {cs : List Constant} {k : Nat} :
    R.ExecAll sts σ σ' → Leaves t σ' cs k σ'' → k < heads → Runs R g heads sts t σ cs (.head k σ'')
  | pass {sts sts' : List Statement} {t t' : Terminator} {σ σ' σ'' : Locals} {cs cs' : List Constant}
    {k : Nat} {p : Point} : R.ExecAll sts σ σ' → Leaves t σ' cs k σ'' → heads ≤ k →
    g.block? k = some ⟨sts', t'⟩ → Runs R g heads sts' t' σ'' cs' p →
    Runs R g heads sts t σ (cs ++ cs') p
  | returned {sts : List Statement} {σ σ' : Locals} : R.ExecAll sts σ σ' →
    Runs R g heads sts .return σ [] (.returned σ')
  | stopped {sts : List Statement} {σ σ' : Locals} : R.ExecAll sts σ σ' →
    Runs R g heads sts .unreachable σ [] (.stopped σ')

/-- A run that has come to a block is observed there, or goes on. -/
inductive Enters (R : Reading) (g : Function) (heads k : Nat) (σ : Locals) :
    List Constant → Point → Prop
  | head : k < heads → Enters R g heads k σ [] (.head k σ)
  | pass {sts : List Statement} {t : Terminator} {cs : List Constant} {p : Point} : heads ≤ k →
    g.block? k = some ⟨sts, t⟩ → R.Runs g heads sts t σ cs p → Enters R g heads k σ cs p

/-- The locals at the entry: the parameters hold the arguments. -/
def entryLocals (args : List Constant) : Locals :=
  fun i => if 1 ≤ i then args[(i - 1).toNat]? else none

/-- A run on arguments has visited observed blocks in order, calls have returned some values, and the
run has come to a point. -/
inductive Reaches (R : Reading) (g : Function) (heads : Nat) (args : List Constant) :
    List Nat → List Constant → Point → Prop
  | start : Reaches R g heads args [] [] (.head 0 (entryLocals args))
  | step {ks : List Nat} {cs cs' : List Constant} {k : Nat} {σ : Locals} {sts : List Statement}
    {t : Terminator} {p : Point} : Reaches R g heads args ks cs (.head k σ) →
    g.block? k = some ⟨sts, t⟩ → R.Runs g heads sts t σ cs' p →
    Reaches R g heads args (ks ++ [k]) (cs ++ cs') p

variable {R : Reading} {g : Function} {heads : Nat} {sts sts' : List Statement} {t : Terminator}
  {σ σ' : Locals} {cs : List Constant} {p : Point}

theorem execAll_append {σ'' : Locals} :
    R.ExecAll (sts ++ sts') σ σ'' ↔ ∃ σ', R.ExecAll sts σ σ' ∧ R.ExecAll sts' σ' σ'' := by
  induction sts generalizing σ with
  | nil =>
    constructor
    · intro h
      exact ⟨σ, .nil, h⟩
    · rintro ⟨σ', hnil, h⟩
      cases hnil
      exact h
  | cons st sts ih =>
    constructor
    · intro h
      cases h with
      | cons hst hsts =>
        obtain ⟨σ', h₁, h₂⟩ := ih.mp hsts
        exact ⟨σ', .cons hst h₁, h₂⟩
    · rintro ⟨σ', h₁, h₂⟩
      cases h₁ with
      | cons hst hsts => exact .cons hst (ih.mpr ⟨σ', hsts, h₂⟩)

/-- The statements at the front of a block can be executed first. -/
theorem runs_append : R.Runs g heads (sts ++ sts') t σ cs p ↔
    ∃ σ', R.ExecAll sts σ σ' ∧ R.Runs g heads sts' t σ' cs p := by
  constructor
  · intro h
    cases h with
    | arrive hsts ht hk =>
      obtain ⟨σ', h₁, h₂⟩ := execAll_append.mp hsts
      exact ⟨σ', h₁, .arrive h₂ ht hk⟩
    | pass hsts ht hk hblk hrest =>
      obtain ⟨σ', h₁, h₂⟩ := execAll_append.mp hsts
      exact ⟨σ', h₁, .pass h₂ ht hk hblk hrest⟩
    | returned hsts =>
      obtain ⟨σ', h₁, h₂⟩ := execAll_append.mp hsts
      exact ⟨σ', h₁, .returned h₂⟩
    | stopped hsts =>
      obtain ⟨σ', h₁, h₂⟩ := execAll_append.mp hsts
      exact ⟨σ', h₁, .stopped h₂⟩
  · rintro ⟨σ', h₁, h⟩
    cases h with
    | arrive hsts ht hk => exact .arrive (execAll_append.mpr ⟨σ', h₁, hsts⟩) ht hk
    | pass hsts ht hk hblk hrest => exact .pass (execAll_append.mpr ⟨σ', h₁, hsts⟩) ht hk hblk hrest
    | returned hsts => exact .returned (execAll_append.mpr ⟨σ', h₁, hsts⟩)
    | stopped hsts => exact .stopped (execAll_append.mpr ⟨σ', h₁, hsts⟩)

theorem runs_iff : R.Runs g heads sts t σ cs p ↔
    ∃ σ', R.ExecAll sts σ σ' ∧ R.Runs g heads [] t σ' cs p := by
  rw [← runs_append, List.append_nil]

theorem Leaves.runs {k : Nat} {cs' : List Constant} (h : Leaves t σ cs k σ')
    (henters : R.Enters g heads k σ' cs' p) : R.Runs g heads [] t σ (cs ++ cs') p := by
  cases henters with
  | head hk =>
    rw [List.append_nil]
    exact .arrive .nil h hk
  | pass hk hblk hrun => exact .pass .nil h hk hblk hrun

theorem Runs.enters (h : R.Runs g heads [] t σ cs p) (hreturn : t ≠ .return)
    (hstop : t ≠ .unreachable) : ∃ cs₁ cs₂ k σ', Leaves t σ cs₁ (k : Nat) σ' ∧
      R.Enters g heads k σ' cs₂ p ∧ cs = cs₁ ++ cs₂ := by
  cases h with
  | arrive hsts ht hk =>
    cases hsts
    exact ⟨_, [], _, _, ht, .head hk, (List.append_nil _).symm⟩
  | pass hsts ht hk hblk hrun =>
    cases hsts
    exact ⟨_, _, _, _, ht, .pass hk hblk hrun, rfl⟩
  | returned => exact absurd rfl hreturn
  | stopped => exact absurd rfl hstop

/-- An assignment to a local. -/
theorem execAll_assign {i : Int} {rv : Rvalue} {span : Span} :
    R.ExecAll [.assign ⟨i, 0⟩ rv span] σ σ' ↔
      ∃ c τ, R.rvalue σ rv = some (c, τ) ∧ σ' = τ.set i (some c) := by
  constructor
  · intro h
    cases h with
    | cons hst hnil =>
      cases hnil
      cases hst with
      | assign hrv => exact ⟨_, _, hrv, rfl⟩
  · rintro ⟨c, τ, hrv, rfl⟩
    exact .cons (.assign hrv) .nil

/-- A switch with a single value takes the first target if the operand is zero or false. -/
theorem switchTakes_zero {c : Constant} {i : Nat} :
    switchTakes c [0] i ↔ if c.value = 0 then i = 0 else i = 1 := by
  have hzero : switchMatches c 0 ↔ c.value = 0 := by
    unfold switchMatches
    split <;> simp [Constant.ofBool, Constant.ofInt]
  by_cases hc : c.value = 0
  · simp only [switchTakes, List.mem_singleton, forall_eq, hzero, hc, not_true_eq_false, and_false,
      or_false, if_true]
    constructor
    · rintro ⟨v, hv, -⟩
      have := lt_length_of_getElem? hv
      simp only [List.length_singleton] at this
      omega
    · rintro rfl
      exact ⟨0, rfl, hzero.mpr hc⟩
  · simp only [switchTakes, List.mem_singleton, forall_eq, hzero, hc, not_false_eq_true, and_true,
      if_false, List.length_singleton]
    constructor
    · rintro (⟨v, hv, hmatch⟩ | hi)
      · obtain rfl : v = 0 := by
          simpa using List.mem_of_getElem? hv
        exact absurd (hzero.mp hmatch) hc
      · exact hi
    · exact .inr

/-- A switch that tells zero from the other values. -/
theorem leaves_switch {x : Operand} {a? : Option Constant} {o s : Nat} {span : Span} {i : Int}
    (hx : Scalar.operand σ x = a?.map fun a => (a, σ)) :
    Leaves (.switch x [0] [o, s] span) σ cs i σ' ↔
      ∃ c, a? = some c ∧ cs = [] ∧ σ' = σ ∧ i = if c.value = 0 then (o : Int) else s := by
  constructor
  · intro h
    cases h with
    | @switch _ _ _ _ _ _ c j _ _ hread htakes htarget =>
      rw [hx, Option.map_eq_some_iff] at hread
      obtain ⟨a, ha, heq⟩ := hread
      obtain ⟨rfl, rfl⟩ := Prod.mk.inj heq
      rw [switchTakes_zero] at htakes
      refine ⟨a, ha, rfl, rfl, ?_⟩
      by_cases hc : a.value = 0
      · rw [if_pos hc] at htakes ⊢
        subst htakes
        exact (Option.some.inj htarget).symm
      · rw [if_neg hc] at htakes ⊢
        subst htakes
        exact (Option.some.inj htarget).symm
  · rintro ⟨c, rfl, rfl, rfl, rfl⟩
    by_cases hc : c.value = 0
    · rw [if_pos hc]
      exact .switch rfl hx (switchTakes_zero.mpr (by rw [if_pos hc])) rfl
    · rw [if_neg hc]
      exact .switch rfl hx (switchTakes_zero.mpr (by rw [if_neg hc])) rfl

/-- Operands that move nothing leave the locals as they are. -/
theorem exists_operands {xs : List Operand}
    (h : ∀ x ∈ xs, ∃ a, Scalar.operand σ x = some (a, σ)) :
    ∃ cs, Scalar.operands σ xs = some (cs, σ) := by
  induction xs with
  | nil => exact ⟨[], rfl⟩
  | cons x xs ih =>
    rw [List.forall_mem_cons] at h
    obtain ⟨⟨a, ha⟩, hrest⟩ := h
    obtain ⟨cs, hcs⟩ := ih hrest
    exact ⟨a :: cs, by simp [Scalar.operands, ha, hcs]⟩

end Reading
end NullPath
