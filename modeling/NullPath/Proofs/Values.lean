import NullPath.Explore.Step
import NullPath.Proofs.Folding

/-!
# Operators of source code on concrete values

A concrete run computes with literals: integers of any size and truth values.  The operators of
source code are those of the evaluator, chosen by the sort of their operands.  An operation on
operands of other sorts, and a division by zero, has no value.

Exploration turns the same operations into terms.  The value of the term, in any model, is the
result of the operation on the values of its operands, and it exists exactly if the operation has
one.

* `SourceBinOp.operator?`: the operator of the evaluator for operands of a sort.
* `SourceBinOp.value?`, `SourceUnOp.value?`, `Ty.castValue?`, `Ty.literal?`: concrete results.
* `SourceBinOp.eval_term`, `SourceUnOp.eval_term`, `Ty.eval_castTerm`: the values of the terms.
* `switchMatches`, `switchTakes`: where a switch goes.
* `satisfies_switchGuards`: the guards of a switch tell where it goes.
* `satisfies_assert`: what an assertion records tells that it does not fail.
-/

namespace NullPath

open Expr

/-- The operator that a binary operation stands for, on operands of one sort. -/
def SourceBinOp.operator? : SourceBinOp → ExprSort → Option BinOp
  | .eq, _ => some .eq
  | .ne, _ => some .ne
  | .bitAnd, .bool => some .and
  | .bitOr, .bool => some .or
  | .bitXor, .bool => some .ne
  | .add, .int | .offset, .int => some .add
  | .sub, .int => some .sub
  | .mul, .int => some .mul
  | .div, .int => some .div
  | .rem, .int => some .mod
  | .lt, .int => some .lt
  | .le, .int => some .le
  | .gt, .int => some .gt
  | .ge, .int => some .ge
  | _, _ => none

/-- The result of a binary operation.  There is none on operands of different sorts, or where the
divisor is zero. -/
def SourceBinOp.value? (op : SourceBinOp) (x y : Constant) : Option Constant :=
  if x.sort = y.sort then
    match op.operator? x.sort with
    | some o => (o.apply x y).toOption
    | none => none
  else none

/-- The result of a unary operation. -/
def SourceUnOp.value? (op : SourceUnOp) (x : Constant) : Option Constant :=
  match op, x.sort with
  | .not, .bool => some x.not
  | .neg, .int => some x.neg
  | _, _ => none

/-- The result of a conversion: a truth value becomes 0 or 1, and a number is true if it is not
zero. -/
def Ty.castValue? (t : Ty) (x : Constant) : Option Constant :=
  match t.sort with
  | .error _ => none
  | .ok s =>
    some (if x.sort = s then x
      else if x.sort = .bool then .ofInt (if x.isTrue then 1 else 0)
      else .ofBool (x.value != 0))

/-- The value of a number written in source code, as a value of a type. -/
def Ty.literal? (t : Ty) (v : Int) : Option Constant :=
  match t.sort with
  | .error _ => none
  | .ok s => some (if s = .bool then .ofBool (v != 0) else .ofInt v)

/-- Whether a switch on a value goes to the target of a number.  A truth value is compared with
the number as a truth value. -/
def switchMatches (d : Constant) (v : Int) : Prop :=
  d.value = (if d.sort = .bool then Constant.ofBool (v != 0) else Constant.ofInt v).value

instance (d : Constant) (v : Int) : Decidable (switchMatches d v) :=
  inferInstanceAs (Decidable (_ = _))

variable {D : Scope} {m : Model} {a b t g : Expr} {x y : Constant} {op : SourceBinOp}
  {values : List Int} {i : Nat}

/-! ## Binary operations -/

/-- A binary operation stands for an operator, and the term has the value of this operator on the
values of the operands. -/
structure SourceBinOp.StandsFor (op : SourceBinOp) (D : Scope) (a b t : Expr) (o : BinOp) : Prop where
  operator : op.operator? a.sort = some o
  sort_eq : a.sort = b.sort
  hasSort : t.HasSort D o.resultSort
  divisionFree : op ≠ .div → op ≠ .rem → a.DivisionFree → b.DivisionFree → t.DivisionFree
  eval : ∀ m : Model, m.Exact D → ∀ x y, a.eval m = .ok x → b.eval m = .ok y →
    t.eval m = o.apply x y

theorem SourceBinOp.eval_term (h : op.term a b = .ok t) (ha : a.Sorted D) (hb : b.Sorted D) :
    ∃ o, op.StandsFor D a b t o := by
  unfold SourceBinOp.term at h
  split at h
  · cases h
  · next hsort =>
    have hsort : a.sort = b.sort := (Decidable.not_not.mp hsort).symm
    have ha' : a.HasSort D a.sort := ⟨ha, rfl⟩
    have hb' : b.HasSort D a.sort := ⟨hb, hsort.symm⟩
    have heq : ∀ m, m.Exact D → ∀ x y, a.eval m = .ok x → b.eval m = .ok y →
        (mkEq a b).eval m = .ok (x.eq y) :=
      fun m hm x y hx hy => eval_mkEq hx hy ha hb hm.sorts.suits hsort
    have hne : op.operator? a.sort = some .ne →
        op.StandsFor D a b (mkNot (mkEq a b)) .ne := fun ho =>
      ⟨ho, hsort, (ha'.mkEq hb').mkNot, fun _ _ h₁ h₂ => (h₁.mkEq h₂).mkNot, fun m hm x y hx hy =>
        eval_mkNot (ha'.mkEq hb').sorted hm.sorts.suits (heq m hm x y hx hy)⟩
    split at h
    · cases h
      exact ⟨.eq, rfl, hsort, ha'.mkEq hb', fun _ _ h₁ h₂ => h₁.mkEq h₂, heq⟩
    · cases h
      exact ⟨.ne, hne rfl⟩
    · split at h
      · next hbool =>
        have ha₁ : a.HasSort D .bool := ⟨ha, hbool⟩
        have hb₁ : b.HasSort D .bool := ⟨hb, hsort.symm.trans hbool⟩
        split at h
        · cases h
          exact ⟨.and, by rw [hbool]; rfl, hsort, ha₁.mkAnd hb₁, fun _ _ h₁ h₂ => h₁.mkAnd h₂,
            fun m hm x y hx hy =>
              eval_mkAnd hx hy (ha₁.eval hm.respects hx) (hb₁.eval hm.respects hy)⟩
        · cases h
          exact ⟨.or, by rw [hbool]; rfl, hsort, ha₁.mkOr hb₁, fun _ _ h₁ h₂ => h₁.mkOr h₂,
            fun m hm x y hx hy =>
              eval_mkOr hx hy (ha₁.eval hm.respects hx) (hb₁.eval hm.respects hy)⟩
        · cases h
          exact ⟨.ne, hne (by rw [hbool]; rfl)⟩
        · cases h
      · next hbool =>
        have hint : a.sort = .int := ha.sort_cases.resolve_right hbool
        have ha₁ : a.HasSort D .int := ⟨ha, hint⟩
        have hb₁ : b.HasSort D .int := ⟨hb, hsort.symm.trans hint⟩
        have hacc : a.sort = .int ∧ b.sort = .int := ⟨hint, hb₁.sort_eq⟩
        have harith : ∀ o, o.isArithmetic = true → op.operator? .int = some o →
            op.StandsFor D a b (mkArith o a b) o := by
          intro o ho hop
          refine ⟨hint ▸ hop, hsort, ?_, fun h₁ h₂ => ?_, fun m hm x y hx hy =>
            eval_mkArith hx hy o (ha₁.eval hm.respects hx) (hb₁.eval hm.respects hy)⟩
          · rw [BinOp.resultSort, if_pos ho]
            exact ha₁.mkArith ho hb₁
          · refine fun h₃ h₄ => .mkArith h₃ h₄ ho ?_ ?_
            all_goals
              rintro rfl
              cases op <;> simp_all [operator?]
        split at h
        case h_1 | h_2 | h_3 | h_4 | h_5 | h_6 =>
          cases h
          exact ⟨_, harith _ rfl rfl⟩
        case h_7 | h_8 =>
          cases h
          exact ⟨_, hint ▸ rfl, hsort, .mkCompare ha hb hacc,
            fun _ _ h₁ h₂ => .mkCompare h₁ h₂ (by simp),
            fun m _ x y hx hy => eval_mkCompare hx hy _⟩
        case h_9 =>
          -- a greater-than comparison is the turned comparison
          cases h
          exact ⟨.gt, hint ▸ rfl, hsort, .mkCompare hb ha hacc.symm,
            fun _ _ h₁ h₂ => .mkCompare h₂ h₁ (by simp),
            fun m _ x y hx hy => eval_mkCompare hy hx .lt⟩
        case h_10 =>
          cases h
          exact ⟨.ge, hint ▸ rfl, hsort, .mkCompare hb ha hacc.symm,
            fun _ _ h₁ h₂ => .mkCompare h₂ h₁ (by simp),
            fun m _ x y hx hy => eval_mkCompare hy hx .le⟩
        case h_11 => cases h

/-- The result of a binary operation is the value of its term. -/
theorem SourceBinOp.value?_eq_eval (h : op.term a b = .ok t) (ha : a.Sorted D) (hb : b.Sorted D)
    (hm : m.Exact D) (hx : a.eval m = .ok x) (hy : b.eval m = .ok y) :
    op.value? x y = (t.eval m).toOption := by
  obtain ⟨o, ho, hsort, -, -, heval⟩ := op.eval_term h ha hb
  have hxs := (ha.hasSort hm.respects hx).sort_eq
  have hys := (hb.hasSort hm.respects hy).sort_eq
  rw [value?, hxs, hys, if_pos hsort, ho, heval m hm x y hx hy]

/-! ## Unary operations, conversions and literals -/

theorem SourceUnOp.eval_term {op : SourceUnOp} (h : op.term a = .ok t) (ha : a.Sorted D) :
    t.HasSort D t.sort ∧ (a.DivisionFree → t.DivisionFree) ∧
      ∀ m, m.Exact D → ∀ x, a.eval m = .ok x →
        ∃ c, t.eval m = .ok c ∧ op.value? x = some c := by
  unfold SourceUnOp.term at h
  split at h
  · next hsort =>
    cases h
    have ha' : a.HasSort D .bool := ⟨ha, hsort⟩
    refine ⟨⟨ha'.mkNot.sorted, rfl⟩, fun hd => hd.mkNot, fun m hm x hx => ?_⟩
    have hxs : x.sort = .bool := (ha'.eval hm.respects hx).sort_eq
    refine ⟨x.not, eval_mkNot ha hm.sorts.suits hx, ?_⟩
    simp only [value?, hxs]
  · next hsort =>
    cases h
    have ha' : a.HasSort D .int := ⟨ha, hsort⟩
    refine ⟨⟨ha'.mkNeg.sorted, rfl⟩, fun hd => hd.mkNeg, fun m hm x hx => ?_⟩
    have hxs : x.sort = .int := (ha'.eval hm.respects hx).sort_eq
    refine ⟨x.neg, eval_mkNeg ha hm.respects hx, ?_⟩
    simp only [value?, hxs]
  · cases h

theorem Ty.eval_castTerm {ty : Ty} (h : ty.castTerm a = .ok t) (ha : a.Sorted D) :
    t.HasSort D t.sort ∧ (a.DivisionFree → t.DivisionFree) ∧
      ∀ m, m.Exact D → ∀ x, a.eval m = .ok x →
        ∃ c, t.eval m = .ok c ∧ ty.castValue? x = some c := by
  unfold Ty.castTerm at h
  cases hs : ty.sort with
  | error e => rw [hs] at h; cases h
  | ok s =>
    rw [hs] at h
    rw [Except.ok.injEq] at h
    have hx : ∀ m, m.Exact D → ∀ x, a.eval m = .ok x → x.sort = a.sort :=
      fun m hm x hx => (ha.hasSort hm.respects hx).sort_eq
    split at h
    · next hsort =>
      subst h
      refine ⟨⟨ha, rfl⟩, fun hd => hd, fun m hm x hxe => ⟨x, hxe, ?_⟩⟩
      rw [castValue?, hs]
      simp only [hx m hm x hxe, hsort, if_true]
    · next hsort =>
      split at h
      · next hbool =>
        subst h
        have ha' : a.HasSort D .bool := ⟨ha, hbool⟩
        refine ⟨⟨(ha'.mkIte (.int 1) (.int 0)).sorted, rfl⟩,
          fun hd => hd.mkIte trivial trivial, fun m hm x hxe => ?_⟩
        refine ⟨.ofInt (if x.isTrue then 1 else 0), ?_, ?_⟩
        · rw [eval_mkIte hxe]
          cases x.isTrue <;> rfl
        · rw [castValue?, hs]
          simp only [hx m hm x hxe, if_neg hsort, if_pos hbool]
      · next hbool =>
        subst h
        have ha' : a.HasSort D .int := ⟨ha, ha.sort_cases.resolve_right hbool⟩
        refine ⟨⟨ha'.isZero.mkNot.sorted, rfl⟩, fun hd => hd.isZero.mkNot, fun m hm x hxe => ?_⟩
        refine ⟨.ofBool (x.value != 0), ?_, ?_⟩
        · rw [eval_mkNot ha'.isZero.sorted hm.sorts.suits
            (eval_isZero ha hm.sorts.suits hxe ha'.sort_eq)]
          rw [Constant.not, Model.isTrue_ofBool]
          rfl
        · rw [castValue?, hs]
          simp only [hx m hm x hxe, if_neg hsort, if_neg hbool]

/-! ## Switches -/

/-- The literal of a switch has the sort of the operand, and the value that the operand is
compared with. -/
theorem hasSort_switchLiteral (ha : a.Sorted D) (v : Int) :
    (switchLiteral a v).HasSort D a.sort := by
  unfold switchLiteral
  rcases ha.sort_cases with hs | hs
  · rw [hs]
    exact .int v
  · rw [hs]
    exact .bool _

theorem hasSort_switchGuard (ha : a.Sorted D) (v : Int) : (switchGuard a v).HasSort D .bool :=
  HasSort.mkEq ⟨ha, rfl⟩ (hasSort_switchLiteral ha v)

theorem divisionFree_switchGuard (ha : a.DivisionFree) (v : Int) :
    (switchGuard a v).DivisionFree := by
  refine ha.mkEq ?_
  unfold switchLiteral
  split <;> trivial

/-- The guard for one value of a switch tells whether the switch can go to its target. -/
theorem eval_switchGuard (ha : a.Sorted D) (hm : m.Exact D) (hx : a.eval m = .ok x) (v : Int) :
    ∃ c, (switchGuard a v).eval m = .ok c ∧ (c.isTrue = true ↔ switchMatches x v) := by
  have hlit : (switchLiteral a v).eval m =
      .ok (if x.sort = .bool then .ofBool (v != 0) else .ofInt v) := by
    rw [(ha.hasSort hm.respects hx).sort_eq, switchLiteral]
    split <;> rfl
  have hsort := hasSort_switchLiteral ha v
  refine ⟨_, eval_mkEq hx hlit ha hsort.sorted hm.sorts.suits hsort.sort_eq.symm, ?_⟩
  rw [Constant.isTrue_eq, switchMatches]

/-- A switch on a value goes to the target at a position: that of a matching value, or the last
one if no value matches. -/
def switchTakes (d : Constant) (values : List Int) (i : Nat) : Prop :=
  (∃ v, values[i]? = some v ∧ switchMatches d v) ∨
    (i = values.length ∧ ∀ v ∈ values, ¬switchMatches d v)

/-- The guard at the position of a target. -/
theorem exists_switchGuard {targets : List Int} {target : Int}
    (hlen : targets.length = values.length + 1) (ht : targets[i]? = some target) (discr : Expr) :
    ∃ g, (switchGuards discr values)[i]? = some g ∧
      (target, g) ∈ targets.zip (switchGuards discr values) := by
  have hlt : i < (switchGuards discr values).length := by
    have := (List.getElem?_eq_some_iff.mp ht).1
    rw [switchGuards, List.length_append, List.length_map, List.length_singleton]
    omega
  have hg := List.getElem?_eq_getElem hlt
  exact ⟨_, hg, List.mem_of_getElem? (List.getElem?_zip_eq_some.mpr ⟨ht, hg⟩)⟩

/-- What holds of guards for values, and is kept by negation and conjunction. -/
theorem of_mem_switchGuards {P : Expr → Prop} (hguard : ∀ v, P (switchGuard a v))
    (hnot : ∀ {e}, P e → P (.mkNot e)) (hconj : ∀ {es}, (∀ e ∈ es, P e) → P (.conj es))
    (hg : g ∈ switchGuards a values) : P g := by
  rw [switchGuards, List.mem_append, List.mem_singleton] at hg
  rcases hg with hg | rfl
  · obtain ⟨v, -, rfl⟩ := List.mem_map.mp hg
    exact hguard v
  · refine hconj fun e he => ?_
    obtain ⟨e', he', rfl⟩ := List.mem_map.mp he
    obtain ⟨v, -, rfl⟩ := List.mem_map.mp he'
    exact hnot (hguard v)

theorem hasSort_of_mem_switchGuards (ha : a.Sorted D) (hg : g ∈ switchGuards a values) :
    g.HasSort D .bool :=
  of_mem_switchGuards (P := (·.HasSort D .bool)) (hasSort_switchGuard ha) .mkNot .conj hg

theorem divisionFree_of_mem_switchGuards (ha : a.DivisionFree) (hg : g ∈ switchGuards a values) :
    g.DivisionFree :=
  of_mem_switchGuards (divisionFree_switchGuard ha) .mkNot .conj hg

/-- The last guard of a switch is true exactly if no value matches. -/
theorem satisfies_conj_not_switchGuard (ha : a.Sorted D) (hm : m.Exact D)
    (hx : a.eval m = .ok x) (values : List Int) :
    m.Satisfies (.conj ((values.map (switchGuard a)).map mkNot)) ↔
      ∀ v ∈ values, ¬switchMatches x v := by
  rw [Model.satisfies_conj, List.forall_mem_map, List.forall_mem_map]
  refine forall_congr' fun v => imp_congr_right fun _ => ?_
  obtain ⟨c, hc, hcv⟩ := eval_switchGuard ha hm hx v
  have hnot := eval_mkNot (hasSort_switchGuard ha v).sorted hm.sorts.suits hc
  rw [Model.satisfies_iff_of_eval hnot, Constant.isTrue_not, ← hcv]
  cases c.isTrue <;> decide

/-- The guard at a position is true exactly if the switch goes to the target there. -/
theorem satisfies_switchGuards (ha : a.Sorted D) (hm : m.Exact D) (hx : a.eval m = .ok x)
    (hg : (switchGuards a values)[i]? = some g) : m.Satisfies g ↔ switchTakes x values i := by
  rw [switchGuards, List.getElem?_append, List.length_map] at hg
  split at hg
  · next hi =>
    rw [List.getElem?_map, Option.map_eq_some_iff] at hg
    obtain ⟨v, hv, rfl⟩ := hg
    obtain ⟨c, hc, hcv⟩ := eval_switchGuard ha hm hx v
    rw [Model.satisfies_iff_of_eval hc, hcv, switchTakes, hv]
    have : i ≠ values.length := by omega
    simp [this]
  · next hi =>
    obtain ⟨hlt, rfl⟩ := List.getElem?_eq_some_iff.mp hg
    rw [List.length_singleton] at hlt
    have hlen : i = values.length := by omega
    subst hlen
    simp only [Nat.sub_self, List.getElem_cons_zero]
    rw [satisfies_conj_not_switchGuard ha hm hx, switchTakes]
    simp

/-! ## Assertions -/

/-- The fact that an assertion records says that the operand has the expected value. -/
theorem satisfies_assert (expected : Bool) (ha : a.Sorted D) (hm : m.Exact D)
    (hbool : a.sort = .bool) (hx : a.eval m = .ok x) :
    (mkEq a (.bool expected)).HasSort D .bool ∧
      (m.Satisfies (.mkEq a (.bool expected)) ↔ x = .ofBool expected) := by
  have hsort : a.HasSort D .bool := ⟨ha, hbool⟩
  refine ⟨hsort.mkEq (.bool expected), ?_⟩
  have hb : (bool expected).eval m = .ok (.ofBool expected) := rfl
  rw [Model.satisfies_iff_of_eval
    (eval_mkEq hx hb ha (sorted_bool D expected) hm.sorts.suits hbool), Constant.isTrue_eq]
  constructor
  · exact fun hval => (hsort.eval hm.respects hx).ext (Constant.hasSort_ofBool expected) hval
  · rintro rfl
    rfl

end NullPath
