import NullPath.Proofs.Support
import NullPath.Proofs.Truth

/-!
# Sorted terms and their values

A scope tells the sorts with which names may be used.  A term is sorted in a scope if its names
are used with sorts of the scope and every operator is applied to operands of the right sorts.  In
a model that gives every name of the scope a value, a sorted term without division has a value,
and the value can be used with the sort of the term.

A name may be in scope with several sorts.  Then its value can be used with each of them, but it
has only one of them itself.  Models in which every name has a value of its sort are exact.  Where
only the value of a term counts, names without a value do no harm: a model respects a scope if the
values it does give have the sorts of their names.

* `Constant.HasSort`, `Constant.Fits`: values of a sort, and values that can be used with it.
* `Expr.Sorted`: sorted terms; `Model.Sorts`, `Model.Exact`: models of a scope, and
  `Model.Suits`, `Model.Respects`: models that may leave names of the scope without a value.
-/

namespace NullPath

variable {m : Model} {D : Scope}

/-! ## Canonical values -/

namespace Constant

/-- The literal is a value of a sort of the language: any integer, or a boolean 0 or 1. -/
def HasSort (c : Constant) : ExprSort → Prop
  | .int => c.sort = .int
  | .bool => c.sort = .bool ∧ (c.value = 0 ∨ c.value = 1)
  | .other _ _ => False

/-- The literal can be used as a value of a sort.  A number may be any literal, because only its
value counts; a truth value must be 0 or 1. -/
def Fits (c : Constant) : ExprSort → Prop
  | .int => True
  | .bool => c.HasSort .bool
  | .other _ _ => False

variable {c d : Constant} {s : ExprSort}

theorem HasSort.fits (h : c.HasSort s) : c.Fits s := by
  cases s with
  | int => trivial
  | bool | other _ _ => exact h

theorem HasSort.sort_eq (h : c.HasSort s) : c.sort = s := by
  cases s with
  | int => exact h
  | bool => exact h.1
  | other _ _ => exact h.elim

theorem HasSort.eq_ofInt (h : c.HasSort .int) : c = .ofInt c.value := by
  obtain ⟨v, s⟩ := c
  cases h
  rfl

theorem HasSort.eq_ofBool (h : c.HasSort .bool) : c = .ofBool c.isTrue := by
  obtain ⟨v, s⟩ := c
  obtain ⟨hs, hv⟩ := h
  cases hs
  rcases hv with hv | hv <;> cases hv <;> rfl

@[simp] theorem hasSort_ofInt (v : Int) : (ofInt v).HasSort .int := rfl

@[simp] theorem hasSort_ofBool (b : Bool) : (ofBool b).HasSort .bool := by
  cases b
  · exact ⟨rfl, .inl rfl⟩
  · exact ⟨rfl, .inr rfl⟩

@[simp] theorem value_ofInt (v : Int) : (ofInt v).value = v := rfl

theorem hasSort_not (c : Constant) : c.not.HasSort .bool := hasSort_ofBool _

theorem hasSort_neg (c : Constant) : c.neg.HasSort .int := hasSort_ofInt _

theorem hasSort_eq (c d : Constant) : (c.eq d).HasSort .bool := hasSort_ofBool _

theorem not_not (h : c.HasSort .bool) : c.not.not = c := by
  rw [Constant.not, Constant.not, Model.isTrue_ofBool, Bool.not_not]
  exact h.eq_ofBool.symm

theorem neg_neg (h : c.HasSort .int) : c.neg.neg = c := by
  rw [Constant.neg, Constant.neg, value_ofInt, Int.neg_neg]
  exact h.eq_ofInt.symm

theorem eq_comm (c d : Constant) : c.eq d = d.eq c := by
  rw [Constant.eq, Constant.eq, Bool.beq_comm]

@[simp] theorem isTrue_not (c : Constant) : c.not.isTrue = !c.isTrue := Model.isTrue_ofBool _

theorem isTrue_eq : (c.eq d).isTrue = true ↔ c.value = d.value := by
  rw [Constant.eq, Model.isTrue_ofBool, beq_iff_eq]

theorem HasSort.ext (hc : c.HasSort s) (hd : d.HasSort s) (h : c.value = d.value) : c = d := by
  obtain ⟨v, sc⟩ := c
  obtain ⟨w, sd⟩ := d
  have h₁ : sc = s := hc.sort_eq
  have h₂ : sd = s := hd.sort_eq
  have h₃ : v = w := h
  rw [h₁, h₂, h₃]

/-- Comparing a boolean with a literal boolean gives the boolean or its negation. -/
theorem eq_of_isTrue (hc : c.HasSort .bool) (hd : d.HasSort .bool) (h : c.isTrue = true) :
    c.eq d = d := by
  rw [hc.eq_ofBool, hd.eq_ofBool, h]
  cases d.isTrue <;> rfl

theorem eq_of_not_isTrue (hc : c.HasSort .bool) (hd : d.HasSort .bool) (h : c.isTrue = false) :
    c.eq d = d.not := by
  rw [hc.eq_ofBool, hd.eq_ofBool, h]
  cases d.isTrue <;> rfl

end Constant

/-! ## Sorted terms -/

/-- The operands that an operator is applied to in a sorted term, by their sorts. -/
def BinOp.Accepts : BinOp → ExprSort → ExprSort → Prop
  | .add, a, b | .sub, a, b | .mul, a, b | .div, a, b | .mod, a, b => a = .int ∧ b = .int
  | .and, a, b | .or, a, b | .implies, a, b => a = .bool ∧ b = .bool
  | .eq, a, b | .ne, a, b => a = b
  | .lt, a, b | .le, a, b | .gt, a, b | .ge, a, b => a = .int ∧ b = .int
  | .other _ _, _, _ => False

/-- The sort of the values of an operator. -/
def BinOp.resultSort (op : BinOp) : ExprSort :=
  if op.isArithmetic then .int else .bool

/-- The names that may be used, with their sorts. -/
abbrev Scope := Name → ExprSort → Prop

/-- One scope is part of another. -/
def Scope.Le (D D' : Scope) : Prop :=
  ∀ n s, D n s → D' n s

namespace Expr

/-- A term whose names are in scope and whose operators are applied to operands of their sorts. -/
def Sorted (D : Scope) : Expr → Prop
  | .const c => c.HasSort c.sort
  | .name n s => D n s ∧ (s = .int ∨ s = .bool)
  | .not e => e.Sorted D ∧ e.sort = .bool
  | .neg e => e.Sorted D ∧ e.sort = .int
  | .ite c t e => c.Sorted D ∧ t.Sorted D ∧ e.Sorted D ∧ c.sort = .bool ∧ t.sort = e.sort
  | .binary op l r => l.Sorted D ∧ r.Sorted D ∧ op.Accepts l.sort r.sort

/-- A term in which nothing is divided. -/
def DivisionFree : Expr → Prop
  | .const _ | .name _ _ => True
  | .not e | .neg e => e.DivisionFree
  | .ite c t e => c.DivisionFree ∧ t.DivisionFree ∧ e.DivisionFree
  | .binary op l r => op ≠ .div ∧ op ≠ .mod ∧ l.DivisionFree ∧ r.DivisionFree

theorem Sorted.mono {D D' : Scope} (hD : D.Le D') {e : Expr} (h : e.Sorted D) : e.Sorted D' := by
  induction e with
  | const c => exact h
  | name n s => exact ⟨hD n s h.1, h.2⟩
  | not e ih | neg e ih => exact ⟨ih h.1, h.2⟩
  | ite c t e ihc iht ihe => exact ⟨ihc h.1, iht h.2.1, ihe h.2.2.1, h.2.2.2⟩
  | binary op l r ihl ihr => exact ⟨ihl h.1, ihr h.2.1, h.2.2⟩

/-- A sorted term is an integer or a truth value. -/
theorem Sorted.sort_cases {D : Scope} {e : Expr} (h : e.Sorted D) :
    e.sort = .int ∨ e.sort = .bool := by
  induction e with
  | const c =>
    have hs : c.HasSort c.sort := h
    rw [sort]
    cases hc : c.sort with
    | int => exact .inl rfl
    | bool => exact .inr rfl
    | other _ _ => rw [hc] at hs; exact hs.elim
  | name n s => exact h.2
  | not e _ => exact .inr rfl
  | neg e _ => exact .inl rfl
  | ite c t e _ iht _ => exact iht h.2.1
  | binary op l r _ _ =>
    rw [sort]
    split
    · exact .inl rfl
    · exact .inr rfl

theorem sorted_int (D : Scope) (v : Int) : (int v).Sorted D := Constant.hasSort_ofInt v

theorem sorted_bool (D : Scope) (b : Bool) : (bool b).Sorted D := Constant.hasSort_ofBool b

end Expr

/-- Every name of the scope has a value in the model that can be used with its sort. -/
def Model.Sorts (m : Model) (D : Scope) : Prop :=
  ∀ n s, D n s → ∃ c, m.get? n = some c ∧ c.Fits s

/-- Every name of the scope has a value of its sort in the model. -/
def Model.Exact (m : Model) (D : Scope) : Prop :=
  ∀ n s, D n s → ∃ c, m.get? n = some c ∧ c.HasSort s

theorem Model.Exact.sorts (h : m.Exact D) : m.Sorts D := by
  intro n s hn
  obtain ⟨c, hc, hs⟩ := h n s hn
  exact ⟨c, hc, hs.fits⟩

/-- The values that the model gives to names of the scope can be used with their sorts.  A name may
have no value. -/
def Model.Suits (m : Model) (D : Scope) : Prop :=
  ∀ n s c, D n s → m.get? n = some c → c.Fits s

/-- The values that the model gives to names of the scope have their sorts.  A name may have no
value. -/
def Model.Respects (m : Model) (D : Scope) : Prop :=
  ∀ n s c, D n s → m.get? n = some c → c.HasSort s

theorem Model.Respects.suits (h : m.Respects D) : m.Suits D :=
  fun n s c hn hc => (h n s c hn hc).fits

theorem Model.Sorts.suits (h : m.Sorts D) : m.Suits D := by
  intro n s c hn hc
  obtain ⟨d, hd, hs⟩ := h n s hn
  cases hc.symm.trans hd
  exact hs

theorem Model.Exact.respects (h : m.Exact D) : m.Respects D := by
  intro n s c hn hc
  obtain ⟨d, hd, hs⟩ := h n s hn
  cases hc.symm.trans hd
  exact hs

theorem Model.Exact.mono {D' : Scope} (h : m.Exact D') (hD : D.Le D') : m.Exact D := by
  intro n s hn
  exact h n s (hD n s hn)

/-! ## Values of sorted terms -/

namespace BinOp

variable {op : BinOp} {a b c : Constant}

/-- The value of an operator has the sort of the operator. -/
theorem hasSort_apply (h : op.apply a b = .ok c) : c.HasSort op.resultSort := by
  cases op with
  | div | mod =>
    rw [apply] at h
    split at h
    · cases h
    · cases h; exact rfl
  | add | sub | mul => cases h; exact rfl
  | other _ _ => cases h
  | _ =>
    cases h
    exact Constant.hasSort_ofBool _

/-- An operator other than division has a value on all operands that it accepts. -/
theorem exists_apply (hdiv : op ≠ .div) (hmod : op ≠ .mod) {s t : ExprSort}
    (h : op.Accepts s t) : ∃ c, op.apply a b = .ok c := by
  cases op with
  | div => exact absurd rfl hdiv
  | mod => exact absurd rfl hmod
  | other _ _ => exact h.elim
  | _ => exact ⟨_, rfl⟩

end BinOp

namespace Expr

variable {D : Scope} {m : Model} {e : Expr} {c : Constant}

/-- What holds of the values of names and of all values of operators holds of the value of every
sorted term. -/
theorem Sorted.eval_induction {F : Constant → ExprSort → Prop} (hF : ∀ c s, c.HasSort s → F c s)
    (hm : ∀ n s c, D n s → m.get? n = some c → F c s) (h : e.Sorted D) (hc : e.eval m = .ok c) :
    F c e.sort := by
  induction e generalizing c with
  | const d =>
    cases hc
    exact hF _ _ h
  | name n s => exact hm n s c h.1 (eval_name_eq_ok.1 hc)
  | not e ih =>
    obtain ⟨v, -, rfl⟩ := eval_not_eq_ok.1 hc
    exact hF _ _ (Constant.hasSort_not v)
  | neg e ih =>
    obtain ⟨v, -, rfl⟩ := eval_neg_eq_ok.1 hc
    exact hF _ _ (Constant.hasSort_neg v)
  | ite x t e _ iht ihe =>
    obtain ⟨v, -, hv⟩ := eval_ite_eq_ok.1 hc
    split at hv
    · exact iht h.2.1 hv
    · rw [sort, h.2.2.2.2]
      exact ihe h.2.2.1 hv
  | binary op l r _ _ =>
    obtain ⟨v, w, -, -, happ⟩ := eval_binary_eq_ok.1 hc
    exact hF _ _ (BinOp.hasSort_apply happ)

/-- The value of a sorted term can be used with the sort of the term. -/
theorem Sorted.fits (h : e.Sorted D) (hm : m.Suits D) (hc : e.eval m = .ok c) : c.Fits e.sort :=
  h.eval_induction (fun _ _ => Constant.HasSort.fits) hm hc

/-- Where names have values of their sorts, so have terms. -/
theorem Sorted.hasSort (h : e.Sorted D) (hm : m.Respects D) (hc : e.eval m = .ok c) :
    c.HasSort e.sort :=
  h.eval_induction (fun _ _ => id) hm hc

/-- A sorted term without division has a value. -/
theorem Sorted.defines (h : e.Sorted D) (hf : e.DivisionFree) (hm : m.Sorts D) : m.Defines e := by
  induction e with
  | const c => exact ⟨c, rfl⟩
  | name n s =>
    obtain ⟨c, hc, -⟩ := hm n s h.1
    exact ⟨c, by rw [eval, hc]⟩
  | not e ih =>
    obtain ⟨v, hv⟩ := ih h.1 hf
    exact ⟨v.not, by rw [eval, hv]⟩
  | neg e ih =>
    obtain ⟨v, hv⟩ := ih h.1 hf
    exact ⟨v.neg, by rw [eval, hv]⟩
  | ite x t e ihx iht ihe =>
    obtain ⟨v, hv⟩ := ihx h.1 hf.1
    obtain ⟨w, hw⟩ := iht h.2.1 hf.2.1
    obtain ⟨z, hz⟩ := ihe h.2.2.1 hf.2.2
    refine ⟨if v.isTrue then w else z, ?_⟩
    rw [eval, hv, hw, hz]
    simp only
    split <;> rfl
  | binary op l r ihl ihr =>
    obtain ⟨v, hv⟩ := ihl h.1 hf.2.2.1
    obtain ⟨w, hw⟩ := ihr h.2.1 hf.2.2.2
    obtain ⟨c, hc⟩ := BinOp.exists_apply hf.1 hf.2.1 h.2.2
    exact ⟨c, by rw [eval, hv, hw]; exact hc⟩

theorem Sorted.mem_occurrences {n : Name} (h : e.Sorted D) (hn : n ∈ e.occurrences) :
    ∃ s, D n s := by
  induction e with
  | const c => cases hn
  | name k s =>
    obtain rfl := List.mem_singleton.mp hn
    exact ⟨s, h.1⟩
  | not e ih | neg e ih => exact ih h.1 hn
  | ite c t e ihc iht ihe =>
    rw [occurrences_ite, List.mem_append, List.mem_append] at hn
    rcases hn with (hn | hn) | hn
    · exact ihc h.1 hn
    · exact iht h.2.1 hn
    · exact ihe h.2.2.1 hn
  | binary op l r ihl ihr =>
    rw [occurrences_binary, List.mem_append] at hn
    rcases hn with hn | hn
    · exact ihl h.1 hn
    · exact ihr h.2.1 hn

/-- The value of a term depends only on the values of the names in scope. -/
theorem Sorted.eval_congr {m' : Model} (h : e.Sorted D)
    (hmm : ∀ n s, D n s → m.get? n = m'.get? n) : e.eval m = e.eval m' := by
  refine Expr.eval_congr fun n hn => ?_
  obtain ⟨s, hs⟩ := h.mem_occurrences hn
  exact hmm n s hs

end Expr
end NullPath
