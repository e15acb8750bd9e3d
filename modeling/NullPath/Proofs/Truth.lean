import NullPath.Expr.Fold

/-!
# Truth of terms in a model

A term is true in a model if it has a value there and the value is a boolean that holds.  The
constructors that fold while they build do not change this: a conjunction is true exactly if all
its members are, whatever literals were dropped on the way, and an implication between terms that
have values is true exactly if the one truth gives the other.

* `Model.Defines`, `Model.Satisfies`: having a value, and being true.
* `Model.satisfies_mkAnd`, `Model.satisfies_conj`: conjunctions, with no condition on the parts.
-/

namespace NullPath

/-- What holds of the parts of a conjunction, and is kept by joining them, holds of it. -/
theorem Expr.conj_induction {P : Expr → Prop} (htrue : P (.bool true))
    (hand : ∀ a b, P a → P b → P (mkAnd a b)) {es : List Expr} (hes : ∀ e ∈ es, P e) :
    P (conj es) := by
  have hfold : ∀ a, P a → P (es.foldl mkAnd a) := by
    induction es with
    | nil => exact fun a ha => ha
    | cons e es ih =>
      rw [List.forall_mem_cons] at hes
      exact fun a ha => ih hes.2 _ (hand a e ha hes.1)
  exact hfold _ htrue

namespace Model

variable {m : Model} {a b : Expr}

/-- The term has a value in the model. -/
def Defines (m : Model) (e : Expr) : Prop :=
  ∃ c, e.eval m = .ok c

/-- The term is true in the model. -/
def Satisfies (m : Model) (e : Expr) : Prop :=
  ∃ c, e.eval m = .ok c ∧ c.isTrue = true

/-- A term with a known value is true exactly if the value holds. -/
theorem satisfies_iff_of_eval {c : Constant} (h : a.eval m = .ok c) :
    m.Satisfies a ↔ c.isTrue = true := by
  constructor
  · rintro ⟨d, hd, ht⟩
    rw [h] at hd
    cases hd
    exact ht
  · intro ht
    exact ⟨c, h, ht⟩

@[simp] theorem isTrue_ofBool (v : Bool) : (Constant.ofBool v).isTrue = v := by
  cases v <;> rfl

/-- A literal is true in every model or in none. -/
@[simp] theorem satisfies_bool (v : Bool) : m.Satisfies (.bool v) ↔ v = true := by
  rw [satisfies_iff_of_eval rfl, isTrue_ofBool]

/-- The literal `true` is true in every model. -/
theorem satisfies_of_isTrue (h : a.isTrue = true) : m.Satisfies a := by
  cases a with
  | const c => exact ⟨c, rfl, h⟩
  | _ => simp [Expr.isTrue] at h

/-- The literal `false` is true in no model. -/
theorem not_satisfies_of_isFalse (h : a.isFalse = true) : ¬m.Satisfies a := by
  cases a with
  | const c =>
    rintro ⟨d, hd, ht⟩
    cases hd
    rw [Expr.isFalse, Constant.isFalse, Bool.and_eq_true, beq_iff_eq] at h
    simp [Constant.isTrue, h.2] at ht
  | _ => simp [Expr.isFalse] at h

/-! ## Conjunctions -/

theorem satisfies_and : m.Satisfies (.binary .and a b) ↔ m.Satisfies a ∧ m.Satisfies b := by
  constructor
  · rintro ⟨c, hc, ht⟩
    obtain ⟨x, y, ha, hb, hxy⟩ := Expr.eval_binary_eq_ok.1 hc
    cases hxy
    rw [isTrue_ofBool, Bool.and_eq_true] at ht
    exact ⟨⟨x, ha, ht.1⟩, ⟨y, hb, ht.2⟩⟩
  · rintro ⟨⟨x, ha, hx⟩, ⟨y, hb, hy⟩⟩
    refine ⟨.ofBool (x.isTrue && y.isTrue), ?_, ?_⟩
    · rw [Expr.eval, ha, hb]
      rfl
    · rw [isTrue_ofBool, hx, hy]
      rfl

/-- Dropping the literal `true` and collapsing at the literal `false` keep a conjunction. -/
theorem satisfies_mkAnd : m.Satisfies (.mkAnd a b) ↔ m.Satisfies a ∧ m.Satisfies b := by
  unfold Expr.mkAnd
  split
  · next h => simp [satisfies_of_isTrue h]
  · split
    · next h => simp [satisfies_of_isTrue h]
    · split
      · next h =>
        have hnot : ¬(m.Satisfies a ∧ m.Satisfies b) := by
          rintro ⟨ha, hb⟩
          rcases Bool.or_eq_true _ _ ▸ h with h | h
          · exact not_satisfies_of_isFalse h ha
          · exact not_satisfies_of_isFalse h hb
        simp [hnot]
      · exact satisfies_and

theorem satisfies_foldl_mkAnd (es : List Expr) (a : Expr) :
    m.Satisfies (es.foldl .mkAnd a) ↔ m.Satisfies a ∧ ∀ e ∈ es, m.Satisfies e := by
  induction es generalizing a with
  | nil => simp
  | cons e es ih =>
    rw [List.foldl_cons, ih, satisfies_mkAnd, List.forall_mem_cons, and_assoc]

/-- A conjunction is true exactly if all its members are. -/
theorem satisfies_conj {es : List Expr} : m.Satisfies (.conj es) ↔ ∀ e ∈ es, m.Satisfies e := by
  rw [Expr.conj, satisfies_foldl_mkAnd, satisfies_bool]
  simp

theorem defines_and (ha : m.Defines a) (hb : m.Defines b) : m.Defines (.binary .and a b) := by
  obtain ⟨x, hx⟩ := ha
  obtain ⟨y, hy⟩ := hb
  exact ⟨.ofBool (x.isTrue && y.isTrue), by rw [Expr.eval, hx, hy]; rfl⟩

theorem defines_mkAnd (ha : m.Defines a) (hb : m.Defines b) : m.Defines (.mkAnd a b) := by
  unfold Expr.mkAnd
  split
  · exact hb
  · split
    · exact ha
    · split
      · exact ⟨.ofBool false, rfl⟩
      · exact defines_and ha hb

/-- A conjunction of terms with values has a value. -/
theorem defines_conj {es : List Expr} (hes : ∀ e ∈ es, m.Defines e) : m.Defines (.conj es) :=
  Expr.conj_induction ⟨.ofBool true, rfl⟩ (fun _ _ => defines_mkAnd) hes

/-! ## Implications -/

variable (ha : m.Defines a) (hb : m.Defines b)
include ha hb

theorem satisfies_implies :
    m.Satisfies (.binary .implies a b) ↔ (m.Satisfies a → m.Satisfies b) := by
  obtain ⟨x, hx⟩ := ha
  obtain ⟨y, hy⟩ := hb
  have h : (Expr.binary .implies a b).eval m = .ok (.ofBool (!x.isTrue || y.isTrue)) := by
    rw [Expr.eval, hx, hy]
    rfl
  rw [satisfies_iff_of_eval h, satisfies_iff_of_eval hx, satisfies_iff_of_eval hy, isTrue_ofBool]
  cases x.isTrue <;> cases y.isTrue <;> simp

/-- An implication between terms with values is true exactly if the one truth gives the other. -/
theorem satisfies_mkImplies : m.Satisfies (.mkImplies a b) ↔ (m.Satisfies a → m.Satisfies b) := by
  unfold Expr.mkImplies
  split
  · next h => simp [satisfies_of_isTrue h]
  · split
    · next h =>
      have himp : m.Satisfies a → m.Satisfies b := by
        intro hsa
        rcases Bool.or_eq_true _ _ ▸ h with h | h
        · exact absurd hsa (not_satisfies_of_isFalse h)
        · exact satisfies_of_isTrue h
      simpa using himp
    · exact satisfies_implies ha hb

theorem defines_mkImplies : m.Defines (.mkImplies a b) := by
  unfold Expr.mkImplies
  split
  · exact hb
  · split
    · exact ⟨.ofBool true, rfl⟩
    · obtain ⟨x, hx⟩ := ha
      obtain ⟨y, hy⟩ := hb
      exact ⟨.ofBool (!x.isTrue || y.isTrue), by rw [Expr.eval, hx, hy]; rfl⟩

end Model
end NullPath
