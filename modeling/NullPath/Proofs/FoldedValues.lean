import NullPath.Proofs.Folding

/-!
# Folding keeps the value of a term

The plain node of an operator and the term that its folding constructor returns are compared in one
model.  If the node is sorted and has a value, the folded term has the same value.  The converse
fails where it may: a conjunction with the literal `false` has a value even if its other side has
none.

The model has to give the names of the operands values of their sorts, but it need not give every
name a value, because a choice may never look at one of its branches.

* `Expr.exists_mkBinary?`, `Expr.eval_of_mkBinary?`: every operator of a sorted node folds, and to a
  term with the value of the operator.
* `Expr.eval_foldl_mkAnd`: conjunctions of lists.
* `Expr.folding_keeps_value`: all the folding constructors.
-/

namespace NullPath
namespace Expr

variable {D : Scope} {m : Model} {a b e : Expr} {x y v : Constant} {op : BinOp}

/-- Every operator that accepts its operands can be folded. -/
theorem exists_mkBinary? {s t : ExprSort} (h : op.Accepts s t) :
    ∃ e, mkBinary? op a b = some e := by
  cases op with
  | other _ _ => exact h.elim
  | _ => exact ⟨_, rfl⟩

/-- A folded operator has the value of the operator on the values of its operands. -/
theorem eval_of_mkBinary? (hs : (binary op a b).Sorted D) (hm : m.Respects D)
    (h : mkBinary? op a b = some e) (ha : a.eval m = .ok x) (hb : b.eval m = .ok y) :
    e.eval m = op.apply x y := by
  obtain ⟨hsa, hsb, hacc⟩ := hs
  have hxa : x.HasSort a.sort := hsa.hasSort hm ha
  have hyb : y.HasSort b.sort := hsb.hasSort hm hb
  cases op with
  | add | sub | mul | div | mod =>
    obtain ⟨hia, hib⟩ := hacc
    cases h
    exact eval_mkArith ha hb _ (hia ▸ hxa) (hib ▸ hyb)
  | and =>
    obtain ⟨hba, hbb⟩ := hacc
    cases h
    exact eval_mkAnd ha hb (hba ▸ hxa) (hbb ▸ hyb)
  | or =>
    obtain ⟨hba, hbb⟩ := hacc
    cases h
    exact eval_mkOr ha hb (hba ▸ hxa) (hbb ▸ hyb)
  | implies =>
    cases h
    exact eval_mkImplies ha hb (hacc.2 ▸ hyb)
  | eq =>
    cases h
    exact eval_mkEq ha hb hsa hsb hm.suits hacc
  | ne =>
    have heq : (mkEq a b).HasSort D .bool := HasSort.mkEq ⟨hsa, hacc⟩ ⟨hsb, rfl⟩
    cases h
    exact eval_mkNot heq.sorted hm.suits (eval_mkEq ha hb hsa hsb hm.suits hacc)
  | lt | le =>
    cases h
    exact eval_mkCompare ha hb _
  | gt | ge =>
    -- the comparison is turned around, and so are its operands
    cases h
    exact eval_mkCompare hb ha _
  | other _ _ => exact hacc.elim

/-- A conjunction that is folded at every step has the value of the plain conjunction. -/
theorem eval_foldl_mkAnd (hm : m.Respects D) {es : List Expr} (hes : ∀ e ∈ es, e.HasSort D .bool)
    (ha : a.HasSort D .bool) (hb : b.HasSort D .bool)
    (hab : ∀ v, a.eval m = .ok v → b.eval m = .ok v)
    (h : (es.foldl (binary .and) a).eval m = .ok v) : (es.foldl mkAnd b).eval m = .ok v := by
  induction es generalizing a b with
  | nil => exact hab v h
  | cons e es ih =>
    obtain ⟨he, hes⟩ := List.forall_mem_cons.1 hes
    have hand : (binary .and a e).HasSort D .bool :=
      .binary ha.sorted he.sorted ⟨ha.sort_eq, he.sort_eq⟩
    refine ih hes hand (hb.mkAnd he) ?_ h
    intro w hw
    obtain ⟨x, y, hx, hy, hxy⟩ := eval_binary_eq_ok.1 hw
    rw [eval_mkAnd (hab x hx) hy (ha.eval hm hx) (he.eval hm hy)]
    exact hxy

/-- Folding keeps values: where a sorted node has a value, the term built in its place has the same
value.  This holds for every operator, both negations, choices and conjunctions of lists, whether or
not the conjunction starts from the literal `true`. -/
theorem folding_keeps_value {D : Scope} {m : Model} (hm : m.Respects D) :
    (∀ op a b, (binary op a b).Sorted D → ∃ e, mkBinary? op a b = some e ∧
      ∀ v, (binary op a b).eval m = .ok v → e.eval m = .ok v) ∧
    (∀ a, (not a).Sorted D → ∀ v, (not a).eval m = .ok v → (mkNot a).eval m = .ok v) ∧
    (∀ a, (neg a).Sorted D → ∀ v, (neg a).eval m = .ok v → (mkNeg a).eval m = .ok v) ∧
    (∀ c a b, (ite c a b).Sorted D →
      ∀ v, (ite c a b).eval m = .ok v → (mkIte c a b).eval m = .ok v) ∧
    (∀ es : List Expr, (∀ e ∈ es, e.HasSort D .bool) →
      ∀ v, (es.foldl (binary .and) (bool true)).eval m = .ok v → (conj es).eval m = .ok v) ∧
    ∀ a es, (∀ e ∈ a :: es, e.HasSort D .bool) →
      ∀ v, (es.foldl (binary .and) a).eval m = .ok v → (conj (a :: es)).eval m = .ok v := by
  refine ⟨?_, ?_, ?_, ?_, ?_, ?_⟩
  · intro op a b hs
    obtain ⟨e, he⟩ := exists_mkBinary? (a := a) (b := b) hs.2.2
    refine ⟨e, he, fun v hv => ?_⟩
    obtain ⟨x, y, hx, hy, hxy⟩ := eval_binary_eq_ok.1 hv
    rw [eval_of_mkBinary? hs hm he hx hy, hxy]
  · intro a hs v hv
    obtain ⟨x, hx, rfl⟩ := eval_not_eq_ok.1 hv
    exact eval_mkNot hs.1 hm.suits hx
  · intro a hs v hv
    obtain ⟨x, hx, rfl⟩ := eval_neg_eq_ok.1 hv
    exact eval_mkNeg hs.1 hm hx
  · intro c a b _ v hv
    obtain ⟨z, hz, hzv⟩ := eval_ite_eq_ok.1 hv
    rw [eval_mkIte hz, hzv]
  · intro es hes v hv
    exact eval_foldl_mkAnd hm hes (.bool true) (.bool true) (fun _ => id) hv
  · intro a es hes v hv
    obtain ⟨ha, hes⟩ := List.forall_mem_cons.1 hes
    -- the conjunction of `true` and the first member is that member
    exact eval_foldl_mkAnd (b := a) hm hes ha ha (fun _ => id) hv

/-- A choice whose second branch is a name. -/
def sevenOrName : Expr :=
  .ite (.name ⟨1⟩ .bool) (.int 7) (.name ⟨0⟩ .int)

/-- The names of `sevenOrName`. -/
def sevenScope : Scope :=
  fun n s => (n = ⟨0⟩ ∧ s = .int) ∨ (n = ⟨1⟩ ∧ s = .bool)

/-- A model in which the choice is made and the name of its second branch has no value. -/
def sevenModel : Model :=
  ⟨[(⟨1⟩, .ofBool true)]⟩

/-- Subtracting zero folds away, and the number 7 is left although a name has no value. -/
theorem sevenOrName_keeps_value :
    sevenModel.Respects sevenScope ∧ sevenModel.get? ⟨0⟩ = none ∧
      (binary .sub sevenOrName (int 0)).Sorted sevenScope ∧
      (binary .sub sevenOrName (int 0)).eval sevenModel = .ok (.ofInt 7) ∧
      ∃ e, mkBinary? .sub sevenOrName (int 0) = some e ∧ e.eval sevenModel = .ok (.ofInt 7) := by
  have hm : sevenModel.Respects sevenScope := by
    rintro n s c (⟨rfl, rfl⟩ | ⟨rfl, rfl⟩) hc
    · cases hc
    · cases hc
      exact Constant.hasSort_ofBool true
  have hs : (binary .sub sevenOrName (int 0)).Sorted sevenScope := by
    simp [Sorted, sevenOrName, sevenScope, BinOp.Accepts, sort, int, Constant.ofInt,
      Constant.HasSort]
  obtain ⟨e, he, hkeep⟩ := (folding_keeps_value hm).1 .sub sevenOrName (int 0) hs
  exact ⟨hm, rfl, hs, rfl, e, he, hkeep _ rfl⟩

end Expr
end NullPath
