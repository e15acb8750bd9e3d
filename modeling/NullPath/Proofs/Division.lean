import NullPath.Proofs.Actions
import NullPath.Proofs.Folding
import NullPath.Proofs.LoweredCode
import NullPath.Proofs.Steps

/-!
# Division of lowered functions

A quotient or a remainder of a function in single-assignment form becomes an operator on integers
whose remainder is never negative.  In the source language a quotient is rounded towards zero, and
the remainder has the sign of the dividend.  The two agree unless the dividend is negative and is
not a multiple of the divisor.

* `euclidean`, `truncated`: the two ways to divide.
* `Ssa.Function.division_euclidean`: what a lowered division means.
-/

namespace NullPath

variable {op : SourceBinOp} {i j : Int}

/-- The quotient, or the remainder, if remainders are never negative. -/
def euclidean (op : SourceBinOp) (i j : Int) : Int :=
  if op = .rem then i % j else i / j

/-- The quotient rounded towards zero, or the remainder that goes with it. -/
def truncated (op : SourceBinOp) (i j : Int) : Int :=
  if op = .rem then i.tmod j else i.tdiv j

theorem euclidean_eq_truncated_iff (hj : j ≠ 0) :
    euclidean op i j = truncated op i j ↔ 0 ≤ i ∨ j ∣ i := by
  have hsign : j.sign ≠ 0 := mt Int.sign_eq_zero_iff_zero.mp hj
  unfold euclidean truncated
  rw [Int.tdiv_eq_ediv, Int.tmod_eq_emod]
  by_cases h : 0 ≤ i ∨ j ∣ i
  · simp [h]
  · rw [if_neg h, if_neg h, iff_false_right h]
    split <;> omega

namespace Expr

variable {a b t : Expr} {m : Model} {n : Name} {v w : Constant}

/-- The term of a division is a literal number or an operator, and it has the value of a division
whose remainder is never negative. -/
theorem division_term (h : op.term a b = .ok t) (hop : op = .div ∨ op = .rem) :
    t.sort = .int ∧ (∀ n k, t ≠ .name n k) ∧ ∀ m, a.eval m = .ok (.ofInt i) →
      b.eval m = .ok (.ofInt j) → j ≠ 0 → t.eval m = .ok (.ofInt (euclidean op i j)) := by
  obtain ⟨o, ho, rfl⟩ : ∃ o, (o = .div ∧ op = .div ∨ o = .mod ∧ op = .rem) ∧
      t = mkArith o a b := by
    rcases hop with rfl | rfl <;> grind [SourceBinOp.term]
  have hres : o.resultSort = .int := by rcases ho with ⟨rfl, -⟩ | ⟨rfl, -⟩ <;> rfl
  have hdrop : dropNeutral o a b = none := by rcases ho with ⟨rfl, -⟩ | ⟨rfl, -⟩ <;> rfl
  refine ⟨?_, ?_, fun m ha hb hj => ?_⟩
  · unfold mkArith
    cases hf : foldConstants o a b with
    | some e => exact (HasSort.of_foldConstants (D := fun _ _ => True) hf).sort_eq.trans hres
    | none =>
      rw [hdrop]
      exact hres
  · intro n k
    unfold mkArith foldConstants
    rw [hdrop]
    repeat' split
    all_goals exact Expr.noConfusion
  · rw [eval_mkArith ha hb o rfl rfl]
    rcases ho with ⟨rfl, rfl⟩ | ⟨rfl, rfl⟩ <;> exact if_neg hj

/-- An equation of a name with a number says that the values agree. -/
theorem satisfies_mkEq_name (hv : m.get? n = some v) (hw : t.eval m = .ok w)
    (ht : t.sort = .int) {k : ExprSort} :
    m.Satisfies (.mkEq (.name n k) t) ↔ v.value = w.value := by
  have hname : (Expr.name n k).eval m = .ok v := by rw [eval, hv]
  have heval : (mkEq (.name n k) t).eval m = .ok (v.eq w) := by
    cases t with
    | const c =>
      obtain rfl := Except.ok.inj hw
      have hsort : c.sort ≠ .bool := fun hc => by cases ht.symm.trans hc
      calc (mkEq (.name n k) (.const c)).eval m
        _ = (Expr.binary .eq (.const c) (.name n k)).eval m := congrArg (eval m) (if_neg hsort)
        _ = .ok (c.eq v) := eval_binary _ rfl hname
        _ = .ok (v.eq c) := by rw [Constant.eq_comm]
    | name | not | neg | ite | binary =>
      simp only [mkEq, isConst, constant?, mkOrderedEq, Option.isSome_none, Bool.and_false,
        Bool.false_eq_true, if_false]
      split
      · next heq =>
        rw [eval_eq_of_compare heq, hw] at hname
        cases hname
        rw [Constant.eq, beq_self_eq_true]
        rfl
      · exact eval_binary _ hname hw
  rw [Model.satisfies_iff_of_eval heval, Constant.eq, Model.isTrue_ofBool, beq_iff_eq]

end Expr

/-- An assigned division leaves the assertion that a new name for the place has the value of a
division whose remainder is never negative. -/
theorem Store.division_eq_ok {env : Env} {p : Place} {x y : Operand} {s s' : Store}
    (h : assign env p (.binary op x y) s = (.ok (), s')) (hop : op = .div ∨ op = .rem) :
    ∃ a s₁ b s₂ n s₃ e, operand env x s = (.ok a, s₁) ∧ operand env y s₁ = (.ok b, s₂) ∧
      writeFresh env p s₂ = (.ok n, s₃) ∧ assertExpr env.node e s₃ = (.ok (), s') ∧
      ∀ m i j v, a.eval m = .ok (.ofInt i) →
        b.eval m = .ok (.ofInt j) → j ≠ 0 → m.get? n = some v →
        (m.Satisfies e ↔ v.value = euclidean op i j) := by
  obtain ⟨t, s₂, ht, hwrite⟩ := assign_eq_ok.mp h
  obtain ⟨a, s₁, b, ha, hb, hterm⟩ := rvalue_binary_eq_ok.mp ht
  obtain ⟨hsort, hname, -⟩ := Expr.division_term (i := 0) (j := 0) hterm hop
  rcases hwrite with ⟨n, hshare, -⟩ | ⟨-, n, s₃, hfresh, heq⟩
  · -- only a name is shared
    unfold sharesName at hshare
    split at hshare
    · exact absurd rfl (hname _ _)
    · cases hshare
  · obtain ⟨k, c, s₄, -, -, rfl, rfl⟩ := writeFresh_eq_ok.mp hfresh
    obtain ⟨d, s₅, hdecl, heq⟩ := Action.bind_eq_ok.mp heq
    obtain ⟨hd, rfl⟩ := declaration_eq_ok.mp hdecl
    obtain rfl : d = ⟨s₄.nextName, k, [], none⟩ :=
      Option.some.inj (hd.symm.trans (declaration?_declared s₄ k))
    split at heq
    · exact absurd heq Action.error_ne_ok
    · refine ⟨a, s₁, b, s₂, _, _, _, ha, hb, hfresh, heq, fun m i j v hi hj hne hv => ?_⟩
      obtain ⟨-, -, heval⟩ := Expr.division_term hterm hop
      exact Expr.satisfies_mkEq_name hv (heval m hi hj hne) hsort

namespace Ssa.Function

variable {f : Function} {index : Nat} {blk : Block} {r : Register} {x y : Value} {B B' : Builder}
  {text : String}

/-- A lowered quotient or remainder is one statement, and whenever it succeeds it leaves an assertion
that gives the result as a division with remainders that are never negative does.  If the divisor is
not zero, this is the quotient that is rounded towards zero, or its remainder, just when the
dividend is not negative or is a multiple of the divisor. -/
theorem division_euclidean (htext : binaryOperator? text = some op) (hop : op = .div ∨ op = .rem)
    (h : f.lowerInstr index blk (.binary r text x y) B = (.ok (), B')) :
    ∃ x' y' st, f.operand x = .ok x' ∧ f.operand y = .ok y' ∧ Builder.emit st B = (.ok (), B') ∧
      ∀ env s s', Store.statement env st s = (.ok (), s') →
        ∃ a s₁ b s₂ n s₃ e, Store.operand { env with span := r.span } x' s = (.ok a, s₁) ∧
          Store.operand { env with span := r.span } y' s₁ = (.ok b, s₂) ∧
          Store.writeFresh { env with span := r.span } ⟨f.registerSlot r, 0⟩ s₂ = (.ok n, s₃) ∧
          Store.assertExpr env.node e s₃ = (.ok (), s') ∧
          ∀ (m : Model) (i j : Int) (v : Constant), a.eval m = .ok (.ofInt i) →
            b.eval m = .ok (.ofInt j) → j ≠ 0 → m.get? n = some v →
            (m.Satisfies e ↔ v.value = euclidean op i j) ∧
              (euclidean op i j = truncated op i j ↔ 0 ≤ i ∨ j ∣ i) := by
  simp only [lowerInstr, htext] at h
  obtain ⟨x', hx, h₁⟩ := Action.lift_bind_eq_ok.mp h
  obtain ⟨y', hy, h₂⟩ := Action.lift_bind_eq_ok.mp h₁
  obtain ⟨sort, -, hemit⟩ := Action.lift_bind_eq_ok.mp h₂
  refine ⟨x', y', _, hx, hy, hemit, fun env s s' hs => ?_⟩
  obtain ⟨a, s₁, b, s₂, n, s₃, e, ha, hb, hn, he, hmodels⟩ := Store.division_eq_ok hs hop
  exact ⟨a, s₁, b, s₂, n, s₃, e, ha, hb, hn, he, fun m i j v hi hj hne hv =>
    ⟨hmodels m i j v hi hj hne hv, euclidean_eq_truncated_iff hne⟩⟩

/-- A function that divides minus seven by two. -/
def negativeQuotient : Function where
  name := "quotient"
  results := [.basic "int"]
  params := []
  blocks := [⟨[.binary ⟨0, .basic "int", {}⟩ "/" (.const (.int (-7)) (.basic "int"))
    (.const (.int 2) (.basic "int")), .return [.register 0] {}], [], []⟩]

theorem negativeQuotient_division :
    ∃ st s' n s₃ e, Builder.emit st negativeQuotient.builder =
        negativeQuotient.lowerInstr 0 ⟨[], [], []⟩ (.binary ⟨0, .basic "int", {}⟩ "/"
          (.const (.int (-7)) (.basic "int")) (.const (.int 2) (.basic "int")))
          negativeQuotient.builder ∧
      Store.statement { function := negativeQuotient.code } st { graph := { nodes := [{}] } } =
        (.ok (), s') ∧
      Store.assertExpr 0 e s₃ = (.ok (), s') ∧
      ∀ (m : Model) (v : Constant), m.get? n = some v → (m.Satisfies e ↔ v.value = -4) := by
  have hlower : negativeQuotient.lowerInstr 0 ⟨[], [], []⟩ (.binary ⟨0, .basic "int", {}⟩ "/"
      (.const (.int (-7)) (.basic "int")) (.const (.int 2) (.basic "int")))
      negativeQuotient.builder = (.ok (), _) := rfl
  obtain ⟨x', y', st, hx, hy, hemit, hmodels⟩ := division_euclidean rfl (Or.inl rfl) hlower
  cases hx
  cases hy
  obtain rfl : st = .assign ⟨1, 0⟩ (.binary .div (.const (-7) (.int "int"))
      (.const 2 (.int "int"))) {} := by
    cases hemit
    rfl
  obtain ⟨a, s₁, b, s₂, n, s₃, e, ha, hb, hn, he, hm⟩ :=
    hmodels { function := negativeQuotient.code } { graph := { nodes := [{}] } } _ rfl
  cases ha
  cases hb
  refine ⟨_, _, n, s₃, e, hemit, rfl, he, fun m v hv => ?_⟩
  exact (hm m (-7) 2 v rfl rfl (by decide) hv).1

end Ssa.Function

/-- An exploration of the division of minus seven by two. -/
def negativeQuotientExplorer : Explorer where
  entry := Ssa.Function.negativeQuotient.code
  program := ⟨[Ssa.Function.negativeQuotient.code]⟩

/-- The division of minus seven by two records minus four, and not the quotient that is rounded
towards zero. -/
theorem Explorer.negativeQuotient_rounds_down :
    ∃ node e, (negativeQuotientExplorer.after 1).graph.node? 0 = some node ∧ e ∈ node.exprs ∧
      ∀ (m : Model) (v : Constant), m.Satisfies e → m.get? ⟨1⟩ = some v →
        v.value = -4 ∧ v.value ≠ Int.tdiv (-7) 2 := by
  have hexprs : ((negativeQuotientExplorer.after 1).graph.node? 0).map Node.exprs =
      some [.mkEq (.name ⟨1⟩ .int) (.int (-4)), .mkEq (.name ⟨2⟩ .int) (.name ⟨1⟩ .int)] := by
    decide +kernel
  obtain ⟨node, hnode, hn⟩ := Option.map_eq_some_iff.mp hexprs
  refine ⟨node, _, hnode, hn ▸ List.mem_cons_self, fun m v hm hv => ?_⟩
  rw [Expr.satisfies_mkEq_name hv rfl rfl] at hm
  exact ⟨hm, hm ▸ by decide⟩

end NullPath
