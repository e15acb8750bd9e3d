import NullPath.Proofs.Sorted
import NullPath.Proofs.TermOrder

/-!
# What folding does to values and sorts

Each folding constructor has the value of its operator on the values of its operands.  Neutral
elements may be dropped, double negations removed and literals computed, because the operands
are sorted and their values canonical.  The result is sorted again, has the sort of the operator,
and contains no division that was not there.

* `Expr.eval_mkNot`, `Expr.eval_mkArith`, `Expr.eval_mkEq`, …: the values of folded terms.
* `Expr.HasSort`: sorted terms of a sort; `Expr.HasSort.mkNot`, …: folded terms.
* `Expr.DivisionFree.mkNot`, …: folding introduces no division.
-/

namespace NullPath
namespace Expr

variable {D : Scope} {m : Model}

/-! ## Values of folded terms -/

variable {a b e : Expr} {x y : Constant} {op : BinOp}

theorem eval_binary (op : BinOp) (ha : a.eval m = .ok x) (hb : b.eval m = .ok y) :
    (binary op a b).eval m = op.apply x y := by
  rw [eval, ha, hb]

theorem eval_mkNot (hs : a.Sorted D) (hm : m.Suits D) (ha : a.eval m = .ok x) :
    (mkNot a).eval m = .ok x.not := by
  cases a with
  | const c =>
    cases ha
    rfl
  | not e =>
    obtain ⟨v, he, rfl⟩ := eval_not_eq_ok.1 ha
    have hv := hs.1.fits hm he
    rw [hs.2] at hv
    rw [mkNot, he, Constant.not_not hv]
  | _ =>
    rw [mkNot, eval, ha]
    all_goals simp

theorem eval_mkNeg (hs : a.Sorted D) (hm : m.Respects D) (ha : a.eval m = .ok x) :
    (mkNeg a).eval m = .ok x.neg := by
  cases a with
  | const c =>
    cases ha
    rfl
  | neg e =>
    obtain ⟨v, he, rfl⟩ := eval_neg_eq_ok.1 ha
    have hv := hs.1.hasSort hm he
    rw [hs.2] at hv
    rw [mkNeg, he, Constant.neg_neg hv]
  | _ =>
    rw [mkNeg, eval, ha]
    all_goals simp

theorem eval_of_isTrue (h : a.isTrue = true) (ha : a.eval m = .ok x) : x.isTrue = true := by
  cases a with
  | const c => cases ha; exact h
  | _ => simp [isTrue] at h

theorem eval_of_isFalse (h : a.isFalse = true) (ha : a.eval m = .ok x) : x.isTrue = false := by
  cases a with
  | const c =>
    cases ha
    rw [isFalse, Constant.isFalse, Bool.and_eq_true, beq_iff_eq] at h
    simp [Constant.isTrue, h.2]
  | _ => simp [isFalse] at h

theorem eval_of_isInt {v : Int} (h : a.isInt v = true) (ha : a.eval m = .ok x) : x.value = v := by
  cases a with
  | const c =>
    cases ha
    rw [isInt, Bool.and_eq_true, beq_iff_eq] at h
    exact h.2
  | _ => simp [isInt] at h

theorem eval_mkIte {c : Expr} {z : Constant} (hc : c.eval m = .ok z) :
    (mkIte c a b).eval m = if z.isTrue then a.eval m else b.eval m := by
  unfold mkIte
  split
  · next h => rw [eval_of_isTrue h hc]; rfl
  · split
    · next h => rw [eval_of_isFalse h hc]; rfl
    · rw [eval, hc]

section
variable (ha : a.eval m = .ok x) (hb : b.eval m = .ok y)
include ha hb

theorem eval_mkAnd (hx : x.HasSort .bool) (hy : y.HasSort .bool) :
    (mkAnd a b).eval m = .ok (.ofBool (x.isTrue && y.isTrue)) := by
  unfold mkAnd
  split
  · next h =>
    rw [hb, eval_of_isTrue h ha, Bool.true_and]
    exact congrArg _ hy.eq_ofBool
  · split
    · next h =>
      rw [ha, eval_of_isTrue h hb, Bool.and_true]
      exact congrArg _ hx.eq_ofBool
    · split
      · next h =>
        rcases Bool.or_eq_true _ _ ▸ h with h | h
        · rw [eval_of_isFalse h ha, Bool.false_and]
          rfl
        · rw [eval_of_isFalse h hb, Bool.and_false]
          rfl
      · rw [eval_binary _ ha hb]
        rfl

theorem eval_mkOr (hx : x.HasSort .bool) (hy : y.HasSort .bool) :
    (mkOr a b).eval m = .ok (.ofBool (x.isTrue || y.isTrue)) := by
  unfold mkOr
  split
  · next h =>
    rw [hb, eval_of_isFalse h ha, Bool.false_or]
    exact congrArg _ hy.eq_ofBool
  · split
    · next h =>
      rw [ha, eval_of_isFalse h hb, Bool.or_false]
      exact congrArg _ hx.eq_ofBool
    · split
      · next h =>
        rcases Bool.or_eq_true _ _ ▸ h with h | h
        · rw [eval_of_isTrue h ha, Bool.true_or]
          rfl
        · rw [eval_of_isTrue h hb, Bool.or_true]
          rfl
      · rw [eval_binary _ ha hb]
        rfl

theorem eval_mkImplies (hy : y.HasSort .bool) :
    (mkImplies a b).eval m = .ok (.ofBool (!x.isTrue || y.isTrue)) := by
  unfold mkImplies
  split
  · next h =>
    rw [hb, eval_of_isTrue h ha, Bool.not_true, Bool.false_or]
    exact congrArg _ hy.eq_ofBool
  · split
    · next h =>
      rcases Bool.or_eq_true _ _ ▸ h with h | h
      · rw [eval_of_isFalse h ha, Bool.not_false, Bool.true_or]
        rfl
      · rw [eval_of_isTrue h hb, Bool.or_true]
        rfl
    · rw [eval_binary _ ha hb]
      rfl

theorem eval_foldConstants (h : foldConstants op a b = some e) : e.eval m = op.apply x y := by
  unfold foldConstants at h
  split at h
  · cases ha
    cases hb
    split at h
    · next c hc => cases h; rw [hc]; rfl
    · cases h
  · cases h

/-- A comparison has the value of its operator. -/
theorem eval_mkCompare (op : BinOp) : (mkCompare op a b).eval m = op.apply x y := by
  unfold mkCompare
  cases h : foldConstants op a b with
  | none => exact eval_binary op ha hb
  | some e => exact eval_foldConstants ha hb h

theorem eval_dropNeutral (h : dropNeutral op a b = some e) (hx : x.HasSort .int)
    (hy : y.HasSort .int) : e.eval m = op.apply x y := by
  unfold dropNeutral at h
  split at h
  · split at h
    · next h₀ =>
      cases h
      rw [hb, BinOp.apply, eval_of_isInt h₀ ha, Int.zero_add]
      exact congrArg _ hy.eq_ofInt
    · split at h
      · next h₀ =>
        cases h
        rw [ha, BinOp.apply, eval_of_isInt h₀ hb, Int.add_zero]
        exact congrArg _ hx.eq_ofInt
      · cases h
  · split at h
    · next h₀ =>
      cases h
      rw [ha, BinOp.apply, eval_of_isInt h₀ hb, Int.sub_zero]
      exact congrArg _ hx.eq_ofInt
    · cases h
  · split at h
    · next h₁ =>
      cases h
      rw [hb, BinOp.apply, eval_of_isInt h₁ ha, Int.one_mul]
      exact congrArg _ hy.eq_ofInt
    · split at h
      · next h₁ =>
        cases h
        rw [ha, BinOp.apply, eval_of_isInt h₁ hb, Int.mul_one]
        exact congrArg _ hx.eq_ofInt
      · cases h
  · cases h

/-- An arithmetic term has the value of its operator. -/
theorem eval_mkArith (op : BinOp) (hx : x.HasSort .int) (hy : y.HasSort .int) :
    (mkArith op a b).eval m = op.apply x y := by
  unfold mkArith
  cases h : foldConstants op a b with
  | some e => exact eval_foldConstants ha hb h
  | none =>
    cases h' : dropNeutral op a b with
    | some e => exact eval_dropNeutral ha hb h' hx hy
    | none => exact eval_binary op ha hb

theorem eval_mkOrderedEq (hsa : a.Sorted D) (hsb : b.Sorted D) (hm : m.Suits D)
    (hsort : a.sort = b.sort) : (mkOrderedEq a b).eval m = .ok (x.eq y) := by
  unfold mkOrderedEq
  split
  · cases ha
    cases hb
    rfl
  · next c _ =>
    cases ha
    split
    · next hbool =>
      -- a literal truth value is dropped, or negates the other side
      have hx : x.HasSort .bool := hbool ▸ hsa
      have hy : y.HasSort .bool := by
        have := hsb.fits hm hb
        rwa [← hsort, sort, hbool] at this
      split
      · next h => rw [hb, Constant.eq_of_isTrue hx hy h]
      · next h => rw [eval_mkNot hsb hm hb, Constant.eq_of_not_isTrue hx hy (by simpa using h)]
    · exact eval_binary _ rfl hb
  · split
    · next h =>
      have hxy : x = y := by
        rw [eval_eq_of_compare h, hb] at ha
        cases ha
        rfl
      rw [hxy, Constant.eq, beq_self_eq_true]
      rfl
    · exact eval_binary _ ha hb

/-- An equation has the value of the comparison, on whatever side a literal stands. -/
theorem eval_mkEq (hsa : a.Sorted D) (hsb : b.Sorted D) (hm : m.Suits D) (hsort : a.sort = b.sort) :
    (mkEq a b).eval m = .ok (x.eq y) := by
  unfold mkEq
  split
  · rw [Constant.eq_comm]
    exact eval_mkOrderedEq hb ha hsb hsa hm hsort.symm
  · exact eval_mkOrderedEq ha hb hsa hsb hm hsort

end

theorem eval_isZero (hsa : a.Sorted D) (hm : m.Suits D) (ha : a.eval m = .ok x)
    (hsort : a.sort = .int) : (isZero a).eval m = .ok (.ofBool (x.value == 0)) :=
  eval_mkEq (y := .ofInt 0) ha rfl hsa (sorted_int D 0) hm hsort

/-- What is left when a neutral operand is dropped is the other operand. -/
theorem dropNeutral_eq_some (h : dropNeutral op a b = some e) : e = a ∨ e = b := by
  unfold dropNeutral at h
  split at h
  · split at h
    · exact .inr (Option.some.inj h).symm
    · split at h
      · exact .inl (Option.some.inj h).symm
      · cases h
  · split at h
    · exact .inl (Option.some.inj h).symm
    · cases h
  · split at h
    · exact .inr (Option.some.inj h).symm
    · split at h
      · exact .inl (Option.some.inj h).symm
      · cases h
  · cases h

/-! ## What folded terms inherit -/

/-- A property of terms of a sort that folding hands on.  New literals have it, what is negated in a
term that has it has it as well, and a node with one of some operators has it if its operands do, at
least if folding leaves the node standing. -/
structure Inherited (O : BinOp → Prop) (P : ExprSort → Expr → Prop) : Prop where
  literal : ∀ {c s}, c.HasSort s → P s (.const c)
  truth : ∀ {c s e}, P s (.const c) → c.sort = .bool → P s e → P .bool e
  of_not : ∀ {e}, P .bool (.not e) → P .bool e
  of_neg : ∀ {e}, P .int (.neg e) → P .int e
  not : ∀ {e}, P .bool e → mkNot e = .not e → P .bool (.not e)
  neg : ∀ {e}, P .int e → mkNeg e = .neg e → P .int (.neg e)
  ite : ∀ {c a b s}, P .bool c → P s a → P s b → mkIte c a b = .ite c a b → P s (.ite c a b)
  binary : ∀ {op a b s t}, O op → P s a → P t b → op.Accepts s t →
    mkBinary? op a b = some (.binary op a b) → P op.resultSort (.binary op a b)

namespace Inherited

variable {O : BinOp → Prop} {P : ExprSort → Expr → Prop} (hP : Inherited O P) {c : Expr}
  {s t : ExprSort}
include hP

theorem bool (v : Bool) : P .bool (.bool v) :=
  hP.literal (Constant.hasSort_ofBool v)

/-- What an operator folds to is its node, or has the property for another reason. -/
theorem folded (hop : O op) (ha : P s a) (hb : P t b) (hacc : op.Accepts s t)
    (he : mkBinary? op a b = some e) (h : P op.resultSort e ∨ e = .binary op a b) : P op.resultSort e := by
  rcases h with h | rfl
  · exact h
  · exact hP.binary hop ha hb hacc he

theorem mkNot (h : P .bool a) : P .bool (mkNot a) := by
  cases a with
  | const c => exact hP.literal (Constant.hasSort_not c)
  | not e => exact hP.of_not h
  | _ => exact hP.not h rfl

theorem mkNeg (h : P .int a) : P .int (mkNeg a) := by
  cases a with
  | const c => exact hP.literal (Constant.hasSort_neg c)
  | neg e => exact hP.of_neg h
  | _ => exact hP.neg h rfl

theorem mkIte (hc : P .bool c) (ha : P s a) (hb : P s b) : P s (mkIte c a b) := by
  have hnode := hP.ite hc ha hb
  revert hnode
  unfold Expr.mkIte
  split
  · exact fun _ => ha
  · split
    · exact fun _ => hb
    · exact fun hnode => hnode rfl

section
variable (ha : P .bool a) (hb : P .bool b)
include ha hb

theorem mkAnd (hop : O .and) : P .bool (mkAnd a b) := by
  refine hP.folded hop ha hb ⟨rfl, rfl⟩ rfl ?_
  unfold Expr.mkAnd
  split
  · exact .inl hb
  · split
    · exact .inl ha
    · split
      · exact .inl (hP.bool false)
      · exact .inr rfl

theorem mkOr (hop : O .or) : P .bool (mkOr a b) := by
  refine hP.folded hop ha hb ⟨rfl, rfl⟩ rfl ?_
  unfold Expr.mkOr
  split
  · exact .inl hb
  · split
    · exact .inl ha
    · split
      · exact .inl (hP.bool true)
      · exact .inr rfl

theorem mkImplies (hop : O .implies) : P .bool (mkImplies a b) := by
  refine hP.folded hop ha hb ⟨rfl, rfl⟩ rfl ?_
  unfold Expr.mkImplies
  split
  · exact .inl hb
  · split
    · exact .inl (hP.bool true)
    · exact .inr rfl

end

theorem conj {es : List Expr} (hop : O .and) (hes : ∀ e ∈ es, P .bool e) : P .bool (conj es) :=
  conj_induction (hP.bool true) (fun _ _ ha hb => hP.mkAnd ha hb hop) hes

theorem of_foldConstants (h : foldConstants op a b = some e) : P op.resultSort e := by
  unfold foldConstants at h
  split at h
  · split at h
    · next c hc =>
      cases h
      exact hP.literal (BinOp.hasSort_apply hc)
    · cases h
  · cases h

section
variable (ha : P .int a) (hb : P .int b)
include ha hb

theorem mkCompare (h : O op) (hop : op = .lt ∨ op = .le) : P .bool (mkCompare op a b) := by
  have hres : op.resultSort = .bool := by rcases hop with rfl | rfl <;> rfl
  have hacc : op.Accepts .int .int := by rcases hop with rfl | rfl <;> exact ⟨rfl, rfl⟩
  have hmk : Expr.mkBinary? op a b = some (Expr.mkCompare op a b) := by
    rcases hop with rfl | rfl <;> rfl
  rw [← hres]
  refine hP.folded h ha hb hacc hmk ?_
  unfold Expr.mkCompare
  cases hf : foldConstants op a b with
  | none => exact .inr rfl
  | some e => exact .inl (hP.of_foldConstants hf)

theorem mkArith (h : O op) (hop : op.isArithmetic = true) : P .int (mkArith op a b) := by
  have hres : op.resultSort = .int := by rw [BinOp.resultSort, if_pos hop]
  have hacc : op.Accepts .int .int := by cases op <;> first | exact ⟨rfl, rfl⟩ | cases hop
  have hmk : Expr.mkBinary? op a b = some (Expr.mkArith op a b) := by
    cases op <;> first | rfl | cases hop
  rw [← hres]
  refine hP.folded h ha hb hacc hmk ?_
  unfold Expr.mkArith
  cases hf : foldConstants op a b with
  | some e => exact .inl (hP.of_foldConstants hf)
  | none =>
    cases hd : dropNeutral op a b with
    | some e =>
      rw [hres]
      rcases dropNeutral_eq_some hd with rfl | rfl
      · exact .inl ha
      · exact .inl hb
    | none => exact .inr rfl

end

/-- An equation whose sides need not be exchanged. -/
theorem mkOrderedEq (hop : O .eq) (ha : P s a) (hb : P s b) (h : mkEq a b = mkOrderedEq a b) :
    P .bool (mkOrderedEq a b) := by
  refine hP.folded hop ha hb rfl (congrArg some h) ?_
  unfold Expr.mkOrderedEq
  split
  · exact .inl (hP.literal (Constant.hasSort_eq _ _))
  · split
    · next hsort =>
      have hbool := hP.truth ha hsort hb
      split
      · exact .inl hbool
      · exact .inl (hP.mkNot hbool)
    · exact .inr rfl
  · split
    · exact .inl (hP.bool true)
    · exact .inr rfl

theorem mkEq (hop : O .eq) (ha : P s a) (hb : P s b) : P .bool (mkEq a b) := by
  by_cases hswap : (!a.isConst && b.isConst) = true
  · have hb' : (!b.isConst && a.isConst) = false := by grind
    rw [Expr.mkEq, if_pos hswap]
    exact hP.mkOrderedEq hop hb ha (by rw [Expr.mkEq, hb']; rfl)
  · rw [Expr.mkEq, if_neg hswap]
    exact hP.mkOrderedEq hop ha hb (by rw [Expr.mkEq, if_neg hswap])

theorem isZero (hop : O .eq) (ha : P .int a) : P .bool (isZero a) :=
  hP.mkEq hop ha (hP.literal (Constant.hasSort_ofInt 0))

/-- Every operator that accepts its operands can be folded, and hands on what they have. -/
theorem mkBinary? (hO : ∀ op, O op) (ha : P s a) (hb : P t b) (h : op.Accepts s t) :
    ∃ e, mkBinary? op a b = some e ∧ P op.resultSort e := by
  cases op with
  | add | sub | mul | div | mod =>
    obtain ⟨rfl, rfl⟩ := h
    exact ⟨_, rfl, hP.mkArith ha hb (hO _) rfl⟩
  | and =>
    obtain ⟨rfl, rfl⟩ := h
    exact ⟨_, rfl, hP.mkAnd ha hb (hO _)⟩
  | or =>
    obtain ⟨rfl, rfl⟩ := h
    exact ⟨_, rfl, hP.mkOr ha hb (hO _)⟩
  | implies =>
    obtain ⟨rfl, rfl⟩ := h
    exact ⟨_, rfl, hP.mkImplies ha hb (hO _)⟩
  | eq =>
    cases h
    exact ⟨_, rfl, hP.mkEq (hO _) ha hb⟩
  | ne =>
    cases h
    exact ⟨_, rfl, hP.mkNot (hP.mkEq (hO _) ha hb)⟩
  | lt | le =>
    obtain ⟨rfl, rfl⟩ := h
    exact ⟨_, rfl, hP.mkCompare ha hb (hO _) (by simp)⟩
  | gt | ge =>
    -- the comparison is turned around, and so are its operands
    obtain ⟨rfl, rfl⟩ := h
    exact ⟨_, rfl, hP.mkCompare hb ha (hO _) (by simp)⟩
  | other _ _ => exact h.elim

end Inherited

/-! ## Sorts of folded terms -/

/-- A sorted term of a sort. -/
structure HasSort (D : Scope) (e : Expr) (s : ExprSort) : Prop where
  sorted : e.Sorted D
  sort_eq : e.sort = s

theorem inherited_hasSort (D : Scope) : Inherited (fun _ => True) fun s e => e.HasSort D s where
  literal h := ⟨by rw [Sorted, h.sort_eq]; exact h, h.sort_eq⟩
  truth hc hs he := ⟨he.sorted, he.sort_eq.trans (hc.sort_eq.symm.trans hs)⟩
  of_not h := ⟨h.sorted.1, h.sorted.2⟩
  of_neg h := ⟨h.sorted.1, h.sorted.2⟩
  not h _ := ⟨⟨h.sorted, h.sort_eq⟩, rfl⟩
  neg h _ := ⟨⟨h.sorted, h.sort_eq⟩, rfl⟩
  ite hc ha hb _ := ⟨⟨hc.sorted, ha.sorted, hb.sorted, hc.sort_eq,
    ha.sort_eq.trans hb.sort_eq.symm⟩, ha.sort_eq⟩
  binary _ ha hb h _ := ⟨⟨ha.sorted, hb.sorted, by rw [ha.sort_eq, hb.sort_eq]; exact h⟩, rfl⟩

namespace HasSort

variable {c : Expr} {s : ExprSort} {op : BinOp}

theorem mono {D' : Scope} (hD : D.Le D') (h : a.HasSort D s) : a.HasSort D' s :=
  ⟨h.sorted.mono hD, h.sort_eq⟩

theorem int (v : Int) : (Expr.int v).HasSort D .int := ⟨sorted_int D v, rfl⟩

theorem bool (v : Bool) : (Expr.bool v).HasSort D .bool := ⟨sorted_bool D v, rfl⟩

theorem eval (h : a.HasSort D s) (hm : m.Respects D) (ha : a.eval m = .ok x) : x.HasSort s :=
  h.sort_eq ▸ h.sorted.hasSort hm ha

theorem mkNot (h : a.HasSort D .bool) : (mkNot a).HasSort D .bool := (inherited_hasSort D).mkNot h

theorem mkNeg (h : a.HasSort D .int) : (mkNeg a).HasSort D .int := (inherited_hasSort D).mkNeg h

theorem mkIte (hc : c.HasSort D .bool) (ha : a.HasSort D s) (hb : b.HasSort D s) :
    (mkIte c a b).HasSort D s :=
  (inherited_hasSort D).mkIte hc ha hb

theorem binary (ha : a.Sorted D) (hb : b.Sorted D) (h : op.Accepts a.sort b.sort) :
    (Expr.binary op a b).HasSort D op.resultSort :=
  ⟨⟨ha, hb, h⟩, rfl⟩

section
variable (ha : a.HasSort D .bool) (hb : b.HasSort D .bool)
include ha hb

theorem mkAnd : (mkAnd a b).HasSort D .bool := (inherited_hasSort D).mkAnd ha hb trivial

theorem mkOr : (mkOr a b).HasSort D .bool := (inherited_hasSort D).mkOr ha hb trivial

theorem mkImplies : (mkImplies a b).HasSort D .bool := (inherited_hasSort D).mkImplies ha hb trivial

end

theorem conj {es : List Expr} (hes : ∀ e ∈ es, e.HasSort D .bool) : (conj es).HasSort D .bool :=
  (inherited_hasSort D).conj trivial hes

theorem of_foldConstants (h : foldConstants op a b = some e) : e.HasSort D op.resultSort :=
  (inherited_hasSort D).of_foldConstants h

theorem mkCompare (ha : a.Sorted D) (hb : b.Sorted D) (h : op.Accepts a.sort b.sort) :
    (mkCompare op a b).HasSort D op.resultSort := by
  unfold Expr.mkCompare
  cases hf : foldConstants op a b with
  | none => exact binary ha hb h
  | some e => exact of_foldConstants hf

theorem mkArith (hop : op.isArithmetic = true) (ha : a.HasSort D .int) (hb : b.HasSort D .int) :
    (mkArith op a b).HasSort D .int :=
  (inherited_hasSort D).mkArith ha hb trivial hop

theorem mkEq (ha : a.HasSort D s) (hb : b.HasSort D s) : (mkEq a b).HasSort D .bool :=
  (inherited_hasSort D).mkEq trivial ha hb

theorem isZero (ha : a.HasSort D .int) : (isZero a).HasSort D .bool := ha.mkEq (.int 0)

end HasSort

/-! ## Folding introduces no division -/

theorem inherited_divisionFree :
    Inherited (fun op => op ≠ .div ∧ op ≠ .mod) fun _ e => e.DivisionFree where
  literal _ := trivial
  truth _ _ h := h
  of_not h := h
  of_neg h := h
  not h _ := h
  neg h _ := h
  ite hc ha hb _ := ⟨hc, ha, hb⟩
  binary hop ha hb _ _ := ⟨hop.1, hop.2, ha, hb⟩

namespace DivisionFree

variable {c : Expr} {op : BinOp}

theorem mkNot (h : a.DivisionFree) : (mkNot a).DivisionFree := inherited_divisionFree.mkNot h

theorem mkNeg (h : a.DivisionFree) : (mkNeg a).DivisionFree := inherited_divisionFree.mkNeg h

theorem conj {es : List Expr} (hes : ∀ e ∈ es, e.DivisionFree) : (conj es).DivisionFree :=
  inherited_divisionFree.conj (by simp) hes

theorem mkIte (hc : c.DivisionFree) (ha : a.DivisionFree) (hb : b.DivisionFree) :
    (mkIte c a b).DivisionFree :=
  inherited_divisionFree.mkIte (s := .int) hc ha hb

section
variable (ha : a.DivisionFree) (hb : b.DivisionFree)

include ha in
theorem isZero : (isZero a).DivisionFree := inherited_divisionFree.isZero (by simp) ha

include ha hb

theorem mkAnd : (mkAnd a b).DivisionFree := inherited_divisionFree.mkAnd ha hb (by simp)

theorem mkOr : (mkOr a b).DivisionFree := inherited_divisionFree.mkOr ha hb (by simp)

theorem mkEq : (mkEq a b).DivisionFree := inherited_divisionFree.mkEq (s := .int) (by simp) ha hb

theorem mkCompare (hop : op = .lt ∨ op = .le) : (mkCompare op a b).DivisionFree :=
  inherited_divisionFree.mkCompare ha hb (by rcases hop with rfl | rfl <;> simp) hop

theorem mkArith (hop : op.isArithmetic = true) (hdiv : op ≠ .div) (hmod : op ≠ .mod) :
    (mkArith op a b).DivisionFree :=
  inherited_divisionFree.mkArith ha hb ⟨hdiv, hmod⟩ hop

end

end DivisionFree

end Expr
end NullPath
