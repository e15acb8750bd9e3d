import NullPath.Proofs.FoldedValues

/-!
# Folded terms are well formed

Folding may answer with an operand, with what an operand negates, with a new literal or with a node.
In each case the term is well sorted and has the sort of the operation, its names are names of the
operands, and its literals are literals of the operands or new ones, where a new truth value is 0
or 1.  A truth value in an operand may be stored as any number.

No folding constructor leaves something behind that a second pass would fold: a term that has been
built by the constructors is returned unchanged if it is taken apart and built again.

* `Expr.WellSorted`, `Expr.leaves`: sorted terms, and their names and literals.
* `Expr.folding_well_formed`: the results of all folding constructors.
-/

namespace NullPath
namespace Expr

variable {e : Expr} {s : ExprSort}

/-- The names and literals of a term. -/
def leaves : Expr → List Expr
  | .const c => [.const c]
  | .name n s => [.name n s]
  | .not e | .neg e => leaves e
  | .ite c t e => leaves c ++ leaves t ++ leaves e
  | .binary _ l r => leaves l ++ leaves r

/-- A term whose operators are applied to operands of their sorts.  Truth values may be stored as any
number. -/
def WellSorted : Expr → Prop
  | .const c => c.sort = .int ∨ c.sort = .bool
  | .name _ s => s = .int ∨ s = .bool
  | .not e => e.WellSorted ∧ e.sort = .bool
  | .neg e => e.WellSorted ∧ e.sort = .int
  | .ite c t e => c.WellSorted ∧ t.WellSorted ∧ e.WellSorted ∧ c.sort = .bool ∧ t.sort = e.sort
  | .binary op l r => l.WellSorted ∧ r.WellSorted ∧ op.Accepts l.sort r.sort

/-- A well sorted term of a sort whose leaves meet a condition. -/
structure Formed (L : Expr → Prop) (s : ExprSort) (e : Expr) : Prop where
  wellSorted : e.WellSorted
  sort_eq : e.sort = s
  leaves : ∀ l ∈ e.leaves, L l

theorem inherited_formed {L : Expr → Prop} (hL : ∀ c, c.HasSort c.sort → L (.const c)) :
    Inherited (fun _ => True) (Formed L) where
  literal {c s} h := by
    have hsort : c.HasSort c.sort := h.sort_eq.symm ▸ h
    exact ⟨Sorted.sort_cases (D := fun _ _ => True) (e := .const c) hsort, h.sort_eq,
      List.forall_mem_singleton.mpr (hL c hsort)⟩
  truth hc hs he := ⟨he.wellSorted, he.sort_eq.trans (hc.sort_eq.symm.trans hs), he.leaves⟩
  of_not h := ⟨h.wellSorted.1, h.wellSorted.2, h.leaves⟩
  of_neg h := ⟨h.wellSorted.1, h.wellSorted.2, h.leaves⟩
  not h _ := ⟨⟨h.wellSorted, h.sort_eq⟩, rfl, h.leaves⟩
  neg h _ := ⟨⟨h.wellSorted, h.sort_eq⟩, rfl, h.leaves⟩
  ite hc ha hb _ := by
    refine ⟨⟨hc.wellSorted, ha.wellSorted, hb.wellSorted, hc.sort_eq,
      ha.sort_eq.trans hb.sort_eq.symm⟩, ha.sort_eq, ?_⟩
    simp only [Expr.leaves, List.forall_mem_append]
    exact ⟨⟨hc.leaves, ha.leaves⟩, hb.leaves⟩
  binary _ ha hb h _ := by
    refine ⟨⟨ha.wellSorted, hb.wellSorted, by rw [ha.sort_eq, hb.sort_eq]; exact h⟩, rfl, ?_⟩
    exact List.forall_mem_append.mpr ⟨ha.leaves, hb.leaves⟩

/-! ## Building a term again -/

/-- The term built again by the folding constructors, from its leaves upwards.  There is none if an
operator is foreign. -/
def rebuild : Expr → Option Expr
  | .const c => some (.const c)
  | .name n s => some (.name n s)
  | .not e => (rebuild e).map mkNot
  | .neg e => (rebuild e).map mkNeg
  | .ite c t e => do return mkIte (← rebuild c) (← rebuild t) (← rebuild e)
  | .binary op l r => do mkBinary? op (← rebuild l) (← rebuild r)

/-- The terms that the folding constructors build. -/
inductive Built : Expr → Prop
  | const (c : Constant) : Built (.const c)
  | name (n : Name) (s : ExprSort) : Built (.name n s)
  | not {e : Expr} : Built e → Built (mkNot e)
  | neg {e : Expr} : Built e → Built (mkNeg e)
  | ite {c a b : Expr} : Built c → Built a → Built b → Built (mkIte c a b)
  | binary {op : BinOp} {a b e : Expr} : Built a → Built b → mkBinary? op a b = some e → Built e

/-- A term none of whose nodes is folded. -/
def Normal : Expr → Prop
  | .const _ | .name _ _ => True
  | .not e => e.Normal ∧ mkNot e = .not e
  | .neg e => e.Normal ∧ mkNeg e = .neg e
  | .ite c t e => c.Normal ∧ t.Normal ∧ e.Normal ∧ mkIte c t e = .ite c t e
  | .binary op l r => l.Normal ∧ r.Normal ∧ mkBinary? op l r = some (.binary op l r)

theorem inherited_normal : Inherited (fun _ => True) fun _ e => e.Normal where
  literal _ := trivial
  truth _ _ h := h
  of_not h := h.1
  of_neg h := h.1
  not h hnode := ⟨h, hnode⟩
  neg h hnode := ⟨h, hnode⟩
  ite hc ha hb hnode := ⟨hc, ha, hb, hnode⟩
  binary _ ha hb _ hnode := ⟨ha, hb, hnode⟩

/-- Every operator that can be folded accepts operands of some sorts. -/
theorem exists_accepts {op : BinOp} {a b : Expr} (h : mkBinary? op a b = some e) :
    ∃ s t, op.Accepts s t := by
  cases op with
  | other _ _ => cases h
  | and | or | implies => exact ⟨.bool, .bool, rfl, rfl⟩
  | eq | ne => exact ⟨.int, .int, rfl⟩
  | _ => exact ⟨.int, .int, rfl, rfl⟩

/-- No node of a built term is folded. -/
theorem Built.normal (h : e.Built) : e.Normal := by
  induction h with
  | const | name => trivial
  | not _ ih => exact inherited_normal.mkNot ih
  | neg _ ih => exact inherited_normal.mkNeg ih
  | ite _ _ _ ihc iha ihb => exact inherited_normal.mkIte (s := .int) ihc iha ihb
  | binary _ _ he iha ihb =>
    obtain ⟨s, t, hacc⟩ := exists_accepts he
    obtain ⟨e', he', hnormal⟩ := inherited_normal.mkBinary? (fun _ => trivial) iha ihb hacc
    cases he.symm.trans he'
    exact hnormal

theorem Normal.rebuild (h : e.Normal) : e.rebuild = some e := by
  induction e with
  | const c | name n s => rfl
  | not e ih | neg e ih => rw [Expr.rebuild, ih h.1, Option.map_some, h.2]
  | ite c t e ihc iht ihe =>
    obtain ⟨hc, ht, he, hnode⟩ := h
    simp [Expr.rebuild, ihc hc, iht ht, ihe he, hnode]
  | binary op l r ihl ihr =>
    obtain ⟨hl, hr, hnode⟩ := h
    simp [Expr.rebuild, ihl hl, ihr hr, hnode]

/-! ## Results of folding -/

/-- What folding makes of operands: a well sorted term of a sort, with names and literals of the
operands only, new literals apart, which is built again from itself if the operands have been
built. -/
structure FoldedFrom (operands : List Expr) (s : ExprSort) (e : Expr) : Prop where
  wellSorted : e.WellSorted
  sort_eq : e.sort = s
  names : ∀ n t, .name n t ∈ e.leaves → ∃ a ∈ operands, .name n t ∈ a.leaves
  literals : ∀ c, .const c ∈ e.leaves → (∃ a ∈ operands, .const c ∈ a.leaves) ∨ c.HasSort c.sort
  normal : (∀ a ∈ operands, a.Built) → e.rebuild = some e

/-- A term that inherits every property of its operands is folded from them. -/
theorem foldedFrom {operands : List Expr} (hw : ∀ a ∈ operands, a.WellSorted)
    (h : ∀ P, Inherited (fun _ => True) P → (∀ a ∈ operands, P a.sort a) → P s e) :
    FoldedFrom operands s e := by
  have hformed := h _
    (inherited_formed (L := fun l => (∃ a ∈ operands, l ∈ a.leaves) ∨
      ∃ c, l = .const c ∧ c.HasSort c.sort) fun c hc => .inr ⟨c, rfl, hc⟩)
    fun a ha => ⟨hw a ha, rfl, fun l hl => .inl ⟨a, ha, hl⟩⟩
  refine ⟨hformed.wellSorted, hformed.sort_eq, fun n t hn => ?_, fun c hc => ?_, fun hb => ?_⟩
  · rcases hformed.leaves _ hn with hn | ⟨c, hc, -⟩
    · exact hn
    · cases hc
  · rcases hformed.leaves _ hc with hc | ⟨c', heq, hc⟩
    · exact .inl hc
    · cases heq
      exact .inr hc
  · exact (h _ inherited_normal fun a ha => (hb a ha).normal).rebuild

/-- Folding keeps terms well formed.  Whatever well sorted operands a folding constructor is given,
its result is well sorted, has the sort of the operation, contains names of the operands only, stores
new truth values as 0 or 1, and is left as it is when it is built again. -/
theorem folding_well_formed :
    (∀ op a b, (binary op a b).WellSorted →
      ∃ e, mkBinary? op a b = some e ∧
        e.FoldedFrom [a, b] (if op.isArithmetic then .int else .bool)) ∧
    (∀ es, (∀ e ∈ es, e.WellSorted ∧ e.sort = .bool) → (conj es).FoldedFrom es .bool) ∧
    (∀ a, (not a).WellSorted → (mkNot a).FoldedFrom [a] .bool) ∧
    (∀ a, (neg a).WellSorted → (mkNeg a).FoldedFrom [a] .int) ∧
    (∀ c a b, (ite c a b).WellSorted → (mkIte c a b).FoldedFrom [c, a, b] a.sort) ∧
    ∀ a, a.WellSorted → a.sort = .int → (isZero a).FoldedFrom [a] .bool := by
  refine ⟨?_, ?_, ?_, ?_, ?_, ?_⟩
  · intro op a b hw
    obtain ⟨ha, hb, hacc⟩ := hw
    obtain ⟨e, he⟩ := exists_mkBinary? hacc
    refine ⟨e, he, foldedFrom (by simp [ha, hb]) fun P hP h => ?_⟩
    obtain ⟨e', he', hfolded⟩ :=
      hP.mkBinary? (fun _ => trivial) (h a (by simp)) (h b (by simp)) hacc
    cases he.symm.trans he'
    exact hfolded
  · intro es hw
    refine foldedFrom (fun a ha => (hw a ha).1) fun P hP h => hP.conj trivial fun e he => ?_
    exact (hw e he).2 ▸ h e he
  · intro a hw
    exact foldedFrom (by simp [hw.1]) fun P hP h => hP.mkNot (hw.2 ▸ h a (by simp))
  · intro a hw
    exact foldedFrom (by simp [hw.1]) fun P hP h => hP.mkNeg (hw.2 ▸ h a (by simp))
  · intro c a b hw
    obtain ⟨hc, ha, hb, hcond, hsort⟩ := hw
    refine foldedFrom (by simp [hc, ha, hb]) fun P hP h => ?_
    exact hP.mkIte (hcond ▸ h c (by simp)) (h a (by simp)) (hsort ▸ h b (by simp))
  · intro a hw hint
    exact foldedFrom (by simp [hw]) fun P hP h => hP.isZero trivial (hint ▸ h a (by simp))

end Expr
end NullPath
