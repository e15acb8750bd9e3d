import NullPath.Proofs.PointerSorts
import NullPath.Proofs.Question
import NullPath.Proofs.SearchOrder

/-!
# Questions are well formed

Every question that is asked about a finished graph passes the check of its form: all its assertions
are truth values, and all their names are declared.  So a solver is asked about every dereference
that is looked at, and only the solver can leave one undecided.

The pointer of a dereference need not be declared as a number.  The test whether it is zero is a
truth value all the same, and its only name is the pointer.

* `Graph.BooleanOver`: graphs whose terms are truth values; their formulas and path conditions.
* `Explorer.run_queries_valid`: the questions about the graph of an exploration.
-/

namespace NullPath

/-! ## The form of a question -/

theorem Expr.isZero_name (n : Name) (s : ExprSort) :
    isZero (name n s) = binary .eq (int 0) (name n s) := rfl

/-- A question is well formed exactly if its assertions are truth values over declared names. -/
theorem Query.validate_eq_ok {q : Query} : q.validate = .ok () ↔
    (∀ a ∈ q.assertions, a.sort = .bool) ∧
      ∀ n ∈ Expr.names q.assertions, ∃ d ∈ q.declarations, d.name = n := by
  have hsorts : q.assertions.find? (fun e => e.sort ≠ .bool) = none ↔
      ∀ a ∈ q.assertions, a.sort = .bool := by simp [List.find?_eq_none]
  have hnames : ((Expr.names q.assertions).find? fun n => !q.declarations.any fun d => d.name = n) =
      none ↔ ∀ n ∈ Expr.names q.assertions, ∃ d ∈ q.declarations, d.name = n := by
    simp [List.find?_eq_none]
  rw [← hsorts, ← hnames, validate, defect?]
  cases q.assertions.find? fun e => e.sort ≠ .bool with
  | some e => simp
  | none =>
    cases (Expr.names q.assertions).find? fun n => !q.declarations.any fun d => d.name = n <;> simp

namespace Graph

variable {g : Graph} {D : Scope} {root : Int} {d : Declaration} {t : DerefTag} {q : Query}

/-- All facts and guards of the graph are truth values over a scope. -/
structure BooleanOver (g : Graph) (D : Scope) : Prop where
  exprs : ∀ a n, g.node? a = some n → ∀ c ∈ n.exprs, c.HasSort D .bool
  out : ∀ a n, g.node? a = some n → ∀ ed ∈ n.out, ∀ c ∈ ed.guard, c.HasSort D .bool
  into : ∀ a n, g.node? a = some n → ∀ ed ∈ n.into, ∀ c ∈ ed.guard, c.HasSort D .bool

theorem hasSort_underGuard {c : Option Expr} {e : Expr} (hc : ∀ b ∈ c, b.HasSort D .bool)
    (he : e.HasSort D .bool) : (underGuard c e).HasSort D .bool := by
  cases c with
  | none => exact he
  | some b => exact (hc b rfl).mkImplies he

namespace BooleanOver

theorem formulaWithin (h : g.BooleanOver D) (depth : Nat) (a : Int) :
    (g.formulaWithin depth a).HasSort D .bool := by
  induction depth generalizing a with
  | zero => exact .bool true
  | succ depth ih =>
    rw [Graph.formulaWithin]
    cases hn : g.node? a with
    | none => exact .bool true
    | some n =>
      refine .conj fun c hc => ?_
      rcases List.mem_append.mp hc with hc | hc
      · exact h.exprs a n hn c hc
      · obtain ⟨ed, hed, rfl⟩ := List.mem_map.mp hc
        exact hasSort_underGuard (h.out a n hn ed hed) (ih ed.target)

theorem guardsWithin (h : g.BooleanOver D) (depth : Nat) (a : Int) :
    ∀ c ∈ g.guardsWithin depth a, c.HasSort D .bool := by
  induction depth generalizing a with
  | zero => simp [Graph.guardsWithin]
  | succ depth ih =>
    rw [Graph.guardsWithin]
    cases hn : g.node? a with
    | none => simp
    | some n =>
      intro c hc
      simp only at hc
      split at hc
      · cases hc
      · next ed eds hinto =>
        rcases List.mem_append.mp hc with hc | hc
        · exact ih ed.target c hc
        · exact h.into a n hn ed (by simp [hinto]) c (Option.mem_toList.mp hc)

end BooleanOver

theorem tagQuery_eq_ok_iff :
    g.tagQuery root d t = .ok q ↔
      ∃ path, g.pathConstraint t.node = .ok path ∧
        Query.ofGraph g root [.isZero d.expr, path] = .ok q := by
  rw [tagQuery]
  cases g.pathConstraint t.node <;> simp [bind, Except.bind]

/-- The question about a dereference is well formed if the terms of the graph are truth values over
declared names. -/
theorem BooleanOver.validate_tagQuery (h : g.BooleanOver D)
    (hD : ∀ n s, D n s → ∃ d ∈ g.decls, d.name = n) (hd : d ∈ g.decls)
    (hq : q = ⟨g.decls, [.isZero d.expr, .conj (g.guards t.node),
      g.formulaWithin g.nodes.length root]⟩) : q.validate = .ok () := by
  subst hq
  have hpath : (Expr.conj (g.guards t.node)).HasSort D .bool := .conj (h.guardsWithin _ _)
  have hformula := h.formulaWithin g.nodes.length root
  rw [Query.validate_eq_ok]
  refine ⟨?_, fun n hn => ?_⟩
  · simp only [List.forall_mem_cons, List.not_mem_nil, false_imp_iff, implies_true, and_true]
    exact ⟨rfl, hpath.sort_eq, hformula.sort_eq⟩
  · obtain ⟨a, ha, hna⟩ := Expr.mem_names.mp hn
    rcases List.mem_cons.mp ha with rfl | ha
    · rw [Declaration.expr, Expr.isZero_name] at hna
      obtain rfl : n = d.name := by simpa [Expr.int] using hna
      exact ⟨d, hd, rfl⟩
    · have hsort : a.HasSort D .bool := by
        rcases List.mem_cons.mp ha with rfl | ha
        · exact hpath
        · rw [List.mem_singleton.mp ha]
          exact hformula
      obtain ⟨s, hs⟩ := hsort.sorted.mem_occurrences hna
      exact hD n s hs

/-! ## What is left undecided -/

/-- If the question about each of the given dereferences is well formed, going through them ends
with a result, and whatever is newly left undecided is an error of the solver on the question about
one of them. -/
theorem unknowns_synthesizeTags {σ : Type} (s : Solver σ) (f : Function)
    {ts : List (Declaration × DerefTag)}
    (hts : ∀ p ∈ ts, ∃ q, g.tagQuery root p.1 p.2 = .ok q ∧ q.validate = .ok ()) (r : Synthesis)
    (st : σ) :
    ∃ r' done st', synthesizeTags s f g root ts r st = (.ok (r', done), st') ∧
      ∀ u ∈ r'.unknowns, u ∈ r.unknowns ∨ ∃ d t q st₀, (d, t) ∈ ts ∧
        g.tagQuery root d t = .ok q ∧ u.function = f.name ∧ u.site = t.span ∧ u.node = t.node ∧
        (s.solve q st₀).1 = .error u.reason := by
  induction ts generalizing r st with
  | nil => exact ⟨r, true, st, rfl, fun u hu => .inl hu⟩
  | cons p ts ih =>
    obtain ⟨d, t⟩ := p
    obtain ⟨⟨q, hq, hvalid⟩, hts⟩ := List.forall_mem_cons.mp hts
    -- the rest of the dereferences, from any result on whose unknowns are accounted for
    have hrest : ∀ r₁ st₁,
        (∀ u ∈ r₁.unknowns, u ∈ r.unknowns ∨ ∃ st₀, u.function = f.name ∧ u.site = t.span ∧
          u.node = t.node ∧ (s.solve q st₀).1 = .error u.reason) →
        ∃ r' done st', synthesizeTags s f g root ts r₁ st₁ = (.ok (r', done), st') ∧
          ∀ u ∈ r'.unknowns, u ∈ r.unknowns ∨ ∃ d' t' q st₀, (d', t') ∈ (d, t) :: ts ∧
            g.tagQuery root d' t' = .ok q ∧ u.function = f.name ∧ u.site = t'.span ∧
            u.node = t'.node ∧ (s.solve q st₀).1 = .error u.reason := by
      intro r₁ st₁ h₁
      obtain ⟨r', done, st', heq, hunknowns⟩ := ih hts r₁ st₁
      refine ⟨r', done, st', heq, fun u hu => ?_⟩
      rcases hunknowns u hu with hu | ⟨d', t', q', st₀, hmem, hrest⟩
      · rcases h₁ u hu with hu | ⟨st₀, hu⟩
        · exact .inl hu
        · exact .inr ⟨d, t, q, st₀, by simp, hq, hu⟩
      · exact .inr ⟨d', t', q', st₀, by simp [hmem], hrest⟩
    rw [synthesizeTags]
    split
    · exact ⟨r, false, st, rfl, fun u hu => .inl hu⟩
    · split
      · exact hrest r st fun u hu => .inl hu
      · rw [checkTag_eq, hq]
        simp only [hvalid]
        cases hsolve : s.solve q st with
        | mk answer st₁ =>
          cases answer with
          | error err =>
            simp only
            split
            · exact ⟨r, false, st₁, rfl, fun u hu => .inl hu⟩
            · refine hrest _ st₁ fun u hu => ?_
              rcases List.mem_append.mp hu with hu | hu
              · exact .inl hu
              · rw [List.mem_singleton.mp hu]
                exact .inr ⟨st, rfl, rfl, rfl, by rw [hsolve]⟩
          | ok m =>
            cases m with
            | none => exact hrest r st₁ fun u hu => .inl hu
            | some m => exact hrest _ st₁ fun u hu => .inl hu

end Graph

namespace Explorer

variable {s₀ : Store} {e : Explorer} {vs : List Visit}

/-- The facts and guards of an explored graph are truth values over declared names. -/
theorem Logged.booleanOver (hl : Logged s₀ e vs) :
    e.graph.BooleanOver e.graph.uses := by
  refine ⟨fun a n hn c hc => ?_, fun a n hn ed hed c hc => ?_, fun a n hn ed hed c hc => ?_⟩
  · obtain ⟨i, v, rfl, hv, -⟩ := hl.exists_of_node hn
    exact (hl.exprs hv hn c hc).1.mono (hl.uses_left_le hv)
  · exact (hl.guard_of_out hn hed c hc).1
  · obtain ⟨j, w, rfl, hw, hinto⟩ := hl.exists_of_node hn
    rw [hinto, Frame.links] at hed
    cases hpar : w.frame.parent with
    | none => rw [hpar] at hed; cases hed
    | some p =>
      rw [hpar] at hed
      obtain rfl := List.mem_singleton.mp hed
      exact (hl.guard hw hpar c hc).1

/-- The question about a dereference of an explored graph is well formed. -/
theorem Logged.validate_tagQuery (hl : Logged s₀ e vs) {d : Declaration} {t : DerefTag}
    (htag : (d, t) ∈ e.graph.tags) :
    ∃ q, e.graph.tagQuery e.root d t = .ok q ∧ q.validate = .ok () := by
  obtain ⟨hd, ht⟩ := Graph.mem_tags.mp htag
  obtain ⟨k, hk⟩ := List.mem_iff_getElem?.mp hd
  obtain ⟨j, w, hj, hw, -⟩ := hl.tags k d hk t ht
  obtain ⟨n₀, hn₀, -⟩ := (hl.isTree (List.ne_nil_of_mem (List.mem_of_getElem? hw))).root
  obtain ⟨n, -, hn, -⟩ := hl.node hw
  rw [← hj] at hn
  refine ⟨_, Graph.tagQuery_eq_ok hn hn₀, hl.booleanOver.validate_tagQuery ?_ hd rfl⟩
  rintro x s ⟨-, d', hd', -⟩
  exact ⟨d', List.mem_of_getElem? hd', (hl.tidy x.index d' hd').1⟩

/-- **Questions are well formed.**  After a successful exploration, whatever the program, the
options and the searcher are, the question about every dereference can be built, its assertions are
truth values and their names are declared, so it passes the check.  Therefore going through the
dereferences gives a result with every solver, and what is left undecided is an error that the
solver returned for the question about a dereference. -/
theorem run_queries_valid {e : Explorer} (he : e.Fresh) (hrun : e.run.1 = .ok ()) :
    (∀ d t, (d, t) ∈ e.run.2.graph.tags → ∃ path q,
      e.run.2.graph.pathConstraint t.node = .ok path ∧
      Query.ofGraph e.run.2.graph e.run.2.root [.isZero d.expr, path] = .ok q ∧
      (∀ a ∈ q.assertions, a.sort = .bool) ∧
      (∀ n ∈ Expr.names q.assertions, ∃ d' ∈ q.declarations, d'.name = n) ∧
      q.validate = .ok ()) ∧
    ∀ (σ : Type) (s : Solver σ) (f : Function) (st : σ), ∃ r done st',
      synthesize s f e.run.2.graph e.run.2.root st = (.ok (r, done), st') ∧
      ∀ u ∈ r.unknowns, ∃ d t q st₀, (d, t) ∈ e.run.2.graph.tags ∧
        e.run.2.graph.tagQuery e.run.2.root d t = .ok q ∧ q.validate = .ok () ∧
        u.function = f.name ∧ u.site = t.span ∧ u.node = t.node ∧
        (s.solve q st₀).1 = .error u.reason := by
  simp only [run_eq] at hrun ⊢
  obtain ⟨s₀, vs, hl, -⟩ := exists_log he hrun
  refine ⟨fun d t htag => ?_, fun σ s f st => ?_⟩
  · obtain ⟨q, hq, hvalid⟩ := hl.validate_tagQuery htag
    obtain ⟨path, hpath, hquery⟩ := Graph.tagQuery_eq_ok_iff.mp hq
    obtain ⟨hsorts, hnames⟩ := Query.validate_eq_ok.mp hvalid
    exact ⟨path, q, hpath, hquery, hsorts, hnames, hvalid⟩
  · obtain ⟨r, done, st', heq, hunknowns⟩ := Graph.unknowns_synthesizeTags s f
      (fun p hp => hl.validate_tagQuery hp) {} st
    refine ⟨r, done, st', heq, fun u hu => ?_⟩
    rcases hunknowns u hu with hu | ⟨d, t, q, st₀, htag, hq, hrest⟩
    · cases hu
    · obtain ⟨q', hq', hvalid⟩ := hl.validate_tagQuery htag
      obtain rfl : q = q' := Except.ok.inj (hq.symm.trans hq')
      exact ⟨d, t, q, st₀, htag, hq, hvalid, hrest⟩

/-- The question about a pointer that is declared as a truth value passes the check. -/
theorem booleanCopy_queries_valid :
    booleanCopy.run.1 = .ok () ∧ ∃ d t, (d, t) ∈ booleanCopy.run.2.graph.tags ∧ d.sort = .bool ∧
      ∃ path q, booleanCopy.run.2.graph.pathConstraint t.node = .ok path ∧
        Query.ofGraph booleanCopy.run.2.graph booleanCopy.run.2.root [.isZero d.expr, path] =
          .ok q ∧
        q.validate = .ok () := by
  have hrun : booleanCopy.run.1 = .ok () := by decide +kernel
  have hfresh : booleanCopy.Fresh := .new ..
  have htag : (⟨⟨1⟩, .bool, [⟨0, {}⟩], some ⟨"alias", 1, "b"⟩⟩, ⟨0, {}⟩) ∈
      booleanCopy.run.2.graph.tags := by
    have htags : booleanCopy.run.2.graph.tags =
        [(⟨⟨1⟩, .bool, [⟨0, {}⟩], some ⟨"alias", 1, "b"⟩⟩, ⟨0, {}⟩)] := by decide +kernel
    simp [htags]
  obtain ⟨path, q, hpath, hq, -, -, hvalid⟩ := (run_queries_valid hfresh hrun).1 _ _ htag
  exact ⟨hrun, _, _, htag, rfl, path, q, hpath, hq, hvalid⟩

end Explorer
end NullPath
