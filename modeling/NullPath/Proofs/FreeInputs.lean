import NullPath.Proofs.ValidQueries

/-!
# Recorded facts exclude no input

In a program without `assert` and without division, an exploration records facts in order to know
values, not in order to restrict them.  Each fact defines a name: as the value of a term whose names
are all older, or as an address that is not zero.  No name is defined twice, also not in two nodes,
and no parameter is defined at all.  So the parameters can have any values of their sorts: the other
names get theirs in the order in which they were declared, and then every fact of every node is
true.

* `Expr.IsDefinition`: the two kinds of definitions.
* `Store.Unfolds.exists_definitions`: the definitions that a block records.
* `Explorer.facts_exclude_no_input`: the facts of an exploration, for all values of the parameters.
-/

namespace NullPath

open Graph

/-- The fact defines a name.  An equation is folded when it is recorded, so it need not look like
one. -/
inductive Expr.IsDefinition (n : Name) : Expr → Prop
  | value (s : ExprSort) (e : Expr) (older : ∀ x ∈ e.occurrences, x.index < n.index) :
    IsDefinition n (.mkEq (.name n s) e)
  | address : IsDefinition n (Store.nonzero n)

namespace Store

variable {P : Name → Prop} {i : Int} {s s' s'' : Store} {ns ns' : List Name} {es es' : List Expr}

/-- A node records definitions of new names, one after the other. -/
structure RecordsDefinitions (i : Int) (ns : List Name) (es : List Expr) (s s' : Store) : Prop where
  grows : s.graph.Grows i es s'.graph
  facts : List.Forall₂ Expr.IsDefinition ns es
  increasing : ns.Pairwise fun x y => x.index < y.index
  new : ∀ x ∈ ns, s.graph.decls.length ≤ x.index ∧ x.index < s'.graph.decls.length

namespace RecordsDefinitions

theorem trans (h : RecordsDefinitions i ns es s s') (h' : RecordsDefinitions i ns' es' s' s'') :
    RecordsDefinitions i (ns ++ ns') (es ++ es') s s'' := by
  have hle := h.grows.length_le
  have hle' := h'.grows.length_le
  refine ⟨h.grows.trans h'.grows, List.rel_append h.facts h'.facts, ?_, fun x hx => ?_⟩
  · refine List.pairwise_append.mpr ⟨h.increasing, h'.increasing, fun x hx y hy => ?_⟩
    have := (h.new x hx).2
    have := (h'.new y hy).1
    omega
  · rcases List.mem_append.mp hx with hx | hx
    · have := h.new x hx
      omega
    · have := h'.new x hx
      omega

/-- A name is declared, and its definition is recorded. -/
theorem single {e : Expr} (hev : s.Evolves P i [] s')
    (hlen : s'.graph.decls.length = s.graph.decls.length + 1)
    (he : e.IsDefinition s.nextName) :
    RecordsDefinitions i [s.nextName] [e] s (s'.asserted i e) := by
  refine ⟨hev.grows.trans (.assert i _ e), .cons he .nil, List.pairwise_singleton _ _, ?_⟩
  intro x hx
  rw [List.mem_singleton.mp hx]
  refine ⟨Nat.le_refl _, ?_⟩
  rw [asserted, modifyNode, hlen]
  exact Nat.lt_succ_self _

end RecordsDefinitions

/-- A change that consists of definitions records them. -/
theorem Unfolds.exists_definitions {D : Prop} (h : Unfolds P i D s s') :
    ∃ ns es, RecordsDefinitions i ns es s s' := by
  induction h with
  | quiet h => exact ⟨[], [], h.grows, .nil, .nil, by simp⟩
  | address hs x =>
    exact ⟨_, _, .single (.addressed hs) (by simp [addressed, declared, Graph.declare]) .address⟩
  | @define s c e hs hc he _ =>
    refine ⟨_, _, .single (.declared_bound hs he.sort_cases hc)
      (by simp [bound, declared, Graph.declare]) (.value e.sort e fun x hx => ?_)⟩
    obtain ⟨σ, -, d, hd, -⟩ := he.mem_occurrences hx
    exact lt_length_of_getElem? hd
  | trans _ _ ih ih' =>
    obtain ⟨ns, es, hr⟩ := ih
    obtain ⟨ns', es', hr'⟩ := ih'
    exact ⟨_, _, hr.trans hr'⟩

end Store

/-- Every fact of the graph defines a name of its own, and no parameter is defined. -/
structure Graph.Definitional (g : Graph) (names : Int → List Name) : Prop where
  facts : ∀ a n, g.node? a = some n → List.Forall₂ Expr.IsDefinition (names a) n.exprs
  increasing : ∀ a n, g.node? a = some n → (names a).Pairwise fun x y => x.index < y.index
  disjoint : ∀ a b n n', g.node? a = some n → g.node? b = some n' → a ≠ b →
    (names a).Disjoint (names b)
  defined : ∀ a n, g.node? a = some n → ∀ x ∈ names a,
    ∃ d, g.declaration? x = some d ∧ d.origin = none

/-! ## The names of the parameters -/

theorem Graph.declaration?_declare {g : Graph} {sort : ExprSort} {o : Option Origin} {n : Name}
    {d : Declaration} (hd : g.declaration? n = some d) :
    (g.declare sort o).2.declaration? n = some d := by
  have hlt := lt_length_of_getElem? hd
  rw [declaration?, getElem?_declare, if_neg (by omega)]
  exact hd

/-- The names with an origin belong to the parameters up to a number, and have their sorts. -/
structure Function.NamesParameters (f : Function) (count : Nat) (g : Graph) : Prop where
  named : ∀ k < count, ∃ n d l, g.declaration? n = some d ∧ f.localVar? (k + 1 : Nat) = some l ∧
    d.origin = f.originOf (k + 1) l
  sorted : ∀ n d o, g.declaration? n = some d → d.origin = some o →
    ∃ k l, k < count ∧ f.localVar? (k + 1 : Nat) = some l ∧ l.type.sort = .ok d.sort ∧
      o.index = (k + 1 : Nat)

namespace Function.NamesParameters

variable {f : Function} {count : Nat} {g : Graph} {s s' : Store}

theorem empty (f : Function) : f.NamesParameters 0 {} := by
  refine ⟨fun k hk => absurd hk (Nat.not_lt_zero k), fun n d o hd => ?_⟩
  cases hd

/-- A name without an origin is no parameter's. -/
theorem declare_none (h : f.NamesParameters count g) (sort : ExprSort) :
    f.NamesParameters count (g.declare sort none).2 := by
  refine ⟨fun k hk => ?_, fun n d o hd ho => ?_⟩
  · obtain ⟨n, d, l, hd, hrest⟩ := h.named k hk
    exact ⟨n, d, l, declaration?_declare hd, hrest⟩
  · rw [declaration?, getElem?_declare] at hd
    split at hd
    · cases hd
      cases ho
    · exact h.sorted n d o hd ho

/-- The next parameter gets a name. -/
theorem declare (h : f.NamesParameters count g) {l : LocalVar} {sort : ExprSort}
    (hl : f.localVar? (count + 1 : Nat) = some l) (hsort : l.type.sort = .ok sort) :
    f.NamesParameters (count + 1) (g.declare sort (f.originOf (count + 1) l)).2 := by
  refine ⟨fun k hk => ?_, fun n d o hd ho => ?_⟩
  · rcases Nat.lt_succ_iff_lt_or_eq.mp hk with hlt | rfl
    · obtain ⟨n, d, l', hd, hrest⟩ := h.named k hlt
      exact ⟨n, d, l', declaration?_declare hd, hrest⟩
    · refine ⟨⟨g.decls.length⟩, ⟨⟨g.decls.length⟩, sort, [], f.originOf (k + 1) l⟩, l, ?_, hl, rfl⟩
      rw [declaration?, getElem?_declare, if_pos rfl]
  · rw [declaration?, getElem?_declare] at hd
    split at hd
    · cases hd
      rw [originOf, if_neg (Nat.succ_ne_zero count), Option.some.injEq] at ho
      exact ⟨count, l, Nat.lt_succ_self count, hl, hsort, by rw [← ho]⟩
    · obtain ⟨k, l', hk, hrest⟩ := h.sorted n d o hd ho
      exact ⟨k, l', Nat.lt_succ_of_lt hk, hrest⟩

theorem bindParameters {rest : Nat} (h : f.NamesParameters count s.graph)
    (hb : Explorer.bindParameters f rest (count + 1) s = (.ok (), s')) :
    f.NamesParameters (count + rest) s'.graph := by
  induction rest generalizing count s with
  | zero =>
    cases hb
    exact h
  | succ rest ih =>
    obtain ⟨l, sort, s₁, hl, hsort, hbind, hb₁⟩ := Explorer.bindParameters_succ_eq_ok hb
    obtain ⟨c, s₂, hc, rfl⟩ := Store.bind_eq_ok.mp hbind
    obtain ⟨-, -, rfl⟩ := Store.resolveAt_zero_eq_ok.mp hc
    have hnext := h.declare hl hsort
    have := ih hnext hb₁
    rwa [Nat.add_right_comm] at this

/-- What entering a function declares. -/
theorem of_enterFunction (h : Explorer.enterFunction f {} = (.ok (), s)) :
    f.NamesParameters f.argCount.toNat s.graph := by
  obtain ⟨result, rest, s₁, -, -, hresult, hp⟩ := Explorer.enterFunction_eq_ok h
  have h₁ : f.NamesParameters 0 s₁.graph := by
    rcases hresult with ⟨-, rfl⟩ | ⟨-, n, hw⟩
    · exact empty f
    · obtain ⟨sort, c, s₂, -, hc, -, rfl⟩ := Store.writeFresh_eq_ok.mp hw
      obtain ⟨-, -, rfl⟩ := Store.resolveAt_zero_eq_ok.mp hc
      exact (empty f).declare_none sort
  have := h₁.bindParameters hp
  rwa [Nat.zero_add] at this

end Function.NamesParameters

namespace Explorer

variable {s₀ : Store} {e : Explorer} {vs : List Visit} {i j : Nat} {v w : Visit} {m : Model}

namespace Logged

variable (hl : Logged s₀ e vs)
include hl

/-- The parameters and their names, in the finished graph. -/
theorem namesParameters : e.entry.NamesParameters e.entry.argCount.toNat e.graph := by
  have hent := Function.NamesParameters.of_enterFunction hl.entered
  refine ⟨fun k hk => ?_, fun n d o hd ho => ?_⟩
  · obtain ⟨n, d, l, hd, hlocal, horigin⟩ := hent.named k hk
    obtain ⟨d', hd', hext⟩ := hl.base.decls n.index d hd
    exact ⟨n, d', l, hd', hlocal, by rw [hext.origin, horigin]⟩
  · have hlt := hl.origins n.index d hd (by rw [ho]; simp)
    obtain ⟨d₀, hd₀⟩ : ∃ d₀, s₀.graph.declaration? n = some d₀ := ⟨_, List.getElem?_eq_getElem hlt⟩
    obtain ⟨d', hd', hext⟩ := hl.base.decls n.index d₀ hd₀
    obtain rfl := Option.mem_unique hd' hd
    obtain ⟨k, l, hk, hlocal, hsort, hindex⟩ := hent.sorted n d₀ o hd₀ (by rw [← hext.origin, ho])
    exact ⟨k, l, hk, hlocal, by rw [hsort, hext.sort], hindex⟩

/-- Values of the parameters make a model, whatever the other names are. -/
theorem exists_reads {args : List Constant}
    (hargs : ∀ k < e.entry.argCount.toNat, ∀ l sort, e.entry.localVar? (k + 1 : Nat) = some l →
      l.type.sort = .ok sort → ∃ c, args[k]? = some c ∧ c.HasSort sort) :
    ∃ m, m.Exact e.graph.scope ∧ e.graph.Reads m args := by
  have hvalue : ∀ n, n.index < e.graph.decls.length → ∃ c,
      ∀ d, e.graph.declaration? n = some d → c.HasSort d.sort ∧
        ∀ o, d.origin = some o → nth? args (o.index - 1) = some c := by
    intro n hn
    obtain ⟨d, hd⟩ : ∃ d, e.graph.declaration? n = some d := ⟨_, List.getElem?_eq_getElem hn⟩
    cases ho : d.origin with
    | none =>
      obtain ⟨c, hc⟩ := Constant.exists_hasSort (hl.tidy n.index d hd).2
      refine ⟨c, fun d' hd' => ?_⟩
      obtain rfl := Option.mem_unique hd' hd
      exact ⟨hc, fun o ho' => by rw [ho] at ho'; cases ho'⟩
    | some o =>
      obtain ⟨k, l, hk, hlocal, hsort, hindex⟩ := hl.namesParameters.sorted n d o hd ho
      obtain ⟨c, hc, hcs⟩ := hargs k hk l d.sort hlocal hsort
      refine ⟨c, fun d' hd' => ?_⟩
      obtain rfl := Option.mem_unique hd' hd
      refine ⟨hcs, fun o' ho' => ?_⟩
      obtain rfl := Option.mem_unique ho ho'
      rw [hindex, nth?, if_neg (by omega), ← hc]
      congr 1
      omega
  obtain ⟨m, hm⟩ := Model.exists_forall _ _ hvalue
  refine ⟨m, ?_, fun n d o hd ho => ?_⟩
  · rintro n _ ⟨-, d, hd, rfl⟩
    obtain ⟨c, hc, hall⟩ := hm n (lt_length_of_getElem? hd)
    exact ⟨c, hc, (hall d hd).1⟩
  · obtain ⟨c, hc, hall⟩ := hm n (lt_length_of_getElem? hd)
    rw [hc, (hall d hd).2 o ho]

/-- The definitions that a node without an `assert` has in the finished graph. -/
theorem exists_definitions (hv : vs[i]? = some v) (hassert : v.block.terminator.isAssert = false)
    {n : Node} (hn : e.graph.node? i = some n) :
    ∃ ns, List.Forall₂ Expr.IsDefinition ns n.exprs ∧
      (ns.Pairwise fun x y => x.index < y.index) ∧ ∀ x ∈ ns, v.Introduces x := by
  have hvalid := hl.valid i v hv
  obtain ⟨⟨s, hunfolds, hchecked⟩, -⟩ := Machine.block_unfolds hvalid.scope hvalid.run
  rw [Store.Checked, hassert, if_neg Bool.false_ne_true] at hchecked
  obtain ⟨ns, es, hr⟩ := hunfolds.exists_definitions
  rw [← hchecked] at hr
  obtain ⟨n₁, n₂, hn₁, hn₂, hexprs, -⟩ := hl.node hv
  obtain rfl := Option.mem_unique hn₁ hn
  have hes : n₁.exprs = es := by
    have hnode := hr.grows.node? i
    rw [Visit.env, node?_modifyNode (Int.natCast_nonneg i), if_pos rfl, hvalid.node,
      hn₂] at hnode
    rw [hexprs, Option.some.inj hnode]
    rfl
  rw [hes]
  exact ⟨ns, hr.facts, hr.increasing, hr.new⟩

/-- Without `assert`, all facts of the finished graph are definitions. -/
theorem exists_definitional
    (hassert : ∀ (i : Nat) v, vs[i]? = some v → v.block.terminator.isAssert = false) :
    ∃ names, e.graph.Definitional names := by
  have hnode : ∀ a, ∃ ns, ∀ n, e.graph.node? a = some n →
      ∃ (i : Nat) (v : Visit), a = i ∧ vs[i]? = some v ∧ List.Forall₂ Expr.IsDefinition ns n.exprs ∧
        (ns.Pairwise fun x y => x.index < y.index) ∧ ∀ x ∈ ns, v.Introduces x := by
    intro a
    cases hn : e.graph.node? a with
    | none => exact ⟨[], by simp⟩
    | some n =>
      obtain ⟨i, v, rfl, hv, -⟩ := hl.exists_of_node hn
      obtain ⟨ns, hns⟩ := hl.exists_definitions hv (hassert i v hv) hn
      refine ⟨ns, fun n' hn' => ⟨i, v, rfl, hv, ?_⟩⟩
      rwa [← Option.some.inj hn']
  choose names hnames using hnode
  refine ⟨names, fun a n hn => ?_, fun a n hn => ?_, fun a b n n' hn hn' hab x hx hx' => ?_,
    fun a n hn x hx => ?_⟩
  · obtain ⟨-, -, -, -, hfacts, -⟩ := hnames a n hn
    exact hfacts
  · obtain ⟨-, -, -, -, -, hincr, -⟩ := hnames a n hn
    exact hincr
  · obtain ⟨i, v, rfl, hv, -, -, hnew⟩ := hnames a n hn
    obtain ⟨j, w, rfl, hw, -, -, hnew'⟩ := hnames b n' hn'
    exact hab (congrArg Int.ofNat (hl.introduces_unique hv hw (hnew x hx) (hnew' x hx')))
  · obtain ⟨i, v, rfl, hv, -, -, hnew⟩ := hnames a n hn
    have hfinal : v.left.store.graph.Extends e.graph :=
      (Extends.close (Int.natCast_nonneg i)).trans (hl.final i v hv)
    have hlt := Nat.lt_of_lt_of_le (hnew x hx).2 hfinal.length_le
    refine ⟨_, List.getElem?_eq_getElem hlt, ?_⟩
    -- the names with an origin were declared at the entry, before the visit
    by_contra horigin
    have hold := hl.origins x.index _ (List.getElem?_eq_getElem hlt) horigin
    have hbase := (hl.based i v hv).length_le
    have := (hnew x hx).1
    omega

/-- Where every fact is true, so are the formulas of all nodes. -/
theorem satisfies_formula
    (hdiv : ∀ (i : Nat) v, vs[i]? = some v → ∀ st ∈ v.block.statements, st.DivisionFree)
    (hm : m.Exact e.graph.scope) (hholds : ∀ a, e.graph.Holds m a) {a : Int}
    {F : Expr} (hF : e.graph.formula a = .ok F) : m.Satisfies F := by
  cases hn : e.graph.node? a with
  | none =>
    rw [Graph.formula, Graph.node, hn] at hF
    cases hF
  | some n =>
    rw [formula_eq_ok hn] at hF
    cases hF
    obtain ⟨i, v, rfl, hv, -⟩ := hl.exists_of_node hn
    obtain ⟨ns, hp⟩ := hl.exists_path hv
    obtain ⟨gs, k, htrail⟩ := hp.exists_trail
    have htree := hl.isTree (List.ne_nil_of_mem (List.mem_of_getElem? hv))
    refine (satisfies_formulaWithin_iff htree hl.mirrored (hl.definedFrom hdiv hm) htrail
      (Nat.le_add_right _ _)).mpr fun b _ _ n' _ _ hn' => ?_
    exact hholds b n' hn'

end Logged

/-- **Recorded facts exclude no input.**  Whatever values of their sorts the parameters of a program
without `assert` and division have, some model gives them these values and makes every fact of every
node true, and with the facts the formulas of all nodes.  The first frame is executed unless blocks
may not be visited at all, and then the root has a formula.  Each fact defines a name of its own,
which is no parameter. -/
theorem facts_exclude_no_input (he : e.Fresh) (hrun : e.run.1 = .ok ())
    (hdiv : ∀ f ∈ e.entry :: e.program.functions, f.DivisionFree)
    (hassert : ∀ f ∈ e.entry :: e.program.functions, ∀ b ∈ f.blocks, b.terminator.isAssert = false)
    {args : List Constant}
    (hargs : ∀ k < e.entry.argCount.toNat, ∀ l sort, e.entry.localVar? (k + 1 : Nat) = some l →
      l.type.sort = .ok sort → ∃ c, args[k]? = some c ∧ c.HasSort sort) :
    (∃ names, e.run.2.graph.Definitional names) ∧
      ∃ m : Model, m.Exact (e.run.2.graph.scope fun _ => True) ∧
        (∀ k < e.entry.argCount.toNat, ∃ n d l, e.run.2.graph.declaration? n = some d ∧
          e.entry.localVar? (k + 1 : Nat) = some l ∧ d.origin = e.entry.originOf (k + 1) l ∧
          m.get? n = args[k]?) ∧
        e.run.2.graph.Reads m args ∧ (∀ a, e.run.2.graph.Holds m a) ∧
        (∀ a F, e.run.2.graph.formula a = .ok F → m.Satisfies F) ∧
        (0 < e.options.maxUnroll → ∃ F, e.run.2.graph.formula e.run.2.root = .ok F) := by
  simp only [run_eq] at hrun ⊢
  obtain ⟨s₀, vs, hl, hnil, -, hoptions, hprogram, hentry⟩ := exists_log he hrun
  rw [List.forall_mem_cons, ← hentry, ← hprogram] at hdiv hassert
  rw [← hentry] at hargs ⊢
  rw [← hoptions]
  have hdiv' : ∀ (i : Nat) v, vs[i]? = some v → ∀ st ∈ v.block.statements, st.DivisionFree := by
    intro i v hv
    have hfun := (hl.forall_functions (Q := Function.DivisionFree) hdiv.1 hdiv.2 hv).1
    exact hfun v.block (Function.block?_mem (hl.valid i v hv).block)
  have hassert' : ∀ (i : Nat) v, vs[i]? = some v → v.block.terminator.isAssert = false := by
    intro i v hv
    have hfun := (hl.forall_functions
      (Q := fun f => ∀ b ∈ f.blocks, b.terminator.isAssert = false) hassert.1 hassert.2 hv).1
    exact hfun v.block (Function.block?_mem (hl.valid i v hv).block)
  obtain ⟨m₀, hm₀, hreads₀⟩ := hl.exists_reads hargs
  -- nothing has to be kept but the names of the entry
  obtain ⟨m, hm, hnames, -, hdefs⟩ := hl.exists_completion (R := fun _ => False) hdiv' hm₀
    (fun _ _ _ _ _ h => h) (fun _ h => h.elim)
  have hreads : e.trace.2.1.graph.Reads m args := by
    intro n d o hd ho
    rw [hnames n (Or.inl (hl.origins n.index d hd (by rw [ho]; simp))), hreads₀ n d o hd ho]
  have hholds : ∀ a, e.trace.2.1.graph.Holds m a := by
    intro a n hn c hc
    obtain ⟨i, v, rfl, hv, -⟩ := hl.exists_of_node hn
    refine hdefs i v hv n hn c ?_
    rwa [Block.definitions, hassert' i v hv, if_neg Bool.false_ne_true]
  refine ⟨hl.exists_definitional hassert', m, hm, fun k hk => ?_, hreads, hholds,
    fun a F hF => hl.satisfies_formula hdiv' hm hholds hF, fun hpos => ?_⟩
  · obtain ⟨n, d, l, hd, hlocal, horigin⟩ := hl.namesParameters.named k hk
    refine ⟨n, d, l, hd, hlocal, horigin, ?_⟩
    rw [Function.originOf, if_neg (Nat.succ_ne_zero k)] at horigin
    rw [hreads n d _ hd horigin, nth?, if_neg (by simp only; omega)]
    congr 1
    simp only
    omega
  · have hfirst : e.trace.2.1.options.admits (firstFrame e.trace.2.1 s₀) = true := by
      rw [Options.admits, decide_eq_true_iff]
      exact hpos
    obtain ⟨w, hw⟩ := hl.exists_first hnil hfirst
    obtain ⟨n₀, hn₀, -⟩ := (hl.isTree (List.ne_nil_of_mem (List.mem_of_getElem? hw))).root
    exact ⟨_, Graph.formula_eq_ok hn₀⟩

/-! ## A branch, a pointer and a call -/

/-- Writes through a pointer to its parameter, on one branch after a call. -/
def doubling : Function where
  name := "doubling"
  locals := [⟨"", .integer⟩, ⟨"x", .integer⟩, ⟨"p", .pointerTo .integer⟩, ⟨"b", .boolean⟩]
  argCount := 1
  blocks := [
    ⟨[.assign ⟨2, 0⟩ (.ref ⟨1, 0⟩) {},
      .assign ⟨3, 0⟩ (.binary .eq (.copy ⟨1, 0⟩) (.const 0 .integer)) {}],
      .switch (.copy ⟨3, 0⟩) [0] [1, 2] {}⟩,
    ⟨[], .call "double" [.copy ⟨1, 0⟩] (some ⟨2, 1⟩) 2 {}⟩,
    ⟨[.assign ⟨0, 0⟩ (.use (.copy ⟨1, 0⟩)) {}], .return⟩]

/-- Adds its parameter to itself. -/
def doubled : Function where
  name := "double"
  locals := [⟨"", .integer⟩, ⟨"y", .integer⟩]
  argCount := 1
  blocks := [⟨[.assign ⟨0, 0⟩ (.binary .add (.copy ⟨1, 0⟩) (.copy ⟨1, 0⟩)) {}], .return⟩]

/-- An exploration of the two functions that follows the call. -/
def doublingExplorer : Explorer where
  options := { inlineCalls := true }
  entry := doubling
  program := ⟨[doubling, doubled]⟩

/-- The two branches meet different definitions of the result, and both are true at once for a
parameter that is three. -/
theorem doublingExplorer_excludes_no_input :
    doublingExplorer.run.1 = .ok () ∧ doublingExplorer.run.2.graph.nodes.length = 5 ∧
      (∃ names, doublingExplorer.run.2.graph.Definitional names) ∧
      ∃ m F, doublingExplorer.run.2.graph.Reads m [.ofInt 3] ∧
        (∀ a, doublingExplorer.run.2.graph.Holds m a) ∧
        doublingExplorer.run.2.graph.formula doublingExplorer.run.2.root = .ok F ∧
        m.Satisfies F := by
  have hfresh : doublingExplorer.Fresh := .new ..
  have hrun : doublingExplorer.run.1 = .ok () := by decide +kernel
  have hsize : doublingExplorer.run.2.graph.nodes.length = 5 := by decide +kernel
  have hdiv : ∀ f ∈ doublingExplorer.entry :: doublingExplorer.program.functions,
      f.DivisionFree := by
    simp [doublingExplorer, doubling, doubled, Function.DivisionFree, Statement.DivisionFree,
      Rvalue.DivisionFree]
  have hargs : ∀ k < doublingExplorer.entry.argCount.toNat, ∀ l sort,
      doublingExplorer.entry.localVar? (k + 1 : Nat) = some l → l.type.sort = .ok sort →
      ∃ c, [Constant.ofInt 3][k]? = some c ∧ c.HasSort sort := by
    intro k hk l sort hl hsort
    obtain rfl : k = 0 := Nat.lt_one_iff.mp hk
    cases hl
    cases hsort
    exact ⟨.ofInt 3, rfl, rfl⟩
  obtain ⟨hdef, m, -, -, hreads, hholds, hformula, hroot⟩ :=
    facts_exclude_no_input hfresh hrun hdiv (by decide) hargs
  obtain ⟨F, hF⟩ := hroot (by decide)
  exact ⟨hrun, hsize, hdef, m, F, hreads, hholds, hF, hformula _ F hF⟩

end Explorer
end NullPath
