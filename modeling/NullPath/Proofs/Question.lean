import NullPath.Proofs.Completion
import NullPath.Synthesis

/-!
# The question about a dereference

Whether a pointer can be zero where it is dereferenced is asked with the whole graph: the answer has
to reach the node of the dereference, and wherever it goes from there, and on every other branch
that it reaches, the recorded facts have to hold.  Most of these facts are definitions and take
nothing away.  What remains are the facts of `assert` terminators that are executed after the
dereference or beside it, and these can take away every answer.

* `Explorer.answerable_iff`: the question has an answer exactly if some completion passes every
  `assert` off the path.
* `Explorer.lateAssert_hides_load`: a check after a load hides that the load can fail.
-/

namespace NullPath

/-! ## The question about a dereference -/

/-- The model makes everything true that the question asks for. -/
def Model.Answers (m : Model) (q : Query) : Prop :=
  ∀ a ∈ q.assertions, m.Satisfies a

namespace Graph

/-- The models give the parameters of the entry the same values. -/
def SameParameters (g : Graph) (m m' : Model) : Prop :=
  ∀ n d, g.declaration? n = some d → d.origin ≠ none → m'.get? n = m.get? n

/-- The question has an answer that gives the parameters the values they have in a model. -/
def Answerable (g : Graph) (q : Query) (m : Model) : Prop :=
  ∃ m' : Model, m'.Exact g.scope ∧ g.SameParameters m m' ∧ m'.Answers q

theorem mem_tags {g : Graph} {d : Declaration} {t : DerefTag} :
    (d, t) ∈ g.tags ↔ d ∈ g.decls ∧ t ∈ d.derefs := by
  simp [tags]

/-- The question that is asked about a dereference. -/
def tagQuery (g : Graph) (root : Int) (d : Declaration) (t : DerefTag) : Except Fault Query := do
  let path ← g.pathConstraint t.node
  Query.ofGraph g root [.isZero d.expr, path]

/-- A dereference is checked by its question. -/
theorem checkTag_eq {σ : Type} (s : Solver σ) (g : Graph) (root : Int) (d : Declaration)
    (t : DerefTag) (st : σ) :
    checkTag s g root d t st =
      match g.tagQuery root d t with
      | .error f => (.error (.fault f), st)
      | .ok q =>
        match q.validate with
        | .error e => (.error (.error e), st)
        | .ok () =>
          match s.solve q st with
          | (.error e, st) => (.error (.error e), st)
          | (.ok m, st) => (.ok (m.map (Witness.ofModel g.decls)), st) := by
  unfold checkTag check tagQuery
  cases g.pathConstraint t.node with
  | error f | ok path => rfl

theorem tagQuery_eq_ok {g : Graph} {root : Int} {d : Declaration} {t : DerefTag} {n n₀ : Node}
    (hn : g.node? t.node = some n) (hroot : g.node? root = some n₀) :
    g.tagQuery root d t = .ok ⟨g.decls, [.isZero d.expr, .conj (g.guards t.node),
      g.formulaWithin g.nodes.length root]⟩ := by
  rw [tagQuery, pathConstraint_eq_ok hn]
  show Query.ofGraph g root _ = _
  rw [Query.ofGraph, formula_eq_ok hroot]
  rfl

end Graph

namespace Explorer

/-- The block that was executed at a node. -/
def blockAt (frames : List Frame) (a : Int) : Option Block :=
  (nth? frames a).bind fun f => f.function.block? f.block

/-- The facts of a node that define names. -/
def definitionsAt (frames : List Frame) (g : Graph) (a : Int) : List Expr :=
  match blockAt frames a, g.node? a with
  | some b, some n => b.definitions n
  | _, _ => []

/-- The fact of an `assert` that was executed at a node. -/
def checksAt (frames : List Frame) (g : Graph) (a : Int) : List Expr :=
  match blockAt frames a, g.node? a with
  | some b, some n => b.checks n
  | _, _ => []

/-- A model that agrees with another one on the parameters, makes the dereferenced pointer zero,
the path to the dereference passable and its nodes true, and all definitions of the graph. -/
structure Completes (frames : List Frame) (g : Graph) (x : Name) (node : Int) (m m' : Model) :
    Prop where
  exact : m'.Exact g.scope
  parameters : g.SameParameters m m'
  zero : m'.get? x = some (.ofInt 0)
  passable : g.Passable m' node
  holds : ∀ a, g.Reaches a node → g.Holds m' a
  definitions : ∀ a, ∀ c ∈ definitionsAt frames g a, m'.Satisfies c

variable {s₀ : Store} {e : Explorer} {vs : List Visit} {i j k : Nat} {v w : Visit} {m m' : Model}
  {R : Nat → Prop} {d : Declaration}

namespace Logged

section
variable (hl : Logged s₀ e vs)
include hl

theorem blockAt_eq (hv : vs[i]? = some v) : blockAt (vs.map Visit.finished) i = some v.block := by
  rw [blockAt, nth?, if_neg (by omega), Int.toNat_natCast, List.getElem?_map, hv]
  exact (hl.valid i v hv).block

theorem definitionsAt_eq (hv : vs[i]? = some v) {n : Node} (hn : e.graph.node? i = some n) :
    definitionsAt (vs.map Visit.finished) e.graph i = v.block.definitions n := by
  rw [definitionsAt, hl.blockAt_eq hv, hn]

theorem checksAt_eq (hv : vs[i]? = some v) {n : Node} (hn : e.graph.node? i = some n) :
    checksAt (vs.map Visit.finished) e.graph i = v.block.checks n := by
  rw [checksAt, hl.blockAt_eq hv, hn]

/-- Only nodes of the graph have facts. -/
theorem exists_of_mem_facts {a : Int} {c : Expr}
    (hc : c ∈ definitionsAt (vs.map Visit.finished) e.graph a ∨
      c ∈ checksAt (vs.map Visit.finished) e.graph a) :
    ∃ (i : Nat) (v : Visit) (n : Node), a = i ∧ vs[i]? = some v ∧ e.graph.node? i = some n := by
  cases hn : e.graph.node? a with
  | none =>
    rw [definitionsAt, checksAt, hn] at hc
    cases hb : blockAt (vs.map Visit.finished) a <;> simp [hb] at hc
  | some n =>
    obtain ⟨i, v, rfl, hv, -⟩ := hl.exists_of_node hn
    exact ⟨i, v, n, rfl, hv, hn⟩

/-- Where nothing is divided, all facts and guards of the graph have values. -/
theorem definedFrom
    (hdiv : ∀ (i : Nat) v, vs[i]? = some v → ∀ st ∈ v.block.statements, st.DivisionFree)
    (hm : m.Exact e.graph.scope) : e.graph.DefinedFrom m e.root := by
  intro a n _ hn
  obtain ⟨i, v, rfl, hv, -⟩ := hl.exists_of_node hn
  refine ⟨fun c hc => ?_, fun ed hed c hc => ?_⟩
  · obtain ⟨hsort, hfree⟩ := hl.exprs hv hn c hc
    exact (hsort.sorted.mono (hl.uses_left_le hv)).defines (hfree (hdiv i v hv)) hm.uses
  · obtain ⟨hsort, hfree⟩ := hl.guard_of_out hn hed c hc
    exact hsort.sorted.defines hfree hm.uses

end

/-! ## Sets with all parents -/

section

variable (hl : Logged s₀ e vs)
include hl

theorem mem_of_path (hR : ParentClosed vs R) (hw : vs[j]? = some w) {ns : List Int}
    (hp : e.graph.PathTo e.root ns j) (hj : R j) : ∀ i : Nat, (i : Int) ∈ ns → R i := by
  induction ns using List.reverseRecOn generalizing j w with
  | nil => simp
  | append_singleton ns a ih =>
    obtain ⟨k, v, rfl, -, hv, hp', hpar, -⟩ := hl.path_snoc hw hp
    have hk : R k := hR k j w hw hpar hj
    intro i hi
    rcases List.mem_append.mp hi with hi | hi
    · exact ih hv hp' hk i hi
    · have hik : i = k := by exact_mod_cast List.mem_singleton.mp hi
      rw [hik]
      exact hk

theorem mem_of_reaches (hR : ParentClosed vs R) (hw : vs[j]? = some w) (hj : R j) {a : Int}
    (ha : e.graph.Reaches a j) : ∃ (i : Nat) (v : Visit), a = i ∧ vs[i]? = some v ∧ R i := by
  induction ha using Relation.ReflTransGen.head_induction_on with
  | refl => exact ⟨j, w, rfl, hw, hj⟩
  | head hlink _ ih =>
    obtain ⟨k, u, rfl, hu, hk⟩ := ih
    have hpar := (hl.links_iff hu).mp hlink
    obtain ⟨i, v, rfl, -, hv, -⟩ := hl.handed_on hu hpar
    exact ⟨i, v, rfl, hv, hR i k u hu hpar hk⟩

/-- The ancestors of a node. -/
theorem parentClosed_reaches (a : Int) : ParentClosed vs fun i => e.graph.Reaches i a :=
  fun _ _ _ hw hp hj => Relation.ReflTransGen.head ((hl.links_iff hw).mpr hp) hj

/-- The nodes whose path constraint is true. -/
theorem parentClosed_passable (m : Model) : ParentClosed vs fun i => e.graph.Passable m i := by
  intro i j w hw hp hj
  obtain ⟨k, v, hk, -, hv, -⟩ := hl.handed_on hw hp
  obtain ⟨ns, hns⟩ := hl.exists_path hv
  rw [← hk] at hns
  exact ((hl.passable_step hns hw hp).mp hj).1

/-- A model that keeps the values of the names of a set passes the same nodes of the set. -/
theorem passable_congr (hR : ParentClosed vs R) (hw : vs[j]? = some w) (hj : R j)
    (hnames : ∀ n, NamesOf s₀ vs R n → m'.get? n = m.get? n) :
    e.graph.Passable m' j ↔ e.graph.Passable m j := by
  obtain ⟨ns, hp⟩ := hl.exists_path hw
  refine (hl.path_congr hw hp (fun i v hi hv => ?_) hnames).1
  have hi' := hl.mem_of_path hR hw hp hj i hi
  exact ⟨_, hl.scoped_names hR hv hi', fun n hn => names_of_knows hv hi' hn⟩

/-- A tagged name is one of the names of every set that has the node of the tag. -/
theorem names_of_tag (hR : ParentClosed vs R) {t : DerefTag} (hd : e.graph.decls[k]? = some d)
    (ht : t ∈ d.derefs) :
    ∃ (j : Nat) (w : Visit), t.node = j ∧ vs[j]? = some w ∧ (R j → NamesOf s₀ vs R ⟨k⟩) := by
  obtain ⟨j, w, hj, hw, hlt, hscope⟩ := hl.tags k d hd t ht
  refine ⟨j, w, hj, hw, fun hRj => ?_⟩
  exact names_of_knows hw hRj ⟨hscope _ (hl.scoped_names hR hw hRj), hlt⟩

/-- A model of a set with all parents that has the node of a dereference can be completed. -/
theorem exists_completes
    (hdiv : ∀ (i : Nat) v, vs[i]? = some v → ∀ st ∈ v.block.statements, st.DivisionFree)
    (hm : m.Exact e.graph.scope) (hR : ParentClosed vs R)
    (hholds : ∀ i, R i → e.graph.Holds m i) {t : DerefTag} (hd : e.graph.decls[k]? = some d)
    (ht : t ∈ d.derefs) (hnode : ∀ j : Nat, t.node = j → R j) (hzero : m.get? ⟨k⟩ = some (.ofInt 0))
    (hpass : e.graph.Passable m t.node) :
    ∃ m', Completes (vs.map Visit.finished) e.graph ⟨k⟩ t.node m m' ∧
      (∀ n, NamesOf s₀ vs R n → m'.get? n = m.get? n) ∧
      ∀ i v, R i → vs[i]? = some v → e.graph.Holds m' i := by
  obtain ⟨m', hexact, hnames, hset, hdefs⟩ := hl.exists_completion hdiv hm hR hholds
  obtain ⟨j, w, hj, hw, hin⟩ := hl.names_of_tag hR hd ht
  have hRj := hnode j hj
  refine ⟨m', ⟨hexact, fun n d' hd' ho => hnames n (.inl (hl.origins n.index d' hd' ho)), ?_,
    ?_, ?_, ?_⟩, hnames, hset⟩
  · rw [hnames _ (hin hRj), hzero]
  · rw [hj] at hpass ⊢
    exact (hl.passable_congr hR hw hRj hnames).mpr hpass
  · intro a ha
    rw [hj] at ha
    obtain ⟨i, v, rfl, hv, hi⟩ := hl.mem_of_reaches hR hw hRj ha
    exact hset i v hi hv
  · intro a c hc
    obtain ⟨i, v, n, rfl, hv, hn⟩ := hl.exists_of_mem_facts (.inl hc)
    rw [hl.definitionsAt_eq hv hn] at hc
    exact hdefs i v hv n hn c hc

/-- A model that keeps the values of the names of the nodes that another one passes, passes no
other nodes. -/
theorem passable_of_names (hw : vs[j]? = some w)
    (hnames : ∀ n, NamesOf s₀ vs (fun i => e.graph.Passable m i) n → m'.get? n = m.get? n)
    (hj : e.graph.Passable m' j) : e.graph.Passable m j := by
  induction j using Nat.strong_induction_on generalizing w with
  | _ j ih =>
    cases hp : w.frame.parent with
    | none =>
      obtain rfl := hl.eq_zero_of_parent_none hw hp
      exact hl.passable_root hw
    | some p =>
      obtain ⟨i, v, rfl, hij, hv, hnext⟩ := hl.handed_on hw hp
      obtain ⟨ns, hns⟩ := hl.exists_path hv
      obtain ⟨hi', hguard⟩ := (hl.passable_step hns hw hp).mp hj
      have hi := ih i hij hv hi'
      have hscope := hl.scoped_names (hl.parentClosed_passable m) hv hi
      refine (hl.passable_step hns hw hp).mpr ⟨hi, ?_⟩
      refine (hl.guard_congr hv hscope (fun n hn => ?_) hnext).mp hguard
      exact hnames n (names_of_knows hv hi hn)

end

end Logged

/-- The model passes every `assert` that it reaches off the path to a node. -/
def PassesChecks (frames : List Frame) (g : Graph) (node : Int) (m : Model) : Prop :=
  ∀ a, ¬g.Reaches a node → g.Passable m a → ∀ c ∈ checksAt frames g a, m.Satisfies c

theorem satisfies_isZero {g : Graph} (hg : g.Tidy) (hd : g.decls[k]? = some d)
    (hsort : d.sort = .int) (hm : m.Exact g.scope) :
    m.Satisfies (.isZero d.expr) ↔ m.get? ⟨k⟩ = some (.ofInt 0) := by
  have hname : (Expr.name ⟨k⟩ .int).Sorted g.scope :=
    ⟨⟨trivial, d, hd, hsort⟩, .inl rfl⟩
  obtain ⟨c, hc, hcs⟩ := hm ⟨k⟩ .int ⟨trivial, d, hd, hsort⟩
  have hvalue : (Expr.name ⟨k⟩ .int).eval m = .ok c := by rw [Expr.eval, hc]
  rw [Declaration.expr, (hg k d hd).1, hsort,
    Model.satisfies_iff_of_eval (Expr.eval_isZero hname hm.sorts.suits hvalue rfl),
    Model.isTrue_ofBool, beq_iff_eq, hc, hcs.eq_ofInt, Option.some.injEq]
  constructor
  · intro h
    exact congrArg Constant.ofInt h
  · intro h
    exact congrArg Constant.value h

/-- What the question about a dereference asks for: the pointer is zero, the node is reached, and
every node that is reached holds. -/
theorem Logged.exists_query (hl : Logged s₀ e vs)
    (hdiv : ∀ (i : Nat) v, vs[i]? = some v → ∀ st ∈ v.block.statements, st.DivisionFree)
    (hw : vs[j]? = some w) {t : DerefTag} (hd : e.graph.decls[k]? = some d) (hsort : d.sort = .int)
    (hj : t.node = j) :
    ∃ q, e.graph.tagQuery e.root d t = .ok q ∧
      ∀ m, m.Exact e.graph.scope →
        (m.Answers q ↔ m.get? ⟨k⟩ = some (.ofInt 0) ∧ e.graph.Passable m t.node ∧
          ∀ (i : Nat) v, vs[i]? = some v → e.graph.Passable m i → e.graph.Holds m i) := by
  have hne : vs ≠ [] := List.ne_nil_of_mem (List.mem_of_getElem? hw)
  have htree := hl.isTree hne
  obtain ⟨n₀, hn₀, -⟩ := htree.root
  obtain ⟨n, -, hn, -⟩ := hl.node hw
  rw [← hj] at hn
  refine ⟨_, Graph.tagQuery_eq_ok hn hn₀, fun m hm => ?_⟩
  have hformula := htree.satisfies_formulaWithin_iff hl.mirrored (hl.definedFrom hdiv hm)
  simp only [Model.Answers, List.forall_mem_cons, List.not_mem_nil, false_imp_iff, implies_true,
    and_true]
  rw [satisfies_isZero hl.tidy hd hsort hm, hformula, Graph.passable_iff hn, Model.satisfies_conj]
  refine and_congr_right fun _ => and_congr_right fun _ => ?_
  constructor
  · intro h i v hv hpass n' hn'
    obtain ⟨ns, hp⟩ := hl.exists_path hv
    exact h i n' hp.reaches hn' ((Graph.passable_iff hn').mp hpass)
  · intro h a n' _ hn' hsat
    obtain ⟨i, v, rfl, hv, -⟩ := hl.exists_of_node hn'
    exact h i v hv ((Graph.passable_iff hn').mpr hsat) n' hn'

/-- **Only an `assert` off the path hides a dereference.**  Let a model make the dereferenced
pointer zero and everything on the path to the dereference true.  Then it has a completion, and the
question about the dereference has an answer with the same parameters exactly if some completion
passes every `assert` that it reaches off the path.  So if there is no `assert` off the path, there
is an answer. -/
theorem answerable_iff (he : e.Fresh) (hrun : e.trace.1 = .ok ())
    (hentry : e.entry.DivisionFree) (hprog : ∀ f ∈ e.program.functions, f.DivisionFree)
    {d : Declaration} {t : DerefTag} (htag : (d, t) ∈ e.trace.2.1.graph.tags)
    (hm : m.Exact (e.trace.2.1.graph.scope fun _ => True))
    (hzero : m.get? d.name = some (.ofInt 0)) (hpass : e.trace.2.1.graph.Passable m t.node)
    (hholds : ∀ a, e.trace.2.1.graph.Reaches a t.node → e.trace.2.1.graph.Holds m a) :
    ∃ q, e.trace.2.1.graph.tagQuery e.trace.2.1.root d t = .ok q ∧
      (∃ m', Completes e.trace.2.2 e.trace.2.1.graph d.name t.node m m') ∧
      (e.trace.2.1.graph.Answerable q m ↔
        ∃ m', Completes e.trace.2.2 e.trace.2.1.graph d.name t.node m m' ∧
          PassesChecks e.trace.2.2 e.trace.2.1.graph t.node m') ∧
      ((∀ a, ¬e.trace.2.1.graph.Reaches a t.node →
          checksAt e.trace.2.2 e.trace.2.1.graph a = []) →
        e.trace.2.1.graph.Answerable q m) := by
  obtain ⟨s₀, vs, hl, -, hframes, -, hprogram, hentry'⟩ := exists_log he hrun
  rw [← hentry'] at hentry
  rw [← hprogram] at hprog
  rw [hframes]
  obtain ⟨hd, ht⟩ := Graph.mem_tags.mp htag
  obtain ⟨k, hk⟩ := List.mem_iff_getElem?.mp hd
  rw [(hl.tidy k d hk).1] at hzero ⊢
  have hdiv : ∀ (i : Nat) v, vs[i]? = some v → ∀ st ∈ v.block.statements, st.DivisionFree := by
    intro i v hv
    have hfun := (hl.forall_functions (Q := Function.DivisionFree) hentry hprog hv).1
    exact hfun v.block (Function.block?_mem (hl.valid i v hv).block)
  have hsort : d.sort = .int := by
    obtain ⟨c, hc, hcs⟩ := hm ⟨k⟩ d.sort ⟨trivial, d, hk, rfl⟩
    rw [hzero] at hc
    cases hc
    exact hcs.sort_eq.symm
  obtain ⟨j, w, hj, hw, -⟩ := hl.tags k d hk t ht
  obtain ⟨q, hq, hanswers⟩ := hl.exists_query hdiv hw hk hsort hj
  -- the ancestors of the dereference hold in the given model
  obtain ⟨m₁, hm₁, -⟩ := hl.exists_completes hdiv hm (hl.parentClosed_reaches t.node)
    (fun i hi => hholds i hi) hk ht (fun i hi => by rw [hi]; exact .refl) hzero hpass
  have hiff : e.trace.2.1.graph.Answerable q m ↔
      ∃ m', Completes (vs.map Visit.finished) e.trace.2.1.graph ⟨k⟩ t.node m m' ∧
        PassesChecks (vs.map Visit.finished) e.trace.2.1.graph t.node m' := by
    constructor
    · rintro ⟨m₂, hexact, hparams, hans⟩
      obtain ⟨hzero₂, hpass₂, hreached⟩ := (hanswers m₂ hexact).mp hans
      have hholds₂ : ∀ i : Nat, e.trace.2.1.graph.Passable m₂ i → e.trace.2.1.graph.Holds m₂ i := by
        intro i hi n hn
        obtain ⟨i', v, hii, hv, -⟩ := hl.exists_of_node hn
        rw [hii] at hi hn
        exact hreached i' v hv hi n hn
      -- the nodes that the answer reaches hold in it
      obtain ⟨m', hc, hnames, hset⟩ := hl.exists_completes hdiv hexact (hl.parentClosed_passable m₂)
        hholds₂ hk ht (fun i hi => by rw [← hi]; exact hpass₂) hzero₂ hpass₂
      refine ⟨m', ⟨hc.exact, fun n d' hd' ho => ?_, hc.zero, hc.passable, hc.holds,
        hc.definitions⟩, ?_⟩
      · rw [hc.parameters n d' hd' ho, hparams n d' hd' ho]
      · intro a _ ha c hcheck
        obtain ⟨i, v, n, rfl, hv, hn⟩ := hl.exists_of_mem_facts (Or.inr hcheck)
        rw [hl.checksAt_eq hv hn] at hcheck
        have hi := hl.passable_of_names hv hnames ha
        exact hset i v hi hv n hn c (Block.mem_exprs_iff.mpr (Or.inr hcheck))
    · rintro ⟨m', hc, hchecks⟩
      refine ⟨m', hc.exact, hc.parameters, (hanswers m' hc.exact).mpr ⟨hc.zero, hc.passable, ?_⟩⟩
      intro i v hv hi n hn c hmem
      by_cases hreach : e.trace.2.1.graph.Reaches i t.node
      · exact hc.holds i hreach n hn c hmem
      · rcases Block.mem_exprs_iff.mp hmem with hdef | hcheck
        · exact hc.definitions i c (by rw [hl.definitionsAt_eq hv hn]; exact hdef)
        · exact hchecks i hreach hi c (by rw [hl.checksAt_eq hv hn]; exact hcheck)
  refine ⟨q, hq, ⟨m₁, hm₁⟩, hiff, fun hnone => hiff.mpr ⟨m₁, hm₁, fun a ha _ c hc => ?_⟩⟩
  rw [hnone a ha] at hc
  cases hc

/-! ## A pointer that is checked too late -/

/-- Loads through a pointer, and asserts only then that it is not zero. -/
def lateAssert : Function where
  name := "late"
  locals := [⟨"", .integer⟩, ⟨"p", .pointerTo .integer⟩, ⟨"", .boolean⟩]
  argCount := 1
  blocks := [
    ⟨[.assign ⟨0, 0⟩ (.use (.copy ⟨1, 1⟩)) {}], .goto 1⟩,
    ⟨[.assign ⟨2, 0⟩ (.binary .ne (.copy ⟨1, 0⟩) (.const 0 (.pointerTo .integer))) {}],
      .assert (.copy ⟨2, 0⟩) true 2 {}⟩,
    ⟨[], .return⟩]

/-- An exploration of the late check. -/
def lateExplorer : Explorer where
  entry := lateAssert

/-- What the exploration records: the load in the first node, the check in the second one. -/
def lateGraph : Graph where
  decls := [⟨⟨0⟩, .int, [], none⟩, ⟨⟨1⟩, .int, [⟨0, {}⟩], some ⟨"late", 1, "p"⟩⟩,
    ⟨⟨2⟩, .int, [], none⟩, ⟨⟨3⟩, .int, [], none⟩, ⟨⟨4⟩, .bool, [], none⟩]
  nodes := [
    { exprs := [.binary .eq (.name ⟨3⟩ .int) (.name ⟨2⟩ .int)], closed := true, out := [⟨none, 1⟩] },
    { exprs := [.binary .eq (.name ⟨4⟩ .bool) (.not (.binary .eq (.int 0) (.name ⟨1⟩ .int))),
        .name ⟨4⟩ .bool], closed := true, out := [⟨none, 2⟩], into := [⟨none, 0⟩] },
    { closed := true, into := [⟨none, 1⟩] }]

/-- The pointer is zero. -/
def lateModel : Model :=
  ⟨[(⟨0⟩, .ofInt 0), (⟨1⟩, .ofInt 0), (⟨2⟩, .ofInt 0), (⟨3⟩, .ofInt 0), (⟨4⟩, .ofBool false)]⟩

theorem lateExplorer_trace : lateExplorer.trace.1 = .ok () ∧
    lateExplorer.trace.2.1.graph = lateGraph ∧ lateExplorer.trace.2.1.root = 0 := by
  refine ⟨by decide +kernel, by decide +kernel, by decide +kernel⟩

theorem lateModel_exact : lateModel.Exact lateGraph.scope := by
  rintro ⟨k⟩ σ ⟨-, d, hd, rfl⟩
  match k with
  | 0 | 1 | 2 | 3 =>
    cases hd
    exact ⟨.ofInt 0, rfl, rfl⟩
  | 4 =>
    cases hd
    exact ⟨.ofBool false, rfl, Constant.hasSort_ofBool false⟩
  | k + 5 => cases hd

/-- The first node of the graph has no predecessor. -/
theorem lateGraph_reaches {a : Int} (h : lateGraph.Reaches a 0) : a = 0 := by
  rcases Relation.ReflTransGen.cases_tail h with h | ⟨b, -, n, ed, hn, hed, htarget⟩
  · exact h.symm
  · have hmem : n ∈ lateGraph.nodes := mem_of_nth? hn
    simp only [lateGraph, List.mem_cons, List.not_mem_nil, or_false] at hmem
    rcases hmem with rfl | rfl | rfl
    · obtain rfl := List.mem_singleton.mp hed
      cases htarget
    · obtain rfl := List.mem_singleton.mp hed
      cases htarget
    · cases hed

theorem lateModel_holds : ∀ a, lateGraph.Reaches a 0 → lateGraph.Holds lateModel a := by
  intro a ha n hn c hc
  rw [lateGraph_reaches ha] at hn
  cases hn
  obtain rfl := List.mem_singleton.mp hc
  exact ⟨.ofBool true, rfl, rfl⟩

/-- For the late check the theorem applies: the load can meet a zero pointer, and what decides is
whether some completion passes the check. -/
theorem lateAssert_answerable_iff :
    lateExplorer.trace.1 = .ok () ∧ lateModel.get? ⟨1⟩ = some (.ofInt 0) ∧
      ∃ q, lateExplorer.trace.2.1.graph.tagQuery 0
          ⟨⟨1⟩, .int, [⟨0, {}⟩], some ⟨"late", 1, "p"⟩⟩ ⟨0, {}⟩ = .ok q ∧
        (∃ m', Completes lateExplorer.trace.2.2 lateExplorer.trace.2.1.graph ⟨1⟩ 0 lateModel m') ∧
        (lateExplorer.trace.2.1.graph.Answerable q lateModel ↔
          ∃ m', Completes lateExplorer.trace.2.2 lateExplorer.trace.2.1.graph ⟨1⟩ 0 lateModel m' ∧
            PassesChecks lateExplorer.trace.2.2 lateExplorer.trace.2.1.graph 0 m') := by
  obtain ⟨hrun, hgraph, hroot⟩ := lateExplorer_trace
  have hfresh : lateExplorer.Fresh := .new ..
  have hdiv : lateExplorer.entry.DivisionFree := by
    simp [Function.DivisionFree, lateExplorer, lateAssert, Statement.DivisionFree,
      Rvalue.DivisionFree]
  have htag : (⟨⟨1⟩, .int, [⟨0, {}⟩], some ⟨"late", 1, "p"⟩⟩, ⟨0, {}⟩) ∈
      lateExplorer.trace.2.1.graph.tags := by
    rw [hgraph]
    decide
  have hpass : lateExplorer.trace.2.1.graph.Passable lateModel 0 := by
    rw [hgraph]
    exact ⟨.bool true, rfl, .ofBool true, rfl, rfl⟩
  obtain ⟨q, hq, hcomplete, hiff, -⟩ := answerable_iff hfresh hrun hdiv (by simp [lateExplorer, Program.empty])
    htag (by rw [hgraph]; exact lateModel_exact) rfl hpass (by rw [hgraph]; exact lateModel_holds)
  rw [hroot] at hq
  exact ⟨hrun, rfl, q, hq, hcomplete, hiff⟩

/-- The load comes before the check, and a zero pointer gets that far; but the question about it
has no answer with a zero pointer, because the later check is part of it. -/
theorem lateAssert_hides_load :
    lateModel.Exact (lateExplorer.trace.2.1.graph.scope fun _ => True) ∧
      lateExplorer.trace.2.1.graph.Passable lateModel 0 ∧
      (∀ a, lateExplorer.trace.2.1.graph.Reaches a 0 →
        lateExplorer.trace.2.1.graph.Holds lateModel a) ∧
      ∃ q, lateExplorer.trace.2.1.graph.tagQuery lateExplorer.trace.2.1.root
          ⟨⟨1⟩, .int, [⟨0, {}⟩], some ⟨"late", 1, "p"⟩⟩ ⟨0, {}⟩ = .ok q ∧
        ¬lateExplorer.trace.2.1.graph.Answerable q lateModel := by
  obtain ⟨-, hgraph, hroot⟩ := lateExplorer_trace
  rw [hgraph, hroot]
  refine ⟨lateModel_exact, ⟨.bool true, rfl, .ofBool true, rfl, rfl⟩, lateModel_holds, _,
    Graph.tagQuery_eq_ok rfl rfl, ?_⟩
  rintro ⟨m, hm, hparams, hans⟩
  have hformula : lateGraph.formulaWithin lateGraph.nodes.length 0 =
      .binary .and (.binary .eq (.name ⟨3⟩ .int) (.name ⟨2⟩ .int))
        (.binary .and
          (.binary .eq (.name ⟨4⟩ .bool) (.not (.binary .eq (.int 0) (.name ⟨1⟩ .int))))
          (.name ⟨4⟩ .bool)) := by rfl
  have hsat := hans (lateGraph.formulaWithin lateGraph.nodes.length 0) (by simp)
  rw [hformula, Model.satisfies_and, Model.satisfies_and] at hsat
  obtain ⟨-, ⟨b, hb, hbt⟩, c, hc, hct⟩ := hsat
  have hp : m.get? ⟨1⟩ = some (.ofInt 0) := hparams ⟨1⟩ _ rfl (by simp)
  obtain ⟨c', hc', hsort⟩ := hm ⟨4⟩ .bool ⟨trivial, _, rfl, rfl⟩
  rw [Expr.eval, hc'] at hc
  cases hc
  rw [Expr.eval, Expr.eval, hc', Expr.eval, Expr.eval, Expr.eval, hp] at hb
  have hone := hsort.eq_ofBool
  rw [hct] at hone
  rw [hone] at hb
  cases hb
  exact absurd hbt (by decide)

end Explorer
end NullPath
