import NullPath.Proofs.Entry

/-!
# Completing a model

An exploration records facts in every node, also in nodes that a model does not reach.  Most of
these facts define a new name, as the value of a term or as an address that is not zero, and a
definition excludes nothing: the name can be given the value that its definition asks for.  The
facts of `assert` terminators are the only others.  So a model of the nodes on one path goes on to
a model of all definitions of the graph, and the values on the path stay.

* `Store.Continues`: a change of a store in which models can be carried along.
* `Store.Continues.of_unfolds`: definitions are such changes.
* `Block.definitions`, `Block.checks`: the two kinds of facts that a node records.
* `Explorer.Logged.exists_completion`: a model of a set of nodes goes on to all definitions.
-/

namespace NullPath

/-- A value that can be used with a sort stands for a value of this sort. -/
theorem Constant.Fits.exists_hasSort {c : Constant} {s : ExprSort} (h : c.Fits s) :
    ∃ c' : Constant, c'.HasSort s ∧ c'.value = c.value := by
  cases s with
  | int => exact ⟨.ofInt c.value, rfl, rfl⟩
  | bool => exact ⟨c, h, rfl⟩
  | other _ _ => exact h.elim

namespace Store

variable {P : Name → Prop} {i : Int} {s s' s'' : Store}

/-- Every model of what a node records before a change goes on to a model of what it records
after it. -/
structure Continues (P : Name → Prop) (i : Int) (s s' : Store) : Prop where
  length_le : s.graph.decls.length ≤ s'.graph.decls.length
  realized : ∀ m, Realized P m i s → ∃ m', Realized P m' i s' ∧ Keeps P s m m'

namespace Continues

theorem trans (h : Continues P i s s') (h' : Continues P i s' s'') : Continues P i s s'' := by
  refine ⟨h.length_le.trans h'.length_le, fun m hm => ?_⟩
  obtain ⟨m', hm', hk⟩ := h.realized m hm
  obtain ⟨m'', hm'', hk'⟩ := h'.realized m' hm'
  refine ⟨m'', hm'', fun n hn => ?_⟩
  rw [hk' n ⟨hn.1, Nat.lt_of_lt_of_le hn.2 h.length_le⟩, hk n hn]

/-- Where nothing is asserted, new names can have any values. -/
theorem of_evolves (h : s.Evolves P i [] s') : Continues P i s s' := by
  refine ⟨h.grows.length_le, fun m hm => ?_⟩
  obtain ⟨m', hk, hx⟩ := hm.exact.exists_extends (fun _ _ => h.grows.declares) h.scope.tidy
  exact ⟨m', hm.grown h hk (hx.mono fun n σ hn => ⟨trivial, hn.2⟩), hk⟩

/-- A new address can be given a value that is not zero. -/
theorem addressed (hs : s.Scoped P) (hi : 0 ≤ i) (x : Slot) :
    Continues P i s ((s.addressed x).asserted i (nonzero s.nextName)) := by
  have hev : s.Evolves P i [] (s.addressed x) := .addressed hs
  refine ⟨hev.grows.length_le, fun m hm => ?_⟩
  have hone : (Constant.ofInt 1).HasSort .int := rfl
  obtain ⟨hfresh, hkeeps⟩ := hm.fresh hone
  have hx : Model.Exact (m.insert s.nextName (.ofInt 1)) ((s.addressed x).graph.scope P) :=
    hfresh.exact
  have hr := hm.grown hev hkeeps hx
  have hknows : (s.addressed x).Knows P s.nextName := hs.knows_nextName
  have hvalue : (Expr.name s.nextName .int).eval (m.insert s.nextName (.ofInt 1)) =
      .ok (.ofInt 1) := by
    rw [Expr.eval, Assoc.get?_insert, if_pos rfl]
  have hzero := Expr.eval_isZero hknows.hasSort_int.sorted hx.uses.suits hvalue rfl
  have hnot := Expr.eval_mkNot hknows.hasSort_int.isZero.sorted hx.uses.suits hzero
  refine ⟨_, hr.asserted hknows.hasSort_int.isZero.mkNot ?_ hi, hkeeps⟩
  exact (Model.satisfies_iff_of_eval hnot).mpr rfl

/-- A defined name can be given the value of its definition. -/
theorem defined {c : Cell} {e : Expr} (hs : s.Scoped P) (hi : 0 ≤ i) (hc : s.Locates P c)
    (he : e.Sorted (s.graph.uses P)) (hdiv : e.DivisionFree) :
    Continues P i s (s.defined e.sort c i e) := by
  have hev : s.Evolves P i [] (s.declared e.sort) := .declared hs he.sort_cases
  refine ⟨hev.grows.length_le, fun m hm => ?_⟩
  obtain ⟨v, hv⟩ := he.defines hdiv hm.exact.uses
  obtain ⟨v', hsort, hval⟩ := (he.fits hm.exact.uses.suits hv).exists_hasSort
  exact ⟨_, hm.defined hi hc he hv hsort hval⟩

/-- A change that consists of definitions. -/
theorem of_unfolds {D : Prop} (h : Unfolds P i D s s') (hD : D) (hi : 0 ≤ i) : Continues P i s s' := by
  induction h with
  | quiet h => exact of_evolves h
  | address hs x => exact addressed hs hi x
  | define hs hc he hdiv => exact defined hs hi hc he (hdiv hD)
  | trans _ _ ih ih' => exact ih.trans ih'

end Continues
end Store

/-! ## The facts of a node -/

/-- The facts of a node that define names: all but that of an `assert`. -/
def Block.definitions (b : Block) (n : Node) : List Expr :=
  if b.terminator.isAssert then n.exprs.dropLast else n.exprs

/-- The fact of an `assert`, which is the last one of its node. -/
def Block.checks (b : Block) (n : Node) : List Expr :=
  if b.terminator.isAssert then n.exprs.getLast?.toList else []

theorem Block.mem_exprs_iff {b : Block} {n : Node} {c : Expr} :
    c ∈ n.exprs ↔ c ∈ b.definitions n ∨ c ∈ b.checks n := by
  unfold definitions checks
  split
  · rcases List.eq_nil_or_concat n.exprs with h | ⟨es, x, h⟩
    · simp [h]
    · simp [h]
  · simp

namespace Visit.Valid

variable {options : Options} {program : Program} {i : Nat} {v : Visit} {m : Model}

/-- A model of the names at the beginning of a visit goes on to the definitions of its node. -/
theorem exists_model (hv : v.Valid options program i)
    (hdiv : ∀ st ∈ v.block.statements, st.DivisionFree)
    (hm : m.Exact v.entered.store.graph.scope) :
    ∃ m' n, v.left.store.graph.node? i = some n ∧
      v.entered.store.Keeps (fun _ => True) m m' ∧
      m'.Exact v.left.store.graph.scope ∧
      ∀ c ∈ v.block.definitions n, m'.Satisfies c := by
  have hi : (0 : Int) ≤ i := Int.natCast_nonneg i
  have hr : v.entered.store.Realized (fun _ => True) m i := by
    refine ⟨hv.scope, hm, ?_, ?_⟩
    · intro n hn a ha
      rw [hv.node] at hn
      cases hn
      cases ha
    · intro n hn a ha
      rw [hv.node] at hn
      cases hn
      cases ha
  obtain ⟨n, hn, -⟩ := hv.evolves hv.scope
  obtain ⟨⟨s, hunfolds, hchecked⟩, -⟩ := Machine.block_unfolds hv.scope hv.run
  obtain ⟨m', hr', hkeeps⟩ := (Store.Continues.of_unfolds hunfolds hdiv hi).realized m hr
  unfold Store.Checked at hchecked
  refine ⟨m', n, hn, hkeeps, ?_, ?_⟩
  · split at hchecked
    · obtain ⟨fact, -, -, hleft⟩ := hchecked
      rw [hleft]
      exact hr'.exact
    · rw [hchecked]
      exact hr'.exact
  · intro c hc
    unfold Block.definitions at hc
    split at hchecked
    · next hassert =>
      obtain ⟨fact, -, -, hleft⟩ := hchecked
      rw [if_pos hassert] at hc
      have hnode : (s.asserted i fact).graph.node? i = some n := by
        rw [hleft] at hn
        exact hn
      rw [Store.asserted, Graph.node?_modifyNode hi, if_pos rfl] at hnode
      obtain ⟨n₀, hn₀, rfl⟩ := Option.map_eq_some_iff.mp hnode
      rw [List.dropLast_concat] at hc
      exact hr'.holds n₀ hn₀ c hc
    · next hassert =>
      rw [if_neg hassert] at hc
      rw [hchecked] at hn
      exact hr'.holds n hn c hc

end Visit.Valid

/-! ## The names of a set of visits -/

/-- The visit declared the name. -/
def Visit.Introduces (v : Visit) (n : Name) : Prop :=
  v.entered.store.graph.decls.length ≤ n.index ∧ n.index < v.left.store.graph.decls.length

namespace Explorer

variable {s₀ : Store} {e : Explorer} {vs : List Visit} {i j : Nat} {v w : Visit} {m m' : Model}
  {R : Nat → Prop} {n : Name}

/-- The names of the entry, and those that a set of visits declared. -/
def NamesOf (s₀ : Store) (vs : List Visit) (R : Nat → Prop) (n : Name) : Prop :=
  n.index < s₀.graph.decls.length ∨ ∃ (i : Nat) (v : Visit), R i ∧ vs[i]? = some v ∧ v.Introduces n

/-- With a visit, its parent belongs to the set. -/
def ParentClosed (vs : List Visit) (R : Nat → Prop) : Prop :=
  ∀ (i j : Nat) w, vs[j]? = some w → w.frame.parent = some (i : Int) → R j → R i

namespace Logged

/-- A visit of a set with all parents meets only names of the set, until it declares new ones. -/
theorem scoped_names (hl : Logged s₀ e vs) (hR : ParentClosed vs R) (hw : vs[j]? = some w)
    (hj : R j) : w.entered.store.Scoped fun n =>
      NamesOf s₀ vs R n ∨ w.entered.store.graph.decls.length ≤ n.index := by
  induction j using Nat.strong_induction_on generalizing w with
  | _ j ih =>
    have hvalid := hl.valid j w hw
    have hnames : ∀ n, w.frame.memory.Mentions n → NamesOf s₀ vs R n := by
      intro n hn
      cases hp : w.frame.parent with
      | none =>
        obtain rfl := hl.eq_zero_of_parent_none hw hp
        have hmem : w.frame.memory = s₀.memory := congrArg Frame.memory (hl.first_of_zero hw)
        rw [hmem] at hn
        exact .inl ((enterFunction_bare Store.bare_empty hl.entered).scope.mentions n hn).2
      | some p =>
        obtain ⟨i, v, rfl, hij, hv, hnext⟩ := hl.handed_on hw hp
        have hi : R i := hR i j w hw hp hj
        have hscope := ih i hij hv hi
        obtain ⟨-, -, -, -, -, hgoes⟩ := (hl.valid i v hv).evolves hscope
        obtain ⟨hP, hlt⟩ := (hgoes _ hnext).memory.mentions n hn
        rcases hP with hP | hle
        · exact hP
        · exact .inr ⟨i, v, hi, hv, hle, hlt⟩
    refine ⟨hvalid.scope.tidy, fun n hn => .inr hn, fun n hn => ?_⟩
    refine ⟨.inl (hnames n ?_), (hvalid.scope.mentions n hn).2⟩
    rw [← hvalid.memory]
    exact hn

/-- What such a visit knows in the end are names of the set. -/
theorem names_of_knows (hw : vs[j]? = some w) (hj : R j)
    (hn : w.left.store.Knows
      (fun n => NamesOf s₀ vs R n ∨ w.entered.store.graph.decls.length ≤ n.index) n) :
    NamesOf s₀ vs R n := by
  rcases hn.1 with h | h
  · exact h
  · exact .inr ⟨j, w, hj, hw, h, hn.2⟩

section
variable (hl : Logged s₀ e vs) (hv : vs[i]? = some v)
include hl hv

/-- Visits declare different names. -/
theorem introduces_unique (hw : vs[j]? = some w) (hvn : v.Introduces n) (hwn : w.Introduces n) :
    i = j := by
  rcases Nat.lt_trichotomy i j with h | h | h
  · have := (hl.ordered i j v w h hv hw).length_le
    exact absurd hvn.2 (Nat.not_lt.mpr (this.trans hwn.1))
  · exact h
  · have := (hl.ordered j i w v h hw hv).length_le
    exact absurd hwn.2 (Nat.not_lt.mpr (this.trans hvn.1))

/-- The facts of a node, as terms over the names that its visit knew in the end. -/
theorem exprs {n : Node} (hn : e.graph.node? i = some n) : ∀ c ∈ n.exprs,
      c.HasSort v.left.store.graph.uses .bool ∧
        ((∀ st ∈ v.block.statements, st.DivisionFree) → c.DivisionFree) := by
  intro c hc
  obtain ⟨n₁, n₂, hn₁, hn₂, hexprs, -⟩ := hl.node hv
  obtain ⟨n₃, hn₃, -, hev, hdiv, -⟩ := (hl.valid i v hv).evolves (hl.valid i v hv).scope
  have h₁ : n₁ = n := Option.mem_unique hn₁ hn
  have h₃ : n₃ = n₂ := Option.mem_unique hn₃ hn₂
  rw [← h₁, hexprs, ← h₃] at hc
  exact ⟨hev.asserts c hc, fun hfree => hdiv hfree c hc⟩

/-- What a visit knew in the end is declared in the finished graph. -/
theorem uses_left_le : (v.left.store.graph.uses fun _ => True).Le e.graph.uses :=
  ((Graph.Extends.close (Int.natCast_nonneg i)).trans (hl.final i v hv)).uses_le _

/-- The guard of a visited frame is a truth value over declared names, and nothing is divided in
it. -/
theorem guard {p : Int} (hp : v.frame.parent = some p) : ∀ c ∈ v.frame.guard,
      c.HasSort e.graph.uses .bool ∧ c.DivisionFree := by
  intro c hc
  obtain ⟨k, u, -, -, hu, hnext⟩ := hl.handed_on hv hp
  have hvalid := hl.valid k u hu
  obtain ⟨-, -, -, -, -, hgoes⟩ := hvalid.evolves hvalid.scope
  obtain ⟨hsort, hfree⟩ := (hgoes _ hnext).guard c hc
  exact ⟨hsort.mono (hl.uses_left_le hu), hfree⟩

end

/-- So is the guard of every edge. -/
theorem guard_of_out (hl : Logged s₀ e vs) {a : Int} {n : Node} (hn : e.graph.node? a = some n)
    {ed : Edge} (hed : ed ∈ n.out) : ∀ c ∈ ed.guard,
      c.HasSort e.graph.uses .bool ∧ c.DivisionFree := by
  intro c hc
  obtain ⟨n', hn', -⟩ := hl.mirrored a n ed hn hed
  obtain ⟨j, w, hj, hw, -⟩ := hl.exists_of_node hn'
  have hedge : ed = ⟨ed.guard, j⟩ := by rw [← hj]
  rw [hedge] at hed
  obtain ⟨hpar, hguard⟩ := (hl.edge_iff hw).mp ⟨n, hn, hed⟩
  exact hl.guard hw hpar c (hguard.trans hc)

/-! ## Completing a model along the log -/

/-- One more visit: the names that it declares get values under which its definitions hold, and
all other values stay. -/
theorem complete_visit (hl : Logged s₀ e vs) (hv : vs[i]? = some v)
    (hdiv : ∀ st ∈ v.block.statements, st.DivisionFree)
    (hm : m.Exact e.graph.scope) :
    ∃ m' : Model, m'.Exact e.graph.scope ∧
      (∀ n, n.index < e.graph.decls.length → ¬v.Introduces n → m'.get? n = m.get? n) ∧
      ∀ n, e.graph.node? i = some n → ∀ c ∈ v.block.definitions n, m'.Satisfies c := by
  have hvalid := hl.valid i v hv
  have hfinal : v.left.store.graph.Extends e.graph :=
    (Graph.Extends.close (Int.natCast_nonneg i)).trans (hl.final i v hv)
  obtain ⟨k, -, -, hev, -⟩ := hvalid.evolves hvalid.scope
  obtain ⟨m₁, n₁, hn₁, hkeeps, hexact, hdefs⟩ := hvalid.exists_model hdiv
    (hm.mono ((hvalid.extends_graph.trans (hl.final i v hv)).scope_le _))
  -- the names up to the end of the visit get the new values, all later ones keep theirs
  have hvalue : ∀ n, n.index < e.graph.decls.length → ∃ c,
      (if n.index < v.left.store.graph.decls.length then m₁.get? n else m.get? n) = some c ∧
        ∀ d, e.graph.declaration? n = some d → c.HasSort d.sort := by
    intro n hn
    obtain ⟨d, hd⟩ : ∃ d, e.graph.declaration? n = some d := ⟨_, List.getElem?_eq_getElem hn⟩
    have hone : ∀ (c : Constant), c.HasSort d.sort →
        ∀ d', e.graph.declaration? n = some d' → c.HasSort d'.sort := by
      intro c hc d' hd'
      rw [hd] at hd'
      cases hd'
      exact hc
    split
    · next hlt =>
      obtain ⟨d₁, hd₁⟩ : ∃ d₁, v.left.store.graph.declaration? n = some d₁ :=
        ⟨_, List.getElem?_eq_getElem hlt⟩
      obtain ⟨c, hc, hsort⟩ := hexact n d₁.sort ⟨trivial, d₁, hd₁, rfl⟩
      obtain ⟨d', hd', hs⟩ := hfinal.declares ⟨d₁, hd₁, rfl⟩
      exact ⟨c, hc, hone c (by rw [hd] at hd'; cases hd'; rwa [hs])⟩
    · obtain ⟨c, hc, hsort⟩ := hm n d.sort ⟨trivial, d, hd, rfl⟩
      exact ⟨c, hc, hone c hsort⟩
  obtain ⟨m', hm'⟩ := Model.exists_forall _ _ hvalue
  have hsame : v.left.store.Keeps (fun _ => True) m₁ m' := by
    intro n hn
    obtain ⟨c, hc, hold, -⟩ := hm' n (Nat.lt_of_lt_of_le hn.2 hfinal.length_le)
    rw [if_pos hn.2] at hold
    rw [hc, hold]
  refine ⟨m', ?_, ?_, ?_⟩
  · rintro n σ ⟨-, d, hd, rfl⟩
    obtain ⟨c, hc, -, hsort⟩ := hm' n (lt_length_of_getElem? hd)
    exact ⟨c, hc, hsort d hd⟩
  · intro n hn hout
    obtain ⟨c, hc, hold, -⟩ := hm' n hn
    rw [hc, ← hold]
    split
    · next hlt =>
      refine hkeeps n ⟨trivial, ?_⟩
      exact Nat.lt_of_not_le fun h => hout ⟨h, hlt⟩
    · rfl
  · intro n hn c hc
    obtain ⟨n₂, n₃, hn₂, hn₃, hexprs, -⟩ := hl.node hv
    have h₂ : n₂ = n := Option.mem_unique hn₂ hn
    have h₃ : n₃ = n₁ := Option.mem_unique hn₃ hn₁
    have hdef : v.block.definitions n = v.block.definitions n₁ := by
      rw [Block.definitions, Block.definitions, ← h₂, hexprs, h₃]
    have hsort := (hl.exprs hv hn c (Block.mem_exprs_iff.mpr (.inl hc))).1
    rw [hdef] at hc
    exact (hsame.satisfies hsort.sorted).mpr (hdefs c hc)

variable (hl : Logged s₀ e vs)
  (hdiv : ∀ (i : Nat) v, vs[i]? = some v → ∀ st ∈ v.block.statements, st.DivisionFree)
  (hm : m.Exact e.graph.scope)
include hl hdiv hm

/-- The visits outside of a set are completed one after the other.  A visit only gives values to
the names that it declares, which no earlier visit knows and no visit of the set declares. -/
theorem exists_completion_outside (R : Nat → Prop) (k : Nat) :
    ∃ m' : Model, m'.Exact e.graph.scope ∧
      (∀ n, NamesOf s₀ vs R n → m'.get? n = m.get? n) ∧
      ∀ i v, i < k → ¬R i → vs[i]? = some v →
        ∀ n, e.graph.node? i = some n → ∀ c ∈ v.block.definitions n, m'.Satisfies c := by
  induction k with
  | zero => exact ⟨m, hm, fun _ _ => rfl, fun i _ hi => absurd hi (Nat.not_lt_zero i)⟩
  | succ k ih =>
    obtain ⟨m₁, hexact, hnames, hdefs⟩ := ih
    by_cases hk : R k ∨ vs[k]? = none
    · refine ⟨m₁, hexact, hnames, fun i v hi hout hv => hdefs i v ?_ hout hv⟩
      rcases Nat.lt_succ_iff_lt_or_eq.mp hi with hlt | rfl
      · exact hlt
      · rcases hk with hk | hk
        · exact absurd hk hout
        · rw [hk] at hv
          cases hv
    · rw [not_or] at hk
      obtain ⟨v, hv⟩ := Option.ne_none_iff_exists'.mp hk.2
      obtain ⟨m', hexact', hother, hdefs'⟩ := hl.complete_visit hv (hdiv k v hv) hexact
      refine ⟨m', hexact', fun n hn => ?_, fun i u hi hout hu => ?_⟩
      · rw [← hnames n hn]
        rcases hn with hn | ⟨i, u, hi, hu, hin⟩
        · refine hother n (Nat.lt_of_lt_of_le hn hl.base.length_le) fun hin => ?_
          have := (hl.based k v hv).length_le
          exact absurd hin.1 (Nat.not_le.mpr (Nat.lt_of_lt_of_le hn this))
        · refine hother n (Nat.lt_of_lt_of_le hin.2 (hl.final i u hu).length_le) fun hin' => ?_
          obtain rfl := hl.introduces_unique hu hv hin hin'
          exact hk.1 hi
      · rcases Nat.lt_succ_iff_lt_or_eq.mp hi with hlt | rfl
        · intro n hn c hc
          have hsort := (hl.exprs hu hn c (Block.mem_exprs_iff.mpr (.inl hc))).1
          have hkeeps : u.left.store.Keeps (fun _ => True) m₁ m' := by
            intro x hx
            refine hother x (Nat.lt_of_lt_of_le hx.2 (hl.final i u hu).length_le) fun hin => ?_
            have := (hl.ordered i k u v hlt hu hv).length_le
            exact absurd hin.1 (Nat.not_le.mpr (Nat.lt_of_lt_of_le hx.2 this))
          exact (hkeeps.satisfies hsort.sorted).mpr (hdefs i u hlt hout hu n hn c hc)
        · rw [hv] at hu
          cases hu
          exact hdefs'

/-- **Definitions exclude nothing.**  A model of the nodes of a set with all parents goes on to a
model of all definitions of the graph, and the names of the set keep their values. -/
theorem exists_completion (hR : ParentClosed vs R) (hholds : ∀ i, R i → e.graph.Holds m i) :
    ∃ m' : Model, m'.Exact e.graph.scope ∧
      (∀ n, NamesOf s₀ vs R n → m'.get? n = m.get? n) ∧
      (∀ i v, R i → vs[i]? = some v → e.graph.Holds m' i) ∧
      ∀ (i : Nat) v, vs[i]? = some v →
        ∀ n, e.graph.node? i = some n → ∀ c ∈ v.block.definitions n, m'.Satisfies c := by
  obtain ⟨m', hexact, hnames, hdefs⟩ := hl.exists_completion_outside hdiv hm R vs.length
  have hset : ∀ i v, R i → vs[i]? = some v → e.graph.Holds m' i := by
    intro i v hi hv
    have hscope := hl.scoped_names hR hv hi
    refine (hl.holds_congr hv hscope fun n hn => ?_).mpr (hholds i hi)
    exact hnames n (names_of_knows hv hi hn)
  refine ⟨m', hexact, hnames, hset, fun i v hv n hn c hc => ?_⟩
  by_cases hi : R i
  · exact hset i v hi hv n hn c (Block.mem_exprs_iff.mpr (.inl hc))
  · exact hdefs i v (lt_length_of_getElem? hv) hi hv n hn c hc

end Logged
end Explorer
end NullPath
