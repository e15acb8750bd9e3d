import NullPath.Proofs.Paths

/-!
# Models of what a node records

While a node is built, names are declared one after the other.  A model of what has been recorded
so far can be carried along: a new name gets a value, and this changes nothing for the terms that
are already there, because they do not contain it.

* `Model.exists_forall`: a model with prescribed values.
* `Store.Realized.fresh`, `Store.Realized.asserted`, `Store.Realized.grown`: carrying a model along.
-/

namespace NullPath

/-- Values of finitely many names that satisfy a condition make a model. -/
theorem Model.exists_forall (N : Nat) (p : Name → Constant → Prop)
    (h : ∀ n, n.index < N → ∃ c, p n c) :
    ∃ m : Model, ∀ n, n.index < N → ∃ c, m.get? n = some c ∧ p n c := by
  induction N with
  | zero => exact ⟨.empty, fun n hn => absurd hn (Nat.not_lt_zero _)⟩
  | succ N ih =>
    obtain ⟨m, hm⟩ := ih fun n hn => h n (Nat.lt_succ_of_lt hn)
    obtain ⟨c, hc⟩ := h ⟨N⟩ (Nat.lt_succ_self N)
    refine ⟨m.insert ⟨N⟩ c, fun n hn => ?_⟩
    rw [Assoc.get?_insert]
    split
    · next heq => exact ⟨c, rfl, heq ▸ hc⟩
    · next hne =>
      have hindex : n.index ≠ N := fun h => hne (by rw [← h])
      exact hm n (by omega)

/-- A sort of names has a value. -/
theorem Constant.exists_hasSort {s : ExprSort} (h : s = .int ∨ s = .bool) :
    ∃ c : Constant, c.HasSort s := by
  rcases h with rfl | rfl
  · exact ⟨.ofInt 0, rfl⟩
  · exact ⟨.ofBool false, hasSort_ofBool false⟩

/-- Values of the declared sorts can be used wherever the names are. -/
theorem Model.Exact.uses {m : Model} {g : Graph} {P : Name → Prop} (h : m.Exact (g.scope P)) :
    m.Sorts (g.uses P) := by
  rintro n s ⟨hn, d, hd, hs⟩
  obtain ⟨c, hc, hsort⟩ := h n d.sort ⟨hn, d, hd, rfl⟩
  rcases hs with rfl | rfl
  · exact ⟨c, hc, hsort.fits⟩
  · exact ⟨c, hc, trivial⟩

namespace Store

variable {P : Name → Prop} {m m' m'' : Model} {i : Int} {s s' : Store} {n : Name}
  {es : List Expr} {e : Expr} {c : Constant} {cell : Cell} {k : Node}

/-- The model keeps the values of the names that are known in a store. -/
def Keeps (P : Name → Prop) (s : Store) (m m' : Model) : Prop :=
  ∀ n, s.Knows P n → m'.get? n = m.get? n

theorem Keeps.refl {P : Name → Prop} {s : Store} {m : Model} : Keeps P s m m :=
  fun _ _ => rfl

theorem Keeps.trans (h : Keeps P s m m') (hev : s.Evolves P i es s') (h' : Keeps P s' m' m'') :
    Keeps P s m m'' :=
  fun n hn => (h' n (hev.knows hn)).trans (h n hn)

/-- A term over known names has the same value in a model that keeps theirs. -/
theorem Keeps.eval_eq (h : Keeps P s m m') (he : e.Sorted (s.graph.uses P)) :
    e.eval m' = e.eval m := by
  refine he.eval_congr fun n sort hn => ?_
  obtain ⟨hP, d, hd, -⟩ := hn
  exact h n ⟨hP, lt_length_of_getElem? hd⟩

theorem Keeps.satisfies (h : Keeps P s m m') (he : e.Sorted (s.graph.uses P)) :
    m'.Satisfies e ↔ m.Satisfies e := by
  rw [Model.Satisfies, Model.Satisfies, h.eval_eq he]

/-- The model gives every name in scope a value of its sort and makes the assertions of a node
true. -/
structure Realized (P : Name → Prop) (m : Model) (i : Int) (s : Store) : Prop where
  scope : s.Scoped P
  exact : m.Exact (s.graph.scope P)
  sorted : ∀ n, s.graph.node? i = some n → ∀ e ∈ n.exprs, e.Sorted (s.graph.uses P)
  holds : s.graph.Holds m i

section
variable (h : Realized P m i s)
include h

/-- What is realized does not depend on the memory. -/
theorem Realized.of_graph (hs : s'.Scoped P) (hg : s'.graph = s.graph) : Realized P m i s' :=
  ⟨hs, by rw [hg]; exact h.exact, by rw [hg]; exact h.sorted, by rw [hg]; exact h.holds⟩

/-- A store that grows without new assertions is realized by every model that keeps the old values
and is exact. -/
theorem Realized.grown (hev : s.Evolves P i [] s') (hk : Keeps P s m m')
    (hx : m'.Exact (s'.graph.scope P)) : Realized P m' i s' := by
  have hnodes : s'.graph.nodes = s.graph.nodes := by
    rw [hev.grows.nodes]
    simp only [List.append_nil]
    exact List.modify_id _ _
  have hnode : ∀ n, s'.graph.node? i = some n → s.graph.node? i = some n := by
    intro n hn
    rwa [Graph.node?, hnodes] at hn
  refine ⟨hev.scope, hx, fun n hn e he => ?_, fun n hn e he => ?_⟩
  · exact (h.sorted n (hnode n hn) e he).mono (hev.grows.uses_le P)
  · exact (hk.satisfies (h.sorted n (hnode n hn) e he)).mpr (h.holds n (hnode n hn) e he)

/-- A new name can be given any value of its sort. -/
theorem Realized.fresh {sort : ExprSort} (hc : c.HasSort sort) :
    Realized P (m.insert s.nextName c) i (s.declared sort) ∧
      Keeps P s m (m.insert s.nextName c) := by
  have hsort : sort = .int ∨ sort = .bool := by
    cases sort with
    | int => exact .inl rfl
    | bool => exact .inr rfl
    | other _ _ => exact hc.elim
  have hkeeps : Keeps P s m (m.insert s.nextName c) := by
    intro n hn
    rw [Assoc.get?_insert, if_neg]
    rintro rfl
    exact absurd hn.2 (Nat.lt_irrefl _)
  refine ⟨h.grown (.declared h.scope hsort) hkeeps ?_, hkeeps⟩
  rintro n σ ⟨hn, d, hd, rfl⟩
  rw [Graph.declaration?, Store.declared, Graph.getElem?_declare] at hd
  rw [Assoc.get?_insert]
  split at hd
  · next hindex =>
    have hname : n = s.nextName := Name.ext hindex
    cases hd
    exact ⟨c, if_pos hname, hc⟩
  · next hindex =>
    have hname : ¬n = s.nextName := fun h => hindex (congrArg Name.index h)
    rw [if_neg hname]
    exact h.exact n d.sort ⟨hn, d, hd, rfl⟩

/-- A new assertion that is true. -/
theorem Realized.asserted (he : e.HasSort (s.graph.uses P) .bool) (ht : m.Satisfies e) (hi : 0 ≤ i)
    : Realized P m i (s.asserted i e) := by
  have hev : s.Evolves P i [e] (s.asserted i e) := .asserted h.scope he
  have hnode : ∀ n, (s.asserted i e).graph.node? i = some n →
      ∃ n₀, s.graph.node? i = some n₀ ∧ n.exprs = n₀.exprs ++ [e] := by
    intro n hn
    rw [Store.asserted, Graph.node?_modifyNode hi, if_pos rfl] at hn
    obtain ⟨n₀, hn₀, rfl⟩ := Option.map_eq_some_iff.mp hn
    exact ⟨n₀, hn₀, rfl⟩
  refine ⟨hev.scope, h.exact, fun n hn a ha => ?_, fun n hn a ha => ?_⟩
  · obtain ⟨n₀, hn₀, heq⟩ := hnode n hn
    rw [heq, List.mem_append, List.mem_singleton] at ha
    rcases ha with ha | rfl
    · exact h.sorted n₀ hn₀ a ha
    · exact he.sorted
  · obtain ⟨n₀, hn₀, heq⟩ := hnode n hn
    rw [heq, List.mem_append, List.mem_singleton] at ha
    rcases ha with ha | rfl
    · exact h.holds n₀ hn₀ a ha
    · exact ht

end

/-- The equation that defines a name says that both sides have the same number as value. -/
theorem satisfies_defined {c : Cell} {x x' : Constant} (hs : s.Scoped P)
    (he : e.Sorted (s.graph.uses P)) (hx : m.Exact ((s.declared e.sort).graph.scope P))
    (hv : e.eval m = .ok x) (hn : m.get? s.nextName = some x') :
    (Expr.mkEq (.name s.nextName e.sort) e).HasSort
        (((s.declared e.sort).bound c ⟨s.nextName, false⟩).graph.uses P) .bool ∧
      (m.Satisfies (.mkEq (.name s.nextName e.sort) e) ↔ x'.value = x.value) := by
  have hgrow : s.Evolves P 0 [] (s.declared e.sort) := .declared hs he.sort_cases
  have hknown : (s.declared e.sort).Knows P s.nextName := hs.knows_nextName
  have hname : (Expr.name s.nextName e.sort).HasSort ((s.declared e.sort).graph.uses P) e.sort :=
    (hgrow.scope.sorted_expr hknown (declaration?_declared s e.sort)).mono (Graph.scope_le_uses _ P)
  have he' : e.HasSort ((s.declared e.sort).graph.uses P) e.sort :=
    ⟨he.mono (hgrow.grows.uses_le P), rfl⟩
  have hvalue : (Expr.name s.nextName e.sort).eval m = .ok x' := by rw [Expr.eval, hn]
  refine ⟨hname.mkEq he', ?_⟩
  rw [Model.satisfies_iff_of_eval
    (Expr.eval_mkEq hvalue hv hname.sorted he'.sorted hx.uses.suits rfl), Constant.isTrue_eq]

/-- A name that is defined by a term gets the value of the term, as a value of its sort. -/
theorem Realized.defined {c' : Constant} (h : Realized P m i s) (hi : 0 ≤ i)
    (hcell : s.Locates P cell) (he : e.Sorted (s.graph.uses P)) (hv : e.eval m = .ok c)
    (hc' : c'.HasSort e.sort) (hval : c'.value = c.value) :
    Realized P (m.insert s.nextName c') i (s.defined e.sort cell i e) ∧
      Keeps P s m (m.insert s.nextName c') := by
  obtain ⟨hfresh, hkeeps⟩ := h.fresh hc'
  have hgrow : s.Evolves P i [] (s.declared e.sort) := .declared h.scope he.sort_cases
  have hbound : (s.declared e.sort).Evolves P i []
      ((s.declared e.sort).bound cell ⟨s.nextName, false⟩) :=
    .bound hfresh.scope (hgrow.locates hcell) h.scope.knows_nextName
  have hr := hfresh.grown hbound .refl hfresh.exact
  obtain ⟨hsort, htrue⟩ := satisfies_defined h.scope he hfresh.exact
    (by rw [hkeeps.eval_eq he, hv]) (by rw [Assoc.get?_insert, if_pos rfl])
  exact ⟨hr.asserted hsort (htrue.mpr hval) hi, hkeeps⟩

/-- What is asserted is asserted from then on. -/
theorem holds_of_evolves (hev : s.Evolves P i es s') (hi : 0 ≤ i) (h : s'.graph.Holds m i) :
    s.graph.Holds m i := by
  intro n hn e he
  have hnode : s'.graph.node? i = some { n with exprs := n.exprs ++ es } := by
    rw [Graph.node?_of_nonneg hi] at hn ⊢
    rw [hev.grows.nodes, List.getElem?_modify, hn]
    simp
  exact h _ hnode e (List.mem_append_left _ he)

theorem satisfies_of_asserted (hi : 0 ≤ i) (hk : s.graph.node? i = some k)
    (h : (s.asserted i e).graph.Holds m i) : m.Satisfies e := by
  have hnode : (s.asserted i e).graph.node? i = some { k with exprs := k.exprs ++ [e] } := by
    rw [Store.asserted, Graph.node?_modifyNode hi, if_pos rfl, hk]
    rfl
  exact h _ hnode e (by simp)

/-- If the equation that defines a name holds, the name has the value of the term. -/
theorem value_of_defined (hs : s.Scoped P) (hi : 0 ≤ i) (hk : s.graph.node? i = some k)
    (he : e.Sorted (s.graph.scope P)) (hx : m.Exact ((s.defined e.sort cell i e).graph.scope P))
    (hv : e.eval m = .ok c) (hh : (s.defined e.sort cell i e).graph.Holds m i) :
    m.get? s.nextName = some c := by
  have hgrow : s.Evolves P i [] (s.declared e.sort) := .declared hs he.sort_cases
  have hexact : m.Exact ((s.declared e.sort).graph.scope P) := hx
  obtain ⟨c', hc', hsort'⟩ := hexact s.nextName e.sort
    ⟨hs.fresh _ (Nat.le_refl _), _, declaration?_declared s e.sort, rfl⟩
  obtain ⟨-, htrue⟩ := satisfies_defined (c := cell) hs
    (he.mono (Graph.scope_le_uses _ P)) hexact hv hc'
  have hval := htrue.mp (satisfies_of_asserted hi hk hh)
  have hsort := he.hasSort (hexact.mono (hgrow.grows.scope_le P)).respects hv
  rw [hc', hsort'.ext hsort hval]

end Store

/-- A model goes on to a graph with more names: those that were not in scope get some value. -/
theorem Model.Exact.exists_extends {P : Name → Prop} {m : Model} {s : Store} {g : Graph}
    (hm : m.Exact (s.graph.scope P)) (hext : ∀ n σ, s.graph.Declares n σ → g.Declares n σ)
    (hg : g.Tidy) : ∃ m', Store.Keeps P s m m' ∧ m'.Exact g.scope := by
  have hvalue : ∀ n : Name, n.index < g.decls.length → ∃ c : Constant,
      (s.Knows P n → m.get? n = some c) ∧ ∀ d, g.declaration? n = some d → c.HasSort d.sort := by
    intro n hn
    obtain ⟨d, hd⟩ : ∃ d, g.declaration? n = some d := ⟨_, List.getElem?_eq_getElem hn⟩
    have hone : ∀ (c : Constant), c.HasSort d.sort →
        ∀ d', g.declaration? n = some d' → c.HasSort d'.sort := by
      intro c hc d' hd'
      rw [hd] at hd'
      cases hd'
      exact hc
    by_cases hk : s.Knows P n
    · obtain ⟨d₀, hd₀⟩ : ∃ d₀, s.graph.declaration? n = some d₀ :=
        ⟨_, List.getElem?_eq_getElem hk.2⟩
      obtain ⟨c, hc, hsort⟩ := hm n d₀.sort ⟨hk.1, d₀, hd₀, rfl⟩
      obtain ⟨d₁, hd₁, hs⟩ := hext n d₀.sort ⟨d₀, hd₀, rfl⟩
      have heq : d₁ = d := Option.mem_unique hd₁ hd
      exact ⟨c, fun _ => hc, hone c (by rwa [← heq, hs])⟩
    · obtain ⟨c, hc⟩ := Constant.exists_hasSort (hg n.index d hd).2
      exact ⟨c, fun h => absurd h hk, hone c hc⟩
  obtain ⟨m', hm'⟩ := Model.exists_forall _ _ hvalue
  refine ⟨m', fun n hn => ?_, ?_⟩
  · obtain ⟨d, hd, -⟩ := hext n _ ⟨_, List.getElem?_eq_getElem hn.2, rfl⟩
    obtain ⟨c, hc, hold, -⟩ := hm' n (lt_length_of_getElem? hd)
    rw [hc, hold hn]
  · rintro n σ ⟨-, d, hd, rfl⟩
    obtain ⟨c, hc, -, hsort⟩ := hm' n (lt_length_of_getElem? hd)
    exact ⟨c, hc, hsort d hd⟩

/-! ## Models along a path -/

namespace Explorer

variable {s₀ : Store} {e : Explorer} {vs : List Visit} {i j : Nat} {v w : Visit} {m m' : Model}
  {P : Name → Prop} {ns : List Int}

section
variable (hl : Logged s₀ e vs) (hv : vs[i]? = some v) (hP : v.entered.store.Scoped P)
  (hk : v.left.store.Keeps P m m')
include hl hv hP hk

/-- The assertions of a node speak about the names that its visit knew. -/
theorem Logged.holds_congr : e.graph.Holds m' i ↔ e.graph.Holds m i := by
  obtain ⟨n, n', hn, hn', hexprs, -⟩ := hl.node hv
  obtain ⟨n₁, hn₁, -, hev, -⟩ := (hl.valid i v hv).evolves hP
  have heq : n₁ = n' := Option.mem_unique hn₁ hn'
  have hall : ∀ a ∈ n.exprs, (m'.Satisfies a ↔ m.Satisfies a) := by
    intro a ha
    rw [hexprs, ← heq] at ha
    exact hk.satisfies (hev.asserts a ha).sorted
  constructor
  · intro h n₂ hn₂ a ha
    rw [hn] at hn₂
    cases hn₂
    exact (hall a ha).mp (h n hn a ha)
  · intro h n₂ hn₂ a ha
    rw [hn] at hn₂
    cases hn₂
    exact (hall a ha).mpr (h n hn a ha)

/-- The guard of a frame speaks about the names that the visit before it knew. -/
theorem Logged.guard_congr {f : Frame} (hf : f ∈ v.next) :
    (∀ c, f.guard = some c → m'.Satisfies c) ↔ ∀ c, f.guard = some c → m.Satisfies c := by
  obtain ⟨-, -, -, -, -, hgoes⟩ := (hl.valid i v hv).evolves hP
  refine forall_congr' fun c => imp_congr_right fun hc => ?_
  exact hk.satisfies ((hgoes f hf).guard c hc).1.sorted

end

/-- The path constraint of a node and the assertions on the way to it speak about the names that
the visits on the way knew. -/
theorem Logged.path_congr (hl : Logged s₀ e vs) (hw : vs[j]? = some w)
    (hp : e.graph.PathTo e.root ns j) {Q : Name → Prop}
    (hQ : ∀ (i : Nat) v, (i : Int) ∈ ns → vs[i]? = some v →
      ∃ P, v.entered.store.Scoped P ∧ ∀ n, v.left.store.Knows P n → Q n)
    (hk : ∀ n, Q n → m'.get? n = m.get? n) :
    (e.graph.Passable m' j ↔ e.graph.Passable m j) ∧
      ∀ a ∈ ns, (e.graph.Holds m' a ↔ e.graph.Holds m a) := by
  induction ns using List.reverseRecOn generalizing j w with
  | nil =>
    obtain rfl := hl.path_nil hw hp
    exact ⟨iff_of_true (hl.passable_root hw) (hl.passable_root hw), by simp⟩
  | append_singleton ns a ih =>
    obtain ⟨i, v, rfl, -, hv, hp', hpar, hmem⟩ := hl.path_snoc hw hp
    obtain ⟨hpass, hholds⟩ := ih hv hp' fun i v hi => hQ i v (List.mem_append_left _ hi)
    obtain ⟨P, hP, hPQ⟩ := hQ i v (by simp) hv
    have hkeeps : v.left.store.Keeps P m m' := fun n hn => hk n (hPQ n hn)
    refine ⟨?_, fun a ha => ?_⟩
    · rw [hl.passable_step hp' hw hpar, hl.passable_step hp' hw hpar, hpass]
      exact and_congr_right fun _ =>
        hl.guard_congr hv hP hkeeps (f := w.frame.unnumbered) hmem
    · rcases List.mem_append.mp ha with ha | ha
      · exact hholds a ha
      · rw [List.mem_singleton.mp ha]
        exact hl.holds_congr hv hP hkeeps

/-- Visits on the way to a visit are over before it begins. -/
theorem Logged.lt_of_mem_path (hl : Logged s₀ e vs) (hw : vs[j]? = some w)
    (hp : e.graph.PathTo e.root ns j) {a : Int} (ha : a ∈ ns) :
    ∃ (i : Nat) (v : Visit), a = i ∧ i < j ∧ vs[i]? = some v := by
  induction ns using List.reverseRecOn generalizing j w with
  | nil => cases ha
  | append_singleton ns b ih =>
    obtain ⟨i, v, rfl, hij, hv, hp', -⟩ := hl.path_snoc hw hp
    rcases List.mem_append.mp ha with ha | ha
    · obtain ⟨k, u, rfl, hki, hu⟩ := ih hv hp' ha
      exact ⟨k, u, rfl, hki.trans hij, hu⟩
    · exact ⟨i, v, List.mem_singleton.mp ha, hij, hv⟩

/-- A model that has gone along a path: it gives the names that are declared when the last visit
begins values of their sorts, and makes the path constraint of this visit and the assertions on
the way to it true. -/
structure Follows (e : Explorer) (vs : List Visit) (m : Model) (ns : List Int) (j : Nat)
    (w : Visit) : Prop where
  visit : vs[j]? = some w
  path : e.graph.PathTo e.root ns j
  exact : m.Exact w.entered.store.graph.scope
  passable : e.graph.Passable m j
  holds : ∀ a ∈ ns, e.graph.Holds m a

namespace Follows

variable (hl : Logged s₀ e vs)
include hl

/-- A visit begins with an empty node, so a model that has gone along the path realizes it. -/
theorem realized (h : Follows e vs m ns j w) : w.entered.store.Realized (fun _ => True) m j := by
  have hvalid := hl.valid j w h.visit
  refine ⟨hvalid.scope, h.exact, ?_, ?_⟩
  · intro n hn a ha
    rw [hvalid.node] at hn
    cases hn
    cases ha
  · intro n hn a ha
    rw [hvalid.node] at hn
    cases hn
    cases ha

/-- What has been made true on the way stays true when later names get values. -/
theorem kept (h : Follows e vs m ns j w) (hk : w.entered.store.Keeps (fun _ => True) m m') :
    e.graph.Passable m' j ∧ ∀ a ∈ ns, e.graph.Holds m' a := by
  have hQ : ∀ (i : Nat) v, (i : Int) ∈ ns → vs[i]? = some v →
      ∃ P, v.entered.store.Scoped P ∧
        ∀ n, v.left.store.Knows P n → w.entered.store.Knows (fun _ => True) n := by
    intro i v hi hv
    obtain ⟨i', v', hii, hij, -⟩ := hl.lt_of_mem_path h.visit h.path hi
    obtain rfl : i = i' := by omega
    refine ⟨_, (hl.valid i v hv).scope, fun n hn => ⟨trivial, ?_⟩⟩
    exact Nat.lt_of_lt_of_le hn.2 (hl.ordered i j v w hij hv h.visit).length_le
  obtain ⟨hpass, hholds⟩ := hl.path_congr h.visit h.path hQ hk
  exact ⟨hpass.mpr h.passable, fun a ha => (hholds a ha).mpr (h.holds a ha)⟩

/-- A model of the entry begins a path at the root. -/
theorem start (hnil : e.searcher.pending = []) (hadm : 0 < e.options.maxUnroll)
    (hm : m.Exact s₀.graph.scope) :
    ∃ m' w, Follows e vs m' [] 0 w ∧ w.frame.unnumbered = firstFrame e s₀ ∧
      s₀.Keeps (fun _ => True) m m' := by
  have hfirst : e.options.admits (firstFrame e s₀) = true := by
    rw [Options.admits, decide_eq_true_iff]
    exact hadm
  obtain ⟨w, hw⟩ := hl.exists_first hnil hfirst
  obtain ⟨m', hkeeps, hexact⟩ := hm.exists_extends (fun _ _ => (hl.based 0 w hw).declares)
    (hl.valid 0 w hw).scope.tidy
  exact ⟨m', w, ⟨hw, hl.path_root hw, hexact, hl.passable_root hw, by simp⟩, hl.first_of_zero hw,
    hkeeps⟩

/-- What a model makes true when a visit is left is what it makes true in the end. -/
theorem holds_left (h : Follows e vs m ns j w) (hr : w.left.store.Realized P m' j) :
    e.graph.Holds m' j := by
  obtain ⟨n, n', hn, hn', hexprs, -⟩ := hl.node h.visit
  intro n₁ hn₁ a ha
  rw [hn] at hn₁
  cases hn₁
  rw [hexprs] at ha
  exact hr.holds n' hn' a ha

/-- A model that realizes what the visit leaves and makes the guard of a frame true goes on with
this frame. -/
theorem step (h : Follows e vs m ns j w) (hnil : e.searcher.pending = [])
    (hk : w.entered.store.Keeps (fun _ => True) m m')
    (hr : w.left.store.Realized (fun _ => True) m' j) {f : Frame} (hf : f ∈ w.next)
    (hadm : e.options.admits f = true) (hg : ∀ c, f.guard = some c → m'.Satisfies c) :
    ∃ m'' k u, Follows e vs m'' (ns ++ [(j : Int)]) k u ∧ u.frame.unnumbered = f ∧
      w.left.store.Keeps (fun _ => True) m' m'' := by
  obtain ⟨k, u, hu, rfl, hpar⟩ := hl.exists_visit hnil h.visit hf hadm
  obtain ⟨j', hjj, hjk⟩ := hl.parents k u j hu hpar
  have hlt : j < k := by omega
  have hext : w.left.store.graph.Extends u.entered.store.graph :=
    (Graph.Extends.close (Int.natCast_nonneg j)).trans (hl.ordered j k w u hlt h.visit hu)
  obtain ⟨m'', hkeeps, hexact⟩ := hr.exact.exists_extends (fun _ _ => hext.declares)
    (hl.valid k u hu).scope.tidy
  have hscope := (hl.valid j w h.visit).scope
  obtain ⟨n, -, -, hev, -⟩ := (hl.valid j w h.visit).evolves hscope
  obtain ⟨hpass, hholds⟩ := h.kept hl (hk.trans hev hkeeps)
  refine ⟨m'', k, u, ⟨hu, hl.path_step h.path hu hpar, hexact, ?_, ?_⟩, rfl, hkeeps⟩
  · refine (hl.passable_step h.path hu hpar).mpr ⟨hpass, ?_⟩
    exact (hl.guard_congr h.visit hscope hkeeps hf).mpr hg
  · intro a ha
    rcases List.mem_append.mp ha with ha | ha
    · exact hholds a ha
    · rw [List.mem_singleton.mp ha]
      exact (hl.holds_congr h.visit hscope hkeeps).mpr (h.holds_left hl hr)

/-- In the end the model can be continued to all names. -/
theorem complete (h : Follows e vs m ns j w) {s : Store}
    (hk : w.entered.store.Keeps (fun _ => True) m m') (hs : s.graph.Extends e.graph)
    (hle : w.entered.store.graph.decls.length ≤ s.graph.decls.length)
    (hm : m'.Exact s.graph.scope) :
    ∃ m'', s.Keeps (fun _ => True) m' m'' ∧ m''.Exact e.graph.scope ∧
      e.graph.Passable m'' j ∧ ∀ a ∈ ns, e.graph.Holds m'' a := by
  obtain ⟨m'', hkeeps, hexact⟩ := hm.exists_extends (fun _ _ => hs.declares) hl.tidy
  refine ⟨m'', hkeeps, hexact, h.kept hl fun n hn => ?_⟩
  rw [hkeeps n ⟨trivial, Nat.lt_of_lt_of_le hn.2 hle⟩, hk n hn]

end Follows
end Explorer
end NullPath
