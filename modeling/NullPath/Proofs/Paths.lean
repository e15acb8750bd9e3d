import NullPath.Proofs.Visits

/-!
# Paths of an explored graph

The graph of an exploration is a tree, and its edges lead from the node of a visit to the nodes of
the visits that it handed frames to.  So a path from the root to a node retraces how the frame of
this node came about: which blocks it went through, and under which guards.

* `Explorer.Logged.isTree`: the graph of an exploration is a tree.
* `Explorer.Logged.passable_step`: the path constraint of a node adds its guard to that of its
  parent.
* `Explorer.route`, `Options.Bounds`: the blocks on a path, and the bound on how often each of them
  is executed.
-/

namespace NullPath

namespace Graph

variable {g : Graph} {m : Model} {r a b : Int} {ns : List Int}

/-- A path along edges from the root to a node.  The list holds the nodes before the last one. -/
inductive PathTo (g : Graph) (r : Int) : List Int → Int → Prop
  | root {n : Node} : g.node? r = some n → PathTo g r [] r
  | step {ns : List Int} {a b : Int} : PathTo g r ns a → g.Links a b → PathTo g r (ns ++ [a]) b

/-- The model makes the path constraint of a node true. -/
def Passable (g : Graph) (m : Model) (a : Int) : Prop :=
  ∃ π, g.pathConstraint a = .ok π ∧ m.Satisfies π

/-- The model makes the assertions of a node true. -/
def Holds (g : Graph) (m : Model) (a : Int) : Prop :=
  ∀ n, g.node? a = some n → ∀ e ∈ n.exprs, m.Satisfies e

theorem PathTo.exists_trail (h : g.PathTo r ns a) : ∃ gs k, g.Trail r a gs k := by
  induction h with
  | root _ => exact ⟨[], 0, .nil r⟩
  | step _ hl ih =>
    obtain ⟨gs, k, ht⟩ := ih
    obtain ⟨n, ed, hn, hed, rfl⟩ := hl
    exact ⟨_, _, ht.append (.cons hn hed (.nil _))⟩

theorem PathTo.reaches (h : g.PathTo r ns a) : g.Reaches r a := by
  obtain ⟨gs, k, ht⟩ := h.exists_trail
  exact ht.reaches

/-- Every node on the way is reached by an initial part of the path. -/
theorem PathTo.of_mem (h : g.PathTo r ns a) (hb : b ∈ ns) : ∃ ns', g.PathTo r ns' b := by
  induction h with
  | root _ => cases hb
  | @step ns a _ hp _ ih =>
    rcases List.mem_append.mp hb with hb | hb
    · exact ih hb
    · rw [List.mem_singleton.mp hb]
      exact ⟨ns, hp⟩

theorem passable_iff {n : Node} (hn : g.node? a = some n) :
    g.Passable m a ↔ ∀ c ∈ g.guards a, m.Satisfies c := by
  unfold Passable
  rw [pathConstraint_eq_ok hn]
  simp [Model.satisfies_conj]

end Graph

/-! ## What a visit left in the graph -/

namespace Visit.Valid

variable {options : Options} {program : Program} {i : Nat} {v : Visit}

/-- A visit grows the graph by the assertions that its node has in the end. -/
theorem evolves (hv : v.Valid options program i) {P : Name → Prop}
    (hP : v.entered.store.Scoped P) :
    ∃ n, v.left.store.graph.node? i = some n ∧ n.into = v.frame.links ∧
      v.entered.store.Evolves P i n.exprs v.left.store ∧
      ((∀ st ∈ v.block.statements, st.DivisionFree) → ∀ e ∈ n.exprs, e.DivisionFree) ∧
      ∀ f ∈ v.next, v.frame.visit.GoesOn P i v.left.store.graph f := by
  obtain ⟨es, hev, hdiv, hgoes⟩ := Machine.block_evolves hP hv.run
  have hi : (0 : Int) ≤ i := Int.natCast_nonneg i
  have hnode : v.left.store.graph.node? i = some { exprs := es, into := v.frame.links } := by
    have hold := hv.node
    rw [Graph.node?_of_nonneg hi] at hold ⊢
    rw [hev.grows.nodes, Visit.env, List.getElem?_modify, hold]
    simp
  exact ⟨_, hnode, rfl, hev, hdiv, hgoes⟩

theorem extends_graph (hv : v.Valid options program i) :
    v.entered.store.graph.Extends (v.graph i) := by
  obtain ⟨n, -, -, hev, -, -⟩ := hv.evolves hv.scope
  have hi : (0 : Int) ≤ i := Int.natCast_nonneg i
  refine (Graph.Extends.of_grows hev.grows hi fun n hn => ?_).trans (.close hi)
  rw [hv.node] at hn
  cases hn
  rfl

end Visit.Valid

/-- Where a node of an exploration was executed: the block, and the number of calls that it is
inside of.  The nodes are the executed frames in order. -/
def Explorer.placeOf (frames : List Frame) (a : Int) : Option (Location × Nat) :=
  (nth? frames a).map fun f => (f.location, f.depth)

theorem Explorer.placeOf_natCast {frames : List Frame} {i : Nat} {f : Frame}
    (h : frames[i]? = some f) : placeOf frames i = some (f.location, f.depth) := by
  rw [placeOf, nth?, if_neg (by omega), Int.toNat_natCast, h]
  rfl

/-- The places at which the nodes of a path were executed. -/
def Explorer.route (frames : List Frame) (ns : List Int) : List (Location × Nat) :=
  ns.filterMap (placeOf frames)

/-- A switch has no target twice. -/
def Terminator.TargetsApart : Terminator → Prop
  | .switch _ _ targets _ => targets.Nodup
  | _ => True

theorem Terminator.TargetsApart.nodup {t : Terminator} (h : t.TargetsApart) : t.targets.Nodup := by
  cases t with
  | switch x values targets span => exact h
  | call callee args dest next span => cases dest <;> simp [targets]
  | _ => simp [targets]

/-- No block is executed more often than the options allow. -/
def Options.Bounds (options : Options) (ls : List (Location × Nat)) : Prop :=
  ∀ ls₁ l ls₂, ls = ls₁ ++ l :: ls₂ → ((ls₁.map Prod.fst).count l.1 : Int) < options.maxUnroll

theorem Options.Bounds.of_append {options : Options} {ls ls' : List (Location × Nat)}
    (h : options.Bounds (ls ++ ls')) : options.Bounds ls := by
  rintro ls₁ l ls₂ rfl
  exact h ls₁ l (ls₂ ++ ls') (by simp)

namespace Explorer.Logged

variable {s₀ : Store} {e : Explorer} {vs : List Visit} {i j : Nat} {v w : Visit} {m : Model}

section
variable (hl : Logged s₀ e vs)
include hl

/-- The node of a visit, as the exploration leaves it. -/
theorem node (hv : vs[i]? = some v) :
    ∃ n n', e.graph.node? i = some n ∧ v.left.store.graph.node? i = some n' ∧
      n.exprs = n'.exprs ∧ n.into = v.frame.links := by
  have hvalid := hl.valid i v hv
  obtain ⟨n', hn', hinto, -⟩ := hvalid.evolves hvalid.scope
  have hclosed : (v.graph i).node? i = some { n' with closed := true } := by
    rw [Visit.graph, Graph.node?_modifyNode (Int.natCast_nonneg i), if_pos rfl, hn']
    rfl
  obtain ⟨n, hn, hext⟩ := (hl.final i v hv).nodes i _ hclosed
  exact ⟨n, n', hn, hn', (hext.closed rfl).2, hext.into.trans hinto⟩

/-- The nodes are the visits. -/
theorem exists_of_node {a : Int} {n : Node} (hn : e.graph.node? a = some n) :
    ∃ (i : Nat) (v : Visit), a = i ∧ vs[i]? = some v ∧ n.into = v.frame.links := by
  have h₀ := Graph.nonneg_of_node? hn
  have hlt := Graph.lt_length_of_node? hn
  rw [hl.size] at hlt
  obtain ⟨i, rfl⟩ := Int.eq_ofNat_of_zero_le h₀
  have hi : vs[i]? = some vs[i] := List.getElem?_eq_getElem hlt
  obtain ⟨n', -, hn', -, -, hinto⟩ := hl.node hi
  have heq : n = n' := Option.mem_unique hn hn'
  exact ⟨i, vs[i], rfl, hi, by rw [heq, hinto]⟩

/-- Only the first visit has no parent. -/
theorem eq_zero_of_parent_none (hv : vs[i]? = some v) (hp : v.frame.parent = none) : i = 0 := by
  cases i with
  | zero => rfl
  | succ i =>
    cases vs with
    | nil => cases hv
    | cons u vs =>
      have hmem : v ∈ vs := List.mem_of_getElem? hv
      exact absurd hp (hl.parent_ne_none (List.mem_append_left _ (List.mem_map_of_mem hmem)))

theorem isTree (hne : vs ≠ []) : e.graph.IsTree e.root := by
  rw [hl.root hne]
  obtain ⟨v, hv⟩ : ∃ v, vs[0]? = some v :=
    ⟨_, List.getElem?_eq_getElem (List.length_pos_iff.mpr hne)⟩
  obtain ⟨n, -, hn, -, -, hinto⟩ := hl.node hv
  refine .of_forall hn (by rw [hinto, Frame.links, hl.parent_zero hv]) fun i n' hn' hi => ?_
  rw [← Graph.node?_natCast] at hn'
  obtain ⟨k, w, hk, hw, hinto'⟩ := hl.exists_of_node hn'
  obtain rfl : i = k := by exact_mod_cast hk
  cases hp : w.frame.parent with
  | none => exact absurd (hl.eq_zero_of_parent_none hw hp) (by exact_mod_cast hi)
  | some p =>
    rw [hinto', Frame.links, hp]
    rfl

/-- Edges lead from a visit to those that it handed frames to, under their guards. -/
theorem edge_iff (hw : vs[j]? = some w) {a : Int} {c : Option Expr} :
    (∃ n, e.graph.node? a = some n ∧ ⟨c, j⟩ ∈ n.out) ↔
      w.frame.parent = some a ∧ w.frame.guard = c := by
  constructor
  · rintro ⟨n, hn, hmem⟩
    obtain ⟨n', hn', hinto⟩ := hl.mirrored a n ⟨c, j⟩ hn hmem
    obtain ⟨n₁, -, hn₁, -, -, hlinks⟩ := hl.node hw
    have heq : n' = n₁ := Option.mem_unique hn' hn₁
    rw [heq, hlinks, Frame.links] at hinto
    cases hp : w.frame.parent with
    | none => rw [hp] at hinto; cases hinto
    | some p =>
      rw [hp] at hinto
      have := List.mem_singleton.mp hinto
      cases this
      exact ⟨rfl, rfl⟩
  · rintro ⟨hp, rfl⟩
    have hvalid := hl.valid j w hw
    obtain ⟨n, hn, hmem⟩ := hvalid.edge a hp
    obtain ⟨n', hn', hext⟩ := (hvalid.extends_graph.trans (hl.final j w hw)).nodes a n hn
    exact ⟨n', hn', hext.out hmem⟩

theorem links_iff (hw : vs[j]? = some w) {a : Int} :
    e.graph.Links a j ↔ w.frame.parent = some a := by
  constructor
  · rintro ⟨n, ed, hn, hmem, htarget⟩
    have hed : ed = ⟨ed.guard, j⟩ := by rw [← htarget]
    rw [hed] at hmem
    exact ((hl.edge_iff hw).mp ⟨n, hn, hmem⟩).1
  · intro hp
    obtain ⟨n, hn, hmem⟩ := (hl.edge_iff hw).mpr ⟨hp, rfl⟩
    exact ⟨n, _, hn, hmem, rfl⟩

end

/-! ## Paths and visits -/

variable {ns : List Int} {a : Int} {f : Frame} {ls : List (Location × Nat)}

section

variable (hl : Logged s₀ e vs)
include hl

theorem visit_of_path (hp : e.graph.PathTo e.root ns a) :
    ∃ (j : Nat) (w : Visit), a = j ∧ vs[j]? = some w := by
  have hnode : ∃ n, e.graph.node? a = some n := by
    cases hp with
    | root hn => exact ⟨_, hn⟩
    | step _ hlinks =>
      obtain ⟨n, ed, hn, hmem, rfl⟩ := hlinks
      obtain ⟨n', hn', -⟩ := hl.mirrored _ n ed hn hmem
      exact ⟨n', hn'⟩
  obtain ⟨n, hn⟩ := hnode
  obtain ⟨j, w, rfl, hw, -⟩ := hl.exists_of_node hn
  exact ⟨j, w, rfl, hw⟩

theorem path_root (hw : vs[0]? = some w) : e.graph.PathTo e.root [] 0 := by
  obtain ⟨n, -, hn, -⟩ := hl.node hw
  have hroot : e.root = 0 := hl.root (List.ne_nil_of_mem (List.mem_of_getElem? hw))
  have hn₀ : e.graph.node? e.root = some n := by rw [hroot]; exact hn
  have := Graph.PathTo.root hn₀
  rwa [hroot] at this ⊢

theorem path_step (hp : e.graph.PathTo e.root ns a) (hw : vs[j]? = some w)
    (hpar : w.frame.parent = some a) : e.graph.PathTo e.root (ns ++ [a]) j :=
  .step hp ((hl.links_iff hw).mpr hpar)

/-- A path that ends at a visit ends at the first one, or comes from its parent. -/
theorem path_cases (hw : vs[j]? = some w) (hp : e.graph.PathTo e.root ns j) :
    (ns = [] ∧ j = 0) ∨ ∃ ns' a, ns = ns' ++ [a] ∧ e.graph.PathTo e.root ns' a ∧
      w.frame.parent = some a := by
  generalize hb : (j : Int) = b at hp
  cases hp with
  | root hn =>
    have hroot : e.root = 0 := hl.root (List.ne_nil_of_mem (List.mem_of_getElem? hw))
    exact .inl ⟨rfl, by omega⟩
  | step hp' hlinks =>
    subst hb
    exact .inr ⟨_, _, rfl, hp', (hl.links_iff hw).mp hlinks⟩

theorem path_nil (hw : vs[j]? = some w) (hp : e.graph.PathTo e.root [] j) : j = 0 := by
  rcases hl.path_cases hw hp with ⟨-, rfl⟩ | ⟨_, _, h, -⟩
  · rfl
  · simp at h

/-- Every visit is reached by a path. -/
theorem exists_path (hw : vs[j]? = some w) : ∃ ns, e.graph.PathTo e.root ns j := by
  induction j using Nat.strong_induction_on generalizing w with
  | _ j ih =>
    cases hp : w.frame.parent with
    | none =>
      obtain rfl := hl.eq_zero_of_parent_none hw hp
      exact ⟨[], hl.path_root hw⟩
    | some p =>
      obtain ⟨i, rfl, hij⟩ := hl.parents j w p hw hp
      have hlt := lt_length_of_getElem? hw
      obtain ⟨ns, hns⟩ := ih i hij (List.getElem?_eq_getElem (by omega))
      exact ⟨_, hl.path_step hns hw hp⟩

/-- The path constraint of the root is always true. -/
theorem passable_root (hw : vs[0]? = some w) : e.graph.Passable m 0 := by
  have hne : vs ≠ [] := List.ne_nil_of_mem (List.mem_of_getElem? hw)
  obtain ⟨n, -, hn, -⟩ := hl.node hw
  have hguards := (hl.isTree hne).guards_of_trail hl.mirrored (.nil e.root)
  rw [hl.root hne] at hguards
  refine (Graph.passable_iff hn).mpr ?_
  have : e.graph.guards (0 : Nat) = [] := hguards
  rw [this]
  simp

/-- The path constraint of a node is true exactly if that of its parent is, and its guard. -/
theorem passable_step (hp : e.graph.PathTo e.root ns a) (hw : vs[j]? = some w)
    (hpar : w.frame.parent = some a) :
    e.graph.Passable m j ↔ e.graph.Passable m a ∧ ∀ c, w.frame.guard = some c → m.Satisfies c := by
  have hne : vs ≠ [] := List.ne_nil_of_mem (List.mem_of_getElem? hw)
  obtain ⟨gs, k, htrail⟩ := hp.exists_trail
  obtain ⟨n, hn, hmem⟩ := (hl.edge_iff hw).mpr ⟨hpar, rfl⟩
  obtain ⟨n', -, hn', -⟩ := hl.node hw
  have htree := hl.isTree hne
  have hga := htree.guards_of_trail hl.mirrored htrail
  have hgj := htree.guards_of_trail hl.mirrored (htrail.append (.cons hn hmem (.nil _)))
  rw [Graph.passable_iff hn, Graph.passable_iff hn', hga, hgj]
  simp only [List.append_nil, List.mem_append, Option.mem_toList]
  constructor
  · exact fun h => ⟨fun c hc => h c (.inl hc), fun c hc => h c (.inr hc)⟩
  · rintro ⟨h₁, h₂⟩ c (hc | hc)
    · exact h₁ c hc
    · exact h₂ c hc

/-- The first visit executes the first frame. -/
theorem first_of_zero (hw : vs[0]? = some w) : w.frame.unnumbered = firstFrame e s₀ := by
  obtain ⟨-, hfirst | ⟨i, v, -, -, hp⟩⟩ := hl.origin
    (List.mem_append_left _ (List.mem_map_of_mem
      (List.mem_of_getElem? hw)))
  · exact hfirst
  · rw [hl.parent_zero hw] at hp
    cases hp

/-- Every other visit executes a frame that its parent handed on. -/
theorem handed_on (hw : vs[j]? = some w) (hp : w.frame.parent = some a) :
    ∃ (i : Nat) (v : Visit), a = i ∧ i < j ∧ vs[i]? = some v ∧ w.frame.unnumbered ∈ v.next := by
  obtain ⟨-, hfirst | ⟨i, v, hv, hmem, hpi⟩⟩ := hl.origin
    (List.mem_append_left _ (List.mem_map_of_mem
      (List.mem_of_getElem? hw)))
  · have : w.frame.parent = none := congrArg Frame.parent hfirst
    rw [this] at hp
    cases hp
  · rw [hp] at hpi
    cases hpi
    obtain ⟨i', hi', hlt⟩ := hl.parents j w _ hw hp
    exact ⟨i, v, rfl, by omega, hv, hmem⟩

/-- The node before a visit on its path is the one that handed its frame on. -/
theorem path_snoc (hw : vs[j]? = some w) (hp : e.graph.PathTo e.root (ns ++ [a]) j) :
    ∃ (i : Nat) (v : Visit), a = i ∧ i < j ∧ vs[i]? = some v ∧ e.graph.PathTo e.root ns i ∧
      w.frame.parent = some (i : Int) ∧ w.frame.unnumbered ∈ v.next := by
  rcases hl.path_cases hw hp with ⟨h, -⟩ | ⟨ns', a', h, hp', hpar⟩
  · simp at h
  · obtain ⟨rfl, h₁⟩ := List.append_inj' h rfl
    obtain rfl : a = a' := by simpa using h₁
    obtain ⟨i, v, rfl, hij, hv, hmem⟩ := hl.handed_on hw hpar
    exact ⟨i, v, rfl, hij, hv, hp', hpar, hmem⟩

theorem admits_frame (hw : vs[j]? = some w) : e.options.admits w.frame = true :=
  (hl.origin (List.mem_append_left _ (List.mem_map_of_mem
    (List.mem_of_getElem? hw)))).1

/-- When nothing waits, every frame that was handed on and may go on has been visited. -/
theorem exists_visit (hnil : e.searcher.pending = []) (hv : vs[i]? = some v) (hf : f ∈ v.next)
    (hadm : e.options.admits f = true) :
    ∃ (j : Nat) (w : Visit), vs[j]? = some w ∧ w.frame.unnumbered = f ∧
      w.frame.parent = some i := by
  have hvalid := hl.valid i v hv
  obtain ⟨n, -, -, -, -, hgoes⟩ := hvalid.evolves hvalid.scope
  have hmem : f ∈ vs.map fun v => v.frame.unnumbered := by
    have hperm := hl.frames
    rw [hnil, List.map_nil, List.append_nil] at hperm
    refine hperm.mem_iff.mpr (List.mem_append_right _ (List.mem_flatMap.mpr ⟨v, ?_, ?_⟩))
    · exact List.mem_of_getElem? hv
    · exact List.mem_filter.mpr ⟨hf, hadm⟩
  obtain ⟨w, hw, rfl⟩ := List.mem_map.mp hmem
  obtain ⟨j, hj⟩ := List.mem_iff_getElem?.mp hw
  exact ⟨j, w, hj, rfl, (hgoes _ hf).parent⟩

theorem exists_first (hnil : e.searcher.pending = [])
    (hadm : e.options.admits (firstFrame e s₀) = true) : ∃ w, vs[0]? = some w := by
  have hperm := hl.frames
  rw [hnil, List.map_nil, List.append_nil, List.filter_cons_of_pos hadm] at hperm
  have hmem : firstFrame e s₀ ∈ vs.map fun v => v.frame.unnumbered :=
    hperm.mem_iff.mpr (List.mem_append_left _ List.mem_cons_self)
  obtain ⟨w, hw, -⟩ := List.mem_map.mp hmem
  exact ⟨_, List.getElem?_eq_getElem (List.length_pos_iff.mpr (List.ne_nil_of_mem hw))⟩

/-- The code of every visit is the entry or a function of the program. -/
theorem forall_functions {Q : Function → Prop} (hentry : Q e.entry)
    (hprog : ∀ g ∈ e.program.functions, Q g) (hw : vs[j]? = some w) :
    Q w.frame.function ∧ ∀ c ∈ w.frame.callers, Q c.function := by
  induction j using Nat.strong_induction_on generalizing w with
  | _ j ih =>
    cases hp : w.frame.parent with
    | none =>
      obtain rfl := hl.eq_zero_of_parent_none hw hp
      have hfirst := hl.first_of_zero hw
      have hfun : w.frame.function = e.entry := congrArg Frame.function hfirst
      have hcallers : w.frame.callers = [] := congrArg Frame.callers hfirst
      rw [hfun, hcallers]
      exact ⟨hentry, by simp⟩
    | some p =>
      obtain ⟨i, v, rfl, hij, hv, hmem⟩ := hl.handed_on hw hp
      obtain ⟨hQ, hcallers⟩ := ih i hij hv
      have hnext := (hl.valid i v hv).succeeds hmem
      rcases hnext.stack with ⟨h₁, h₂⟩ | ⟨h₁, -, -, c, h₂, h₃⟩ | ⟨c, h₁, h₂⟩
      · have hfun : w.frame.function = v.frame.function := h₁
        have hcs : w.frame.callers = v.frame.callers := h₂
        rw [hfun, hcs]
        exact ⟨hQ, hcallers⟩
      · have hcs : w.frame.callers = c :: v.frame.callers := h₃
        have hc : c.function = v.frame.function := h₂
        rw [hcs, List.forall_mem_cons, hc]
        exact ⟨hprog _ h₁, hQ, hcallers⟩
      · have hcs : v.frame.callers = c :: w.frame.callers := h₂
        have hfun : w.frame.function = c.function := h₁
        rw [hcs, List.forall_mem_cons] at hcallers
        rw [hfun]
        exact hcallers

end

/-! ## The blocks on a path -/

theorem placeOf_eq (hw : vs[j]? = some w) :
    placeOf (vs.map Visit.finished) j = some (w.frame.location, w.frame.depth) :=
  placeOf_natCast (f := w.finished) (by rw [List.getElem?_map, hw]; rfl)

section
variable (hl : Logged s₀ e vs)
include hl

/-- The path that a frame has gone is the path to its node. -/
theorem path_eq (hw : vs[j]? = some w) (hp : e.graph.PathTo e.root ns j)
    (hls : ns.map (placeOf (vs.map Visit.finished)) = ls.map some) :
    w.frame.path = (ls.map Prod.fst).reverse := by
  induction ls using List.reverseRecOn generalizing ns j w with
  | nil =>
    obtain rfl : ns = [] := by simpa using hls
    obtain rfl := hl.path_nil hw hp
    exact congrArg Frame.path (hl.first_of_zero hw)
  | append_singleton ls l ih =>
    rcases hl.path_cases hw hp with ⟨rfl, -⟩ | ⟨ns', a, rfl, hp', hpar⟩
    · simp at hls
    · obtain ⟨i, v, rfl, -, hv, hmem⟩ := hl.handed_on hw hpar
      rw [List.map_append, List.map_append, List.map_singleton, List.map_singleton] at hls
      obtain ⟨hls', hlast⟩ := List.append_inj' hls rfl
      rw [placeOf_eq hv] at hlast
      have hvalid := hl.valid i v hv
      obtain ⟨n, -, -, -, -, hgoes⟩ := hvalid.evolves hvalid.scope
      have hpath : w.frame.path = v.frame.location :: v.frame.path := (hgoes _ hmem).path
      have hl₀ : l.1 = v.frame.location := by
        simp only [List.cons.injEq, Option.some.injEq, and_true] at hlast
        rw [← hlast]
      rw [hpath, ih hv hp' hls', List.map_append, List.reverse_append, List.map_singleton, hl₀]
      rfl

/-- The nodes on the way to a visit are visits. -/
theorem visit_of_mem (hp : e.graph.PathTo e.root ns a) {b : Int} (hb : b ∈ ns ++ [a]) :
    ∃ (j : Nat) (w : Visit), b = j ∧ vs[j]? = some w := by
  rcases List.mem_append.mp hb with hb | hb
  · obtain ⟨ns', hp'⟩ := hp.of_mem hb
    exact hl.visit_of_path hp'
  · rw [List.mem_singleton.mp hb]
    exact hl.visit_of_path hp

/-- Every node of a path has a place. -/
theorem map_placeOf (hp : e.graph.PathTo e.root ns a) :
    (ns ++ [a]).map (placeOf (vs.map Visit.finished)) =
      (route (vs.map Visit.finished) (ns ++ [a])).map some := by
  have hall : ∀ b ∈ ns ++ [a], ∃ l, placeOf (vs.map Visit.finished) b = some l := by
    intro b hb
    obtain ⟨j, w, rfl, hw⟩ := hl.visit_of_mem hp hb
    exact ⟨_, placeOf_eq hw⟩
  generalize ns ++ [a] = bs at hall
  induction bs with
  | nil => rfl
  | cons b bs ih =>
    rw [List.forall_mem_cons] at hall
    obtain ⟨⟨l, hl⟩, hrest⟩ := hall
    rw [List.map_cons, route, List.filterMap_cons, hl, List.map_cons, ih hrest]
    rfl

/-- A frame that a visit hands on may go on if its block was not executed too often. -/
theorem admits_next (hw : vs[j]? = some w) (hp : e.graph.PathTo e.root ns j)
    (hls : ns.map (placeOf (vs.map Visit.finished)) = ls.map some) (hf : f ∈ w.next) :
    e.options.admits f = true ↔
      (((ls ++ [(w.frame.location, w.frame.depth)]).map Prod.fst).count f.location : Int) <
        e.options.maxUnroll := by
  have hvalid := hl.valid j w hw
  obtain ⟨n, -, -, -, -, hgoes⟩ := hvalid.evolves hvalid.scope
  have hpath : f.path = w.frame.location :: w.frame.path := (hgoes f hf).path
  have hrev : f.path = ((ls ++ [(w.frame.location, w.frame.depth)]).map Prod.fst).reverse := by
    rw [hpath, hl.path_eq hw hp hls, List.map_append, List.reverse_append, List.map_singleton]
    rfl
  rw [Options.admits, Frame.seen, hrev, List.count_reverse, decide_eq_true_iff]

/-- The paths of the graph keep to the bound. -/
theorem bounds_path (hw : vs[j]? = some w) (hp : e.graph.PathTo e.root ns j)
    (hls : (ns ++ [(j : Int)]).map (placeOf (vs.map Visit.finished)) = ls.map some) :
    e.options.Bounds ls := by
  induction ls using List.reverseRecOn generalizing ns j w with
  | nil => simp at hls
  | append_singleton ls l ih =>
    rw [List.map_append, List.map_append, List.map_singleton, List.map_singleton] at hls
    obtain ⟨hls', hlast⟩ := List.append_inj' hls rfl
    have hl₀ : l = (w.frame.location, w.frame.depth) := by
      rw [placeOf_eq hw] at hlast
      simpa using hlast.symm
    intro ls₁ l₁ ls₂ heq
    rcases List.eq_nil_or_concat ls₂ with rfl | ⟨ls₃, l₃, rfl⟩
    · -- the last place of the path is the block of a frame that was admitted
      obtain ⟨rfl, h₁⟩ := List.append_inj' heq rfl
      obtain rfl : l = l₁ := by simpa using h₁
      have hadm := hl.admits_frame hw
      rw [Options.admits, Frame.seen, hl.path_eq hw hp hls', List.count_reverse,
        decide_eq_true_iff] at hadm
      rwa [hl₀]
    · rw [List.concat_eq_append, ← List.cons_append, ← List.append_assoc] at heq
      obtain ⟨hinit, -⟩ := List.append_inj' heq rfl
      rcases hl.path_cases hw hp with ⟨rfl, -⟩ | ⟨ns', a, rfl, hp', hpar⟩
      · obtain rfl : ls = [] := by simpa using hls'.symm
        simp at hinit
      · obtain ⟨i, v, rfl, -, hv, -⟩ := hl.handed_on hw hpar
        exact ih hv hp' hls' ls₁ l₁ ls₃ hinit

end

end Explorer.Logged
end NullPath
