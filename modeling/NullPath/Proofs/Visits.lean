import NullPath.Proofs.Steps

/-!
# The log of an exploration

A successful exploration is a list of visits.  Each visit executed the block of one frame, and the
node with its number holds what this execution recorded.  The frames of the visits are, up to
order, the first frame and the frames that earlier visits handed on, as far as the unroll bound
let them pass.  Nothing else ever happens to the graph, so what one visit recorded can be read
off the final graph.

* `Visit`, `Visit.Valid`: one execution of a block.
* `Explorer.exists_log`: every successful exploration has a log in which nothing waits any more.
-/

namespace NullPath

/-! ## Later states of a graph -/

/-- A node in a later state.  It has the predecessor it had, and if it was closed, its assertions
are final. -/
structure Node.Extends (n n' : Node) : Prop where
  into : n'.into = n.into
  out : n.out ⊆ n'.out
  closed : n.closed = true → n'.closed = true ∧ n'.exprs = n.exprs

theorem Node.Extends.refl {n : Node} : n.Extends n :=
  ⟨rfl, List.Subset.refl _, fun h => ⟨h, rfl⟩⟩

theorem Node.Extends.trans {n n' n'' : Node} (h : n.Extends n') (h' : n'.Extends n'') :
    n.Extends n'' := by
  refine ⟨h'.into.trans h.into, List.Subset.trans h.out h'.out, fun hc => ?_⟩
  obtain ⟨hc', he⟩ := h.closed hc
  obtain ⟨hc'', he'⟩ := h'.closed hc'
  exact ⟨hc'', he'.trans he⟩

/-- A declaration in a later state, which may have more tags. -/
structure Declaration.Extends (d d' : Declaration) : Prop where
  name : d'.name = d.name
  sort : d'.sort = d.sort
  origin : d'.origin = d.origin
  derefs : d.derefs ⊆ d'.derefs

theorem Declaration.Extends.trans {d d' d'' : Declaration} (h : d.Extends d')
    (h' : d'.Extends d'') : d.Extends d'' :=
  ⟨h'.name.trans h.name, h'.sort.trans h.sort, h'.origin.trans h.origin,
    List.Subset.trans h.derefs h'.derefs⟩

namespace Graph

variable {i : Int} {es : List Expr} {g g' g'' : Graph}

/-- A later state of a graph. -/
structure Extends (g g' : Graph) : Prop where
  nodes : ∀ i n, g.node? i = some n → ∃ n', g'.node? i = some n' ∧ n.Extends n'
  decls : ∀ (k : Nat) d, g.decls[k]? = some d → ∃ d', g'.decls[k]? = some d' ∧ d.Extends d'

namespace Extends

theorem trans (h : g.Extends g') (h' : g'.Extends g'') : g.Extends g'' := by
  constructor
  · intro i n hn
    obtain ⟨n', hn', he⟩ := h.nodes i n hn
    obtain ⟨n'', hn'', he'⟩ := h'.nodes i n' hn'
    exact ⟨n'', hn'', he.trans he'⟩
  · intro k d hd
    obtain ⟨d', hd', he⟩ := h.decls k d hd
    obtain ⟨d'', hd'', he'⟩ := h'.decls k d' hd'
    exact ⟨d'', hd'', he.trans he'⟩

theorem of_nodes (hd : g'.decls = g.decls)
    (hn : ∀ i n, g.node? i = some n → ∃ n', g'.node? i = some n' ∧ n.Extends n') :
    g.Extends g' := by
  refine ⟨hn, fun k d hk => ⟨d, by rw [hd, hk], rfl, rfl, rfl, List.Subset.refl _⟩⟩

theorem refl {g : Graph} : g.Extends g :=
  of_nodes rfl fun _ n hn => ⟨n, hn, .refl⟩

theorem modifyNode (hi : 0 ≤ i) {f : Node → Node}
    (hf : ∀ n, g.node? i = some n → n.Extends (f n)) : g.Extends (g.modifyNode i f) := by
  refine of_nodes rfl fun j n hn => ?_
  rw [node?_modifyNode hi]
  split
  · next hj =>
    subst hj
    exact ⟨f n, by rw [hn]; rfl, hf n hn⟩
  · exact ⟨n, hn, .refl⟩

theorem close (hi : 0 ≤ i) : g.Extends (g.modifyNode i fun n => { n with closed := true }) :=
  modifyNode hi fun _ _ => ⟨rfl, List.Subset.refl _, fun _ => ⟨rfl, rfl⟩⟩

/-- Building an open node leads to a later state. -/
theorem of_grows (h : Grows i es g g') (hi : 0 ≤ i)
    (hopen : ∀ n, g.node? i = some n → n.closed = false) : g.Extends g' := by
  have hmod : g.Extends (g.modifyNode i fun n => { n with exprs := n.exprs ++ es }) :=
    modifyNode hi fun n hn =>
      ⟨rfl, List.Subset.refl _, fun hc => absurd hc (by simp [hopen n hn])⟩
  constructor
  · intro j n hn
    rw [h.node?]
    exact hmod.nodes j n hn
  · intro k d hd
    obtain ⟨d', hd', hg⟩ := h.decls k d hd
    obtain ⟨ts, hts, -⟩ := hg.derefs
    exact ⟨d', hd', hg.name, hg.sort, hg.origin, by simp [hts]⟩

theorem length_le (h : g.Extends g') : g.decls.length ≤ g'.decls.length := by
  by_contra hlt
  obtain ⟨d', hd', -⟩ := h.decls _ _ (List.getElem?_eq_getElem (Nat.not_le.mp hlt))
  exact absurd (lt_length_of_getElem? hd') (Nat.lt_irrefl _)

theorem declares (h : g.Extends g') {n : Name} {s : ExprSort} (hn : g.Declares n s) :
    g'.Declares n s := by
  obtain ⟨d, hd, rfl⟩ := hn
  obtain ⟨d', hd', he⟩ := h.decls n.index d hd
  exact ⟨d', hd', he.sort⟩

theorem scope_le (h : g.Extends g') (P : Name → Prop) : (g.scope P).Le (g'.scope P) :=
  fun _ _ hn => ⟨hn.1, h.declares hn.2⟩

theorem uses_le (h : g.Extends g') (P : Name → Prop) : (g.uses P).Le (g'.uses P) := by
  rintro n s ⟨hn, d, hd, hs⟩
  obtain ⟨d', hd', he⟩ := h.decls n.index d hd
  exact ⟨hn, d', hd', by rwa [he.sort]⟩

end Extends

theorem Mirrored.grows (hg : g.Mirrored) (h : Grows i es g g') (hi : 0 ≤ i) : g'.Mirrored :=
  (hg.modifyNode hi (f := fun n => { n with exprs := n.exprs ++ es }) (fun _ => rfl)
    (fun _ => rfl)).of_nodes_eq h.nodes

end Graph

/-! ## Visits -/

/-- One execution of a block: the frame that was chosen, its block, the state in which the block
was entered and left, and the frames that were handed on. -/
structure Visit where
  frame : Frame
  block : Block
  entered : Machine
  left : Machine
  next : List Frame

namespace Visit

/-- The environment in which the block was executed, as the node with a number. -/
def env (v : Visit) (i : Nat) : Env :=
  { function := v.frame.function, depth := v.frame.depth, node := i }

/-- The graph right after the visit. -/
def graph (v : Visit) (i : Nat) : Graph :=
  v.left.store.graph.modifyNode i fun n => { n with closed := true }

/-- The frame after the visit, as an exploration lists it. -/
def finished (v : Visit) : Frame :=
  { v.frame.visit with memory := v.left.store.memory }

/-- The visit with a number is an execution of the block of its frame.  It began at a new node
that is linked to the frame's parent. -/
structure Valid (options : Options) (program : Program) (i : Nat) (v : Visit) : Prop where
  block : v.frame.function.block? v.frame.block = some v.block
  memory : v.entered.store.memory = v.frame.memory
  run : Machine.block options program v.frame.visit (v.env i) v.block v.entered =
    (.ok v.next, v.left)
  size : v.entered.store.graph.nodes.length = i + 1
  node : v.entered.store.graph.node? i = some { into := v.frame.links }
  edge : ∀ p, v.frame.parent = some p →
    ∃ n, v.entered.store.graph.node? p = some n ∧ ⟨v.frame.guard, i⟩ ∈ n.out
  scope : v.entered.store.Scoped

theorem Valid.succeeds {options : Options} {program : Program} {i : Nat} {v : Visit} {f : Frame}
    (hv : v.Valid options program i) (hf : f ∈ v.next) : v.frame.visit.Succeeds options program i f :=
  (Machine.block_succeeds hv.run).1 f hf

end Visit

/-! ## The entry of a function -/

namespace Store

/-- A store before the first visit: names may be declared, but there is no node and no tag. -/
structure Bare (s : Store) : Prop where
  scope : s.Scoped
  nodes : s.graph.nodes = []
  derefs : ∀ d ∈ s.graph.decls, d.derefs = []

theorem bare_empty : Bare {} where
  scope := by
    refine ⟨fun k d hd => ?_, fun _ _ => trivial, fun n hn => ?_⟩
    · rw [List.getElem?_nil] at hd
      cases hd
    · cases hn with
      | value h | address h | pointer h | pointee h => cases h
  nodes := rfl
  derefs := by simp

variable {s s' : Store} {env : Env} {i : Int} {n : Name} {sort : ExprSort} {o : Option Origin}

theorem Bare.declare (hs : s.Bare) (hsort : sort = .int ∨ sort = .bool) :
    Bare { s with graph := (s.graph.declare sort o).2 } where
  scope := hs.scope.declare hsort
  nodes := hs.nodes
  derefs := by
    intro d hd
    rcases List.mem_append.mp hd with hd | hd
    · exact hs.derefs d hd
    · rw [List.mem_singleton.mp hd]

theorem Bare.bind (hs : s.Bare) (hn : s.Knows (fun _ => True) n)
    (h : Store.bind env ⟨i, 0⟩ n s = (.ok (), s')) : s'.Bare := by
  have hscope := (hs.scope.bind hn h).scope
  obtain ⟨c, s₁, hc, rfl⟩ := bind_eq_ok.mp h
  obtain ⟨-, -, rfl⟩ := resolveAt_zero_eq_ok.mp hc
  exact ⟨hscope, hs.nodes, hs.derefs⟩

theorem Bare.writeFresh (hs : s.Bare) (h : Store.writeFresh env ⟨i, 0⟩ s = (.ok n, s')) :
    s'.Bare := by
  have hscope := (hs.scope.writeFresh h).1.scope
  obtain ⟨sort, c, s₁, hsort, hc, rfl, rfl⟩ := writeFresh_eq_ok.mp h
  obtain ⟨-, -, rfl⟩ := resolveAt_zero_eq_ok.mp hc
  have hd : Bare (s₁.declared sort) := hs.declare (Function.placeSort_cases hsort)
  exact ⟨hscope, hd.nodes, hd.derefs⟩

end Store

namespace Explorer

variable {s s' : Store} {f : Function} {count i : Nat} {frame : Frame} {g : Graph} {root : Int}

theorem bindParameters_succ_eq_ok (h : bindParameters f (count + 1) i s = (.ok (), s')) :
    ∃ l sort s₁, f.localVar? i = some l ∧ l.type.sort = .ok sort ∧
      Store.bind { function := f } ⟨i, 0⟩ s.nextName
        { s with graph :=
          (s.graph.declare sort (some ⟨f.name, i, parameterLabel l i⟩)).2 } = (.ok (), s₁) ∧
      bindParameters f count (i + 1) s₁ = (.ok (), s') := by
  rw [bindParameters] at h
  cases hl : f.localVar? i with
  | none =>
    rw [hl] at h
    exact absurd h Action.error_ne_ok
  | some l =>
    rw [hl] at h
    obtain ⟨sort, s₁, hw, h₁⟩ := Action.bind_eq_ok.mp h
    obtain ⟨hsort, rfl⟩ := Action.lift_eq_ok.mp (Action.within_eq_ok.mp hw)
    obtain ⟨n, s₂, hd, h₂⟩ := Action.bind_eq_ok.mp h₁
    obtain ⟨rfl, rfl⟩ := Store.declare_eq_ok.mp hd
    obtain ⟨_, s₃, hb, h₃⟩ := Action.bind_eq_ok.mp h₂
    exact ⟨l, sort, s₃, rfl, hsort, hb, h₃⟩

theorem bindParameters_bare (hs : s.Bare) (h : bindParameters f count i s = (.ok (), s')) :
    s'.Bare := by
  induction count generalizing s i with
  | zero =>
    cases h
    exact hs
  | succ count ih =>
    obtain ⟨l, sort, s₁, -, hsort, hb, h₁⟩ := bindParameters_succ_eq_ok h
    have hd := hs.declare (o := some ⟨f.name, i, parameterLabel l i⟩) (Ty.sort_cases hsort)
    exact ih (hd.bind hs.scope.knows_nextName hb) h₁

/-- Entering a function gives the result slot a new name, if its type has a sort, and binds the
parameters. -/
theorem enterFunction_eq_ok (h : enterFunction f s = (.ok (), s')) :
    ∃ result rest s₁, f.locals = result :: rest ∧ f.blocks.isEmpty = false ∧
      (((∃ err, result.type.sort = .error err) ∧ s₁ = s) ∨
        ((∃ sort, result.type.sort = .ok sort) ∧
          ∃ n, Store.writeFresh { function := f } ⟨0, 0⟩ s = (.ok n, s₁))) ∧
      bindParameters f f.argCount.toNat 1 s₁ = (.ok (), s') := by
  unfold enterFunction at h
  cases hl : f.locals with
  | nil =>
    rw [hl] at h
    exact absurd h Action.error_ne_ok
  | cons result rest =>
    rw [hl] at h
    cases hb : f.blocks.isEmpty with
    | true =>
      simp only [hb, if_true] at h
      exact absurd h Action.error_ne_ok
    | false =>
      simp only [hb, Bool.false_eq_true, if_false] at h
      cases hsort : result.type.sort with
      | error err =>
        simp only [hsort, Except.isOk, Except.toBool, Bool.false_eq_true, if_false] at h
        exact ⟨result, rest, s, rfl, rfl, .inl ⟨⟨err, hsort⟩, rfl⟩, h⟩
      | ok sort =>
        simp only [hsort, Except.isOk, Except.toBool, if_true] at h
        obtain ⟨n, s₁, hn, h₁⟩ := Action.bind_eq_ok.mp h
        exact ⟨result, rest, s₁, rfl, rfl, .inr ⟨⟨sort, hsort⟩, n, Action.within_eq_ok.mp hn⟩, h₁⟩

theorem enterFunction_bare (hs : s.Bare) (h : enterFunction f s = (.ok (), s')) : s'.Bare := by
  obtain ⟨result, rest, s₁, -, -, hresult, hp⟩ := enterFunction_eq_ok h
  refine bindParameters_bare ?_ hp
  rcases hresult with ⟨-, rfl⟩ | ⟨-, n, hn⟩
  · exact hs
  · exact hs.writeFresh hn

/-! ## The log -/

/-- A step of an exploration that executes the block of a frame. -/
inductive MakesVisit (e : Explorer) : Visit → Explorer → Prop
  | mk {frame : Frame} {searcher : Searcher Frame} {b : Block} {g : Graph} {root : Int}
    {m : Machine} {next : List Frame} :
    e.searcher.select = (some frame, searcher) → e.Executes frame b g root (.ok next) m →
      MakesVisit e ⟨frame, b,
        { store := ⟨g, frame.memory⟩, stats := { e.stats with nodes := e.stats.nodes + 1 } }, m, next⟩
        (next.foldl schedule (e.executed searcher root m))

/-- The first frame of an exploration. -/
def firstFrame (e : Explorer) (s₀ : Store) : Frame :=
  { function := e.entry, memory := s₀.memory }

/-- The visits that led from the entry to a state of an exploration. -/
structure Logged (s₀ : Store) (e : Explorer) (vs : List Visit) : Prop where
  entered : enterFunction e.entry {} = (.ok (), s₀)
  started : e.started = true
  turning : e.searcher.Turning
  size : e.graph.nodes.length = vs.length
  tidy : e.graph.Tidy
  mirrored : e.graph.Mirrored
  root : vs ≠ [] → e.root = 0
  base : s₀.graph.Extends e.graph
  based : ∀ (i : Nat) v, vs[i]? = some v → s₀.graph.Extends v.entered.store.graph
  valid : ∀ (i : Nat) v, vs[i]? = some v → v.Valid e.options e.program i
  final : ∀ (i : Nat) v, vs[i]? = some v → (v.graph i).Extends e.graph
  ordered : ∀ (i j : Nat) v w, i < j → vs[i]? = some v → vs[j]? = some w →
    (v.graph i).Extends w.entered.store.graph
  parents : ∀ (j : Nat) w p, vs[j]? = some w → w.frame.parent = some p → ∃ i : Nat, p = i ∧ i < j
  frames : (vs.map (fun v => v.frame.unnumbered) ++
      e.searcher.pending.map Frame.unnumbered).Perm
    ([firstFrame e s₀].filter e.options.admits ++ vs.flatMap fun v => v.next.filter e.options.admits)
  tags : ∀ (k : Nat) d, e.graph.decls[k]? = some d → ∀ t ∈ d.derefs,
    ∃ (i : Nat) (v : Visit), t.node = i ∧ vs[i]? = some v ∧
      k < v.left.store.graph.decls.length ∧
      ∀ P : Name → Prop, v.entered.store.Scoped P → P ⟨k⟩
  origins : ∀ (k : Nat) d, e.graph.decls[k]? = some d → d.origin ≠ none →
    k < s₀.graph.decls.length
  waiting : ∀ f ∈ e.searcher.pending, Store.Scoped (fun _ => True) ⟨e.graph, f.memory⟩

/-- Entering the function begins a log. -/
theorem Logged.of_start {e : Explorer} (he : e.Fresh)
    (h : (start { e with started := true }).1 = .ok ()) : ∃ s₀, Logged s₀ e.entered [] := by
  rcases he.start_cases with ⟨s₀, searcher, hs₀, hturn, hentered, hp⟩ | ⟨failure, s, -, herr, -⟩
  · have hbare : s₀.Bare := enterFunction_bare Store.bare_empty hs₀
    rw [hentered]
    refine ⟨s₀, ?_⟩
    refine ⟨hs₀, rfl, hturn, by simp [hbare.nodes], hbare.scope.tidy, ?_, by simp, .refl,
      by simp, by simp, by simp, by simp, by simp, ?_, ?_,
      fun k d hd _ => lt_length_of_getElem? hd, ?_⟩
    · intro a n ed hn
      have hlt := Graph.lt_length_of_node? hn
      simp [hbare.nodes] at hlt
    · rw [List.map_nil, List.nil_append, List.flatMap_nil, List.append_nil]
      refine hp.trans (List.Perm.of_eq ?_)
      unfold firstFrame
      by_cases hadm : e.options.admits { function := e.entry, memory := s₀.memory } = true <;>
        simp [hadm, Frame.unnumbered]
    · intro k d hd t ht
      rw [hbare.derefs d (List.mem_of_getElem? hd)] at ht
      cases ht
    · intro f hf
      obtain ⟨f', hf', heq⟩ := exists_unnumbered_eq hp hf
      obtain rfl := List.mem_singleton.mp (List.mem_filter.mp hf').1
      have hmemory : f.memory = s₀.memory := (congrArg Frame.memory heq).symm
      rw [hmemory]
      exact hbare.scope
  · rw [herr] at h
    cases h

/-! ## One more visit -/

/-- The graph after a new node has been linked to the parent of a frame. -/
structure LinkedTo (frame : Frame) (g g' : Graph) : Prop where
  decls : g'.decls = g.decls
  size : g'.nodes.length = g.nodes.length + 1
  extends_ : g.Extends g'
  mirrored : g'.Mirrored
  node : g'.node? g.nodes.length = some { into := frame.links }
  edge : ∀ p, frame.parent = some p →
    ∃ n, g'.node? p = some n ∧ ⟨frame.guard, g.nodes.length⟩ ∈ n.out

theorem LinkedTo.of_linking {e : Explorer} (hg : e.graph.Mirrored)
    (hp : ∀ p, frame.parent = some p → p < e.graph.nodes.length) (h : e.Linking frame g root) :
    LinkedTo frame e.graph g where
  decls := h.decls
  size := h.size
  extends_ := by
    refine .of_nodes h.decls fun j n hn => ?_
    have hj := Graph.lt_length_of_node? hn
    rw [h.node? hp, if_neg (by omega), hn, Option.map_some]
    refine ⟨_, rfl, ?_⟩
    split
    · exact ⟨rfl, by simp, fun hc => ⟨hc, rfl⟩⟩
    · exact .refl
  mirrored := by
    cases h with
    | first => exact hg.addNode
    | edge _ hadd => exact hg.addNode.addEdge hadd
  node := by rw [h.node? hp, if_pos rfl]
  edge := by
    intro p hpar
    cases h with
    | first hnone =>
      rw [hnone] at hpar
      cases hpar
    | @edge q _ hsome hadd =>
      obtain rfl := Option.mem_unique hsome hpar
      have hlt := hp q hsome
      obtain ⟨n, -, hn, -, -⟩ := Graph.addEdge_eq_ok hadd
      rw [Graph.node?_addNode, if_neg (by omega)] at hn
      rw [Linking.node? (.edge hsome hadd) hp, if_neg (by omega), hn, Option.map_some,
        if_pos hsome]
      exact ⟨_, rfl, by simp⟩

variable {s₀ : Store} {e e' : Explorer} {vs : List Visit} {v : Visit} {fuel : Nat}
  {executed : List Frame}

section
variable (hl : Logged s₀ e vs)
include hl

/-- A frame that was executed or waits is the first one, or a visit handed it on. -/
theorem Logged.origin {f : Frame} (hf : f.unnumbered ∈ vs.map (fun v => v.frame.unnumbered) ++
      e.searcher.pending.map Frame.unnumbered) :
    e.options.admits f = true ∧ (f.unnumbered = firstFrame e s₀ ∨
      ∃ (i : Nat) (v : Visit), vs[i]? = some v ∧ f.unnumbered ∈ v.next ∧ f.parent = some i) := by
  rcases List.mem_append.mp (hl.frames.mem_iff.mp hf) with hf | hf
  · obtain ⟨hf, hadm⟩ := List.mem_filter.mp hf
    exact ⟨hadm, .inl (List.mem_singleton.mp hf)⟩
  · obtain ⟨v, hv, hf⟩ := List.mem_flatMap.mp hf
    obtain ⟨hf, hadm⟩ := List.mem_filter.mp hf
    obtain ⟨i, hi⟩ := List.mem_iff_getElem?.mp hv
    exact ⟨hadm, .inr ⟨i, v, hi, hf, ((hl.valid i v hi).succeeds hf).parent⟩⟩

theorem Logged.parent_zero (hv : vs[0]? = some v) : v.frame.parent = none := by
  cases hp : v.frame.parent with
  | none => rfl
  | some p =>
    obtain ⟨i, -, hi⟩ := hl.parents 0 v p hv hp
    omega

end

/-- Only the first visit has no parent, so everything else was handed on by a visit. -/
theorem Logged.parent_ne_none (hl : Logged s₀ e (v :: vs)) {f : Frame}
    (hf : f.unnumbered ∈ vs.map (fun v => v.frame.unnumbered) ++
      e.searcher.pending.map Frame.unnumbered) : f.parent ≠ none := by
  have hnext : ∀ f ∈ (v :: vs).flatMap fun v => v.next.filter e.options.admits, f.parent ≠ none := by
    intro f hf
    obtain ⟨w, hw, hf⟩ := List.mem_flatMap.mp hf
    obtain ⟨i, hi⟩ := List.mem_iff_getElem?.mp hw
    rw [((hl.valid i w hi).succeeds (List.mem_filter.mp hf).1).parent]
    exact Option.some_ne_none _
  have hframes := hl.frames
  rw [List.map_cons, List.cons_append] at hframes
  -- the first visit took the first frame, and the other frames are those that were handed on
  have hfirst : v.frame.unnumbered ∈ [firstFrame e s₀].filter e.options.admits := by
    rcases List.mem_append.mp (hframes.mem_iff.mp List.mem_cons_self) with h | h
    · exact h
    · exact (hnext _ h (hl.parent_zero rfl)).elim
  obtain ⟨hv, hadm⟩ := List.mem_filter.mp hfirst
  rw [List.mem_singleton.mp hv] at hadm hframes
  rw [List.filter_cons_of_pos hadm, List.filter_nil, List.singleton_append,
    List.perm_cons] at hframes
  exact hnext f.unnumbered (hframes.mem_iff.mp hf)

section
variable (hl : Logged s₀ e vs)
include hl

/-- A frame without a parent waits only before the first visit. -/
theorem Logged.nil_of_parent_none {f : Frame} (hf : f ∈ e.searcher.pending) (hp : f.parent = none) :
    vs = [] := by
  cases vs with
  | nil => rfl
  | cons v vs =>
    exact absurd hp (hl.parent_ne_none (List.mem_append_right _ (List.mem_map_of_mem hf)))

/-- The node of a frame is the first one, or it is linked to an earlier node. -/
theorem Logged.linked (hframe : frame ∈ e.searcher.pending) (hlink : e.Linking frame g root) :
    LinkedTo frame e.graph g ∧ root = 0 ∧
      ∀ p, frame.parent = some p → ∃ i : Nat, p = i ∧ i < vs.length := by
  have hparent : ∀ p, frame.parent = some p → ∃ i : Nat, p = i ∧ i < vs.length := by
    intro p hp
    obtain ⟨-, hfirst | ⟨i, v, hi, -, hpi⟩⟩ := hl.origin
      (List.mem_append_right _ (List.mem_map_of_mem hframe))
    · have : frame.parent = none := congrArg Frame.parent hfirst
      rw [this] at hp
      cases hp
    · rw [hpi] at hp
      cases hp
      exact ⟨i, rfl, lt_length_of_getElem? hi⟩
  have hlt : ∀ p, frame.parent = some p → p < e.graph.nodes.length := by
    intro p hp
    obtain ⟨i, rfl, hi⟩ := hparent p hp
    rw [hl.size]
    exact_mod_cast hi
  refine ⟨.of_linking hl.mirrored hlt hlink, ?_, hparent⟩
  cases hlink with
  | first hp => rw [hl.size, hl.nil_of_parent_none hframe hp]; rfl
  | @edge p _ hp hadd =>
    obtain ⟨i, rfl, hi⟩ := hparent p hp
    refine hl.root ?_
    rintro rfl
    exact absurd hi (Nat.not_lt_zero i)

/-- A tag of the graph after a visit is an old one or was added by the visit. -/
theorem Logged.tags_snoc {es : List Expr} (hdecls : v.entered.store.graph.decls = e.graph.decls)
    (hev : v.entered.store.Evolves (fun _ => True) vs.length es v.left.store)
    (htags : ∀ P : Name → Prop, v.entered.store.Scoped P →
      ∃ es, v.entered.store.Evolves P vs.length es v.left.store)
    (hg : g.decls = v.left.store.graph.decls) (k : Nat) (d : Declaration)
    (hd : g.decls[k]? = some d) (t : DerefTag) (ht : t ∈ d.derefs) :
    ∃ (i : Nat) (w : Visit), t.node = i ∧ (vs ++ [v])[i]? = some w ∧
      k < w.left.store.graph.decls.length ∧
      ∀ P : Name → Prop, w.entered.store.Scoped P → P ⟨k⟩ := by
  rw [hg] at hd
  have hnew : (vs ++ [v])[vs.length]? = some v := by simp
  have hlast := lt_length_of_getElem? hd
  rcases hev.grows.new_or_gains hd with ⟨hk, -, hnode⟩ | ⟨d₀, hd₀, hgain⟩
  · exact ⟨vs.length, v, hnode t ht, hnew, hlast, fun P hP => hP.fresh ⟨k⟩ hk⟩
  · obtain ⟨ts, hts, hnode⟩ := hgain.derefs
    rw [hts, List.mem_append] at ht
    rcases ht with ht | ht
    · obtain ⟨i, w, hi, hw, hold⟩ := hl.tags k d₀ (by rw [← hdecls]; exact hd₀) t ht
      have hlt := lt_length_of_getElem? hw
      exact ⟨i, w, hi, by rw [List.getElem?_append_left hlt, hw], hold⟩
    · refine ⟨vs.length, v, hnode t ht, hnew, hlast, fun P hP => ?_⟩
      obtain ⟨es', hev'⟩ := htags P hP
      refine hev'.tags k d₀ d hd₀ hd fun heq => ?_
      have hnil : ts = [] := by simpa [hts] using heq
      rw [hnil] at ht
      cases ht

end

/-- A memory stays in scope when the graph grows. -/
theorem scoped_of_length_le {g' : Graph} {memory : Memory}
    (hs : Store.Scoped (fun _ => True) ⟨g, memory⟩) (htidy : g'.Tidy)
    (hle : g.decls.length ≤ g'.decls.length) : Store.Scoped (fun _ => True) ⟨g', memory⟩ :=
  ⟨htidy, fun _ _ => trivial, fun n hn => ⟨trivial, (hs.mentions n hn).2.trans_le hle⟩⟩

/-- A visit makes the log longer. -/
theorem Logged.snoc (hl : Logged s₀ e vs) (hv : e.MakesVisit v e') : Logged s₀ e' (vs ++ [v]) := by
  obtain @⟨frame, searcher, b, g, root, m, next, hsel, hx⟩ := hv
  obtain ⟨hturn, hpend⟩ := Searcher.pending_of_select_some hl.turning hsel
  have hframe : frame ∈ e.searcher.pending := hpend.mem_iff.mpr List.mem_cons_self
  obtain ⟨hlinked, rfl, hparent⟩ := hl.linked hframe hx.link
  have hrun := hx.run
  rw [hl.size] at hrun
  have hscope : Store.Scoped (fun _ => True) ⟨g, frame.memory⟩ :=
    (hl.waiting frame hframe).of_decls_eq hlinked.decls
  let v : Visit := ⟨frame, b,
    { store := ⟨g, frame.memory⟩, stats := { e.stats with nodes := e.stats.nodes + 1 } }, m, next⟩
  have htags : ∀ P : Name → Prop, v.entered.store.Scoped P →
      ∃ es, v.entered.store.Evolves P vs.length es v.left.store := by
    intro P hP
    obtain ⟨es, hev, -, -⟩ := Machine.block_evolves hP hrun
    exact ⟨es, hev⟩
  obtain ⟨es, hev, -, hgoes⟩ := Machine.block_evolves hscope hrun
  have hvalid : v.Valid e.options e.program vs.length :=
    ⟨hx.block, rfl, hrun, hl.size ▸ hlinked.size, hl.size ▸ hlinked.node, hl.size ▸ hlinked.edge, hscope⟩
  -- the graph went through the new node, the growth at it, and its closing
  have hN : (0 : Int) ≤ vs.length := Int.natCast_nonneg _
  have hgrown : g.Extends m.store.graph := by
    refine .of_grows hev.grows hN fun n hn => ?_
    rw [hvalid.node] at hn
    cases hn
    rfl
  have hclosed : m.store.graph.Extends (v.graph vs.length) := .close hN
  have hlater : e.graph.Extends (v.graph vs.length) :=
    (hlinked.extends_.trans hgrown).trans hclosed
  have hgraph : (m.store.graph.modifyNode e.graph.nodes.length fun n =>
      { n with closed := true }) = v.graph vs.length := by rw [hl.size]; rfl
  unfold Explorer.executed
  rw [hgraph]
  obtain ⟨searcher', hsched, hperm⟩ := foldl_schedule_eq
    { e with searcher, graph := v.graph vs.length, stats := m.stats, root := 0 } next
  obtain ⟨hturn', hperm⟩ := hperm hturn
  rw [hsched]
  have hkept : (next.filter e.options.admits).map Frame.unnumbered =
      next.filter e.options.admits := by
    have hid : ∀ f ∈ next.filter e.options.admits, f.unnumbered = id f := fun f hf =>
      Frame.unnumbered_of_id (hgoes f (List.mem_filter.mp hf).1).id
    rw [List.map_congr_left hid, List.map_id]
  have hold : ∀ (i : Nat) w, (vs ++ [v])[i]? = some w → vs[i]? = some w ∨ (i = vs.length ∧ w = v) :=
    fun i w hw => getElem?_snoc hw
  exact {
    entered := hl.entered
    started := hl.started
    turning := hturn'
    size := by
      have hlen : m.store.graph.nodes.length = vs.length + 1 := by
        rw [hev.grows.nodes, List.length_modify]
        exact hvalid.size
      simpa [Visit.graph, Graph.modifyNode] using hlen
    tidy := hev.scope.tidy
    mirrored := (hlinked.mirrored.grows hev.grows hN).modifyNode hN (fun _ => rfl) fun _ => rfl
    root := fun _ => rfl
    base := hl.base.trans hlater
    based := by
      intro i w hw
      rcases hold i w hw with hw | ⟨-, rfl⟩
      · exact hl.based i w hw
      · exact hl.base.trans hlinked.extends_
    valid := by
      intro i w hw
      rcases hold i w hw with hw | ⟨rfl, rfl⟩
      · exact hl.valid i w hw
      · exact hvalid
    final := by
      intro i w hw
      rcases hold i w hw with hw | ⟨rfl, rfl⟩
      · exact (hl.final i w hw).trans hlater
      · exact .refl
    ordered := by
      intro i j w w' hij hw hw'
      have hj := lt_length_of_getElem? hw'
      rw [List.length_append, List.length_singleton] at hj
      rcases hold i w hw with hw | ⟨rfl, rfl⟩
      · rcases hold j w' hw' with hw' | ⟨rfl, rfl⟩
        · exact hl.ordered i j w w' hij hw hw'
        · exact (hl.final i w hw).trans hlinked.extends_
      · omega
    parents := by
      intro j w p hw hp
      rcases hold j w hw with hw | ⟨rfl, rfl⟩
      · exact hl.parents j w p hw hp
      · exact hparent p hp
    frames := by
      have hcomm : (next.filter e.options.admits ++ searcher.pending.map Frame.unnumbered).Perm
          (searcher.pending.map Frame.unnumbered ++ next.filter e.options.admits) :=
        List.perm_append_comm
      have happend := hcomm.cons frame.unnumbered
      have hstep : (frame.unnumbered :: searcher'.pending.map Frame.unnumbered).Perm
          (e.searcher.pending.map Frame.unnumbered ++ next.filter e.options.admits) :=
        ((hkept ▸ hperm).cons _).trans (happend.trans ((hpend.map _).symm.append_right _))
      rw [List.map_append, List.flatMap_append, List.append_assoc]
      refine (hstep.append_left _).trans ?_
      rw [← List.append_assoc, ← List.append_assoc, List.flatMap_singleton]
      exact hl.frames.append_right _
    tags := hl.tags_snoc hlinked.decls hev htags rfl
    origins := by
      intro k d hd ho
      rcases hev.grows.new_or_gains hd with ⟨-, hnone, -⟩ | ⟨d₀, hd₀, hgain⟩
      · exact absurd hnone ho
      · exact hl.origins k d₀ (by rw [← hlinked.decls]; exact hd₀) (hgain.origin ▸ ho)
    waiting := by
      intro f hf
      have hmem := hperm.mem_iff.mp (List.mem_map_of_mem hf)
      rcases List.mem_append.mp hmem with hmem | hmem
      · rw [hkept] at hmem
        exact (hgoes _ (List.mem_filter.mp hmem).1).memory.of_decls_eq rfl
      · obtain ⟨f₀, hf₀, heq⟩ := List.mem_map.mp hmem
        have hmemory : f.memory = f₀.memory := (congrArg Frame.memory heq).symm
        rw [hmemory]
        have hwait := hl.waiting f₀ (hpend.mem_iff.mpr (.tail _ hf₀))
        exact scoped_of_length_le hwait hev.scope.tidy hlater.length_le }

/-- Finding that nothing waits leaves the log as it is. -/
theorem Logged.finish (hl : Logged s₀ e vs) {searcher : Searcher Frame}
    (hsel : e.searcher.select = (none, searcher)) :
    Logged s₀ { e with searcher } vs ∧ searcher.pending = [] := by
  obtain ⟨hnil, hnil', hturn⟩ := Searcher.pending_of_select_none hl.turning hsel
  refine ⟨{ hl with turning := hturn, frames := ?_, waiting := ?_ }, hnil'⟩
  · have := hl.frames
    rw [hnil] at this
    rw [hnil']
    exact this
  · rw [hnil']
    exact fun f hf => absurd hf List.not_mem_nil

/-! ## Whole explorations -/

/-- What a run adds to the log.  A property of a state and its log that visits keep comes with it. -/
theorem Logged.runWithin {J : Explorer → List Visit → Prop}
    (hvisit : ∀ e vs v e', Logged s₀ e vs → J e vs → e.MakesVisit v e' → J e' (vs ++ [v]))
    (hfinish : ∀ e vs searcher, e.searcher.pending = [] → searcher.pending = [] →
      searcher.Turning → J e vs → J { e with searcher } vs) (hl : Logged s₀ e vs) (hJ : J e vs)
    {executed' : List Frame} (hex : executed = (vs.map Visit.finished).reverse)
    (h : runWithin fuel e executed = (some (.ok ()), e', executed')) :
    ∃ vs', Logged s₀ e' vs' ∧ J e' vs' ∧ vs'.length < vs.length + fuel ∧
      e'.searcher.pending = [] ∧ executed' = (vs'.map Visit.finished).reverse ∧ e.SameTask e' := by
  induction fuel generalizing e vs executed with
  | zero => cases h
  | succ fuel ih =>
    rw [Explorer.runWithin] at h
    have hturn := step_turn hl.started
    generalize e.step = r at h hturn
    obtain ⟨o, e₁⟩ := r
    have hsame := hturn.sameTask
    cases hturn with
    | finished hsel =>
      obtain ⟨-, h'⟩ := Prod.mk.inj h
      cases h'
      obtain ⟨hl', hnil⟩ := hl.finish hsel
      have hnil₀ := (Searcher.pending_of_select_none hl.turning hsel).1
      exact ⟨vs, hl', hfinish e vs _ hnil₀ hnil hl'.turning hJ, by omega, hnil, hex, hsame⟩
    | outside | unlinked | broken => cases h
    | executed hsel hx =>
      have hv : e.MakesVisit _ _ := .mk hsel hx
      obtain ⟨vs', hl', hJ', hlt, hnil, hex', hsame'⟩ :=
        ih (hl.snoc hv) (hvisit _ _ _ _ hl hJ hv) (by simp [hex, Visit.finished]) h
      rw [List.length_append, List.length_singleton] at hlt
      exact ⟨vs', hl', hJ', by omega, hnil, hex', hsame.trans hsame'⟩

theorem runWithin_succ_of_start (he : e.started = false)
    (hs : (start { e with started := true }).1 = .ok ()) (fuel : Nat) (executed : List Frame) :
    Explorer.runWithin (fuel + 1) e executed = Explorer.runWithin (fuel + 1) e.entered executed := by
  rcases step_eq_of_not_started he with ⟨failure, herr, -⟩ | ⟨-, hstep⟩
  · rw [herr] at hs
    cases hs
  · rw [Explorer.runWithin, Explorer.runWithin, hstep]

/-- A run that succeeds has entered the function. -/
theorem start_of_runWithin (he : e.started = false)
    (h : (runWithin (fuel + 1) e executed).1 = some (.ok ())) :
    (start { e with started := true }).1 = .ok () := by
  rcases step_eq_of_not_started he with ⟨failure, -, hstep⟩ | ⟨hs, -⟩
  · rw [Explorer.runWithin, hstep] at h
    cases h
  · exact hs

theorem trace_eq_ok (h : e.trace.1 = .ok ()) :
    ∃ executed, runWithin stepBudget e [] = (some (.ok ()), e.trace.2.1, executed) ∧
      e.trace.2.2 = executed.reverse := by
  unfold trace at h ⊢
  cases hrun : Explorer.runWithin stepBudget e [] with
  | mk result rest =>
    obtain ⟨e', executed⟩ := rest
    rw [hrun] at h
    cases result with
    | none => cases h
    | some result =>
      obtain rfl := h
      exact ⟨executed, rfl, rfl⟩

/-- Every successful exploration has a log, and its executed frames are those of the log.  A
property that visits keep holds at the end. -/
theorem exists_log_with {J : Store → Explorer → List Visit → Prop}
    (hstart : ∀ s₀, Logged s₀ e.entered [] → J s₀ e.entered [])
    (hvisit : ∀ s₀ e vs v e', Logged s₀ e vs → J s₀ e vs → e.MakesVisit v e' → J s₀ e' (vs ++ [v]))
    (hfinish : ∀ s₀ e vs searcher, e.searcher.pending = [] → searcher.pending = [] →
      searcher.Turning → J s₀ e vs → J s₀ { e with searcher } vs)
    (he : e.Fresh) (h : e.trace.1 = .ok ()) :
    ∃ s₀ vs, Logged s₀ e.trace.2.1 vs ∧ J s₀ e.trace.2.1 vs ∧ vs.length < stepBudget ∧
      e.trace.2.1.searcher.pending = [] ∧ e.trace.2.2 = vs.map Visit.finished ∧
      e.trace.2.1.options = e.options ∧ e.trace.2.1.program = e.program ∧
      e.trace.2.1.entry = e.entry := by
  obtain ⟨executed, hrun, hlist⟩ := trace_eq_ok h
  obtain ⟨fuel, hfuel⟩ : ∃ fuel, stepBudget = fuel + 1 := ⟨0x3fffffffffffffff, rfl⟩
  rw [hfuel] at hrun
  have hs := start_of_runWithin he.started (congrArg Prod.fst hrun)
  rw [runWithin_succ_of_start he.started hs] at hrun
  obtain ⟨s₀, hl⟩ := Logged.of_start he hs
  obtain ⟨vs, hvs, hJ, hlt, hnil, hex, hsame⟩ :=
    hl.runWithin (hvisit s₀) (hfinish s₀) (hstart s₀ hl) rfl hrun
  have hsame := (sameTask_entered e).trans hsame
  refine ⟨s₀, vs, hvs, hJ, ?_, hnil, ?_, hsame.options, hsame.program, hsame.entry⟩
  · rw [hfuel, ← Nat.zero_add (fuel + 1)]
    exact hlt
  · rw [hlist, hex, List.reverse_reverse]

theorem exists_log (he : e.Fresh) (h : e.trace.1 = .ok ()) :
    ∃ s₀ vs, Logged s₀ e.trace.2.1 vs ∧ e.trace.2.1.searcher.pending = [] ∧
      e.trace.2.2 = vs.map Visit.finished ∧ e.trace.2.1.options = e.options ∧
      e.trace.2.1.program = e.program ∧ e.trace.2.1.entry = e.entry := by
  obtain ⟨s₀, vs, hl, -, -, hrest⟩ := exists_log_with (J := fun _ _ _ => True) (fun _ _ => trivial)
    (fun _ _ _ _ _ _ _ _ => trivial) (fun _ _ _ _ _ _ _ _ => trivial) he h
  exact ⟨s₀, vs, hl, hrest⟩

end Explorer
end NullPath
