import NullPath.Proofs.Steps

/-!
# The graph of an exploration is a rooted tree

A node is linked when the block of its frame is executed, not when the frame is scheduled, so the
order in which a searcher chooses decides which nodes come first, and an error can stop a block in
the middle.  Whatever happens, the nodes belong to the executed frames in order: the node of a frame
knows the node that the frame came from, which is an earlier one, and the successors of a node are
the nodes of the frames that came from it.

* `Explorer.Rooted`: what every step of an exploration keeps.
* `Graph.IsRootedTree`: the tree, seen from its nodes.
* `Explorer.after_isRootedTree`: the graph is one after any number of steps.
-/

namespace NullPath

open Action Graph

/-! ## Entering a function -/

namespace Store

variable {env : Env} {base : Int}

/-- The store may have more names, but it has the same nodes and tags.  The table of names stays in
order. -/
structure OnlyDeclares (s s' : Store) : Prop where
  nodes : s'.graph.nodes = s.graph.nodes
  decls : ∀ d ∈ s'.graph.decls, d ∈ s.graph.decls ∨ d.derefs = []
  tidy : s.graph.Tidy → s'.graph.Tidy

instance : IsPreorder Store OnlyDeclares where
  refl _ := ⟨rfl, fun _ => .inl, id⟩
  trans _ _ _ h h' := ⟨h'.nodes.trans h.nodes, fun d hd => (h'.decls d hd).elim (h.decls d) .inr,
    h'.tidy ∘ h.tidy⟩

theorem onlyDeclares_declare {sort : ExprSort} (hsort : sort = .int ∨ sort = .bool)
    (o : Option Origin) : Follows OnlyDeclares (declare sort o) := by
  refine fun s => ⟨rfl, fun d hd => (List.mem_append.mp hd).imp_right fun hd => ?_,
    (·.declare hsort)⟩
  rw [List.mem_singleton.mp hd]

theorem onlyDeclares_setCell (c : Cell) (b : Binding) : Follows OnlyDeclares (setCell c b) :=
  fun _ => ⟨rfl, fun _ => .inl, id⟩

theorem onlyDeclares_resolve : Follows OnlyDeclares (resolve env ⟨base, 0⟩) := by
  unfold resolve resolveAt
  split
  · exact follows_error _
  · exact follows_get.bind fun s => follows_pure _

theorem onlyDeclares_bind (n : Name) : Follows OnlyDeclares (Store.bind env ⟨base, 0⟩ n) :=
  onlyDeclares_resolve.bind fun c => onlyDeclares_setCell c _

theorem onlyDeclares_writeFresh : Follows OnlyDeclares (writeFresh env ⟨base, 0⟩) := by
  refine (follows_lift _).bind_of_eq fun sort _ _ hl => onlyDeclares_resolve.bind fun c => ?_
  have hsort := Function.placeSort_cases (lift_eq_ok.mp hl).1
  exact (onlyDeclares_declare hsort none).bind fun n => (onlyDeclares_setCell c _).bind fun _ =>
    follows_pure n

end Store

namespace Explorer

theorem onlyDeclares_bindParameters (f : Function) (count i : Nat) :
    Follows Store.OnlyDeclares (bindParameters f count i) := by
  induction count generalizing i with
  | zero => exact follows_pure _
  | succ count ih =>
    rw [bindParameters]
    split
    · exact follows_error _
    · refine ((follows_lift _).within _).bind_of_eq fun sort _ _ hl => ?_
      have hsort := Ty.sort_cases (lift_eq_ok.mp (within_eq_ok.mp hl)).1
      exact (Store.onlyDeclares_declare hsort _).bind fun n => (Store.onlyDeclares_bind n).bind
        fun _ => ih (i + 1)

/-- Entering a function makes neither nodes nor tags, even if it fails. -/
theorem onlyDeclares_enterFunction (f : Function) :
    Follows Store.OnlyDeclares (enterFunction f) := by
  unfold enterFunction
  split
  · exact follows_error _
  · split
    · exact follows_error _
    · split
      · exact (Store.onlyDeclares_writeFresh.within _).bind fun _ => onlyDeclares_bindParameters f _ 1
      · exact onlyDeclares_bindParameters f _ 1

end Explorer

/-! ## Nodes of frames -/

/-- The successors of a node, if the nodes are those of some frames in order. -/
def successors (fs : List Frame) (a : Int) : List Edge :=
  fs.zipIdx.filterMap fun p => if p.1.parent = some a then some ⟨p.1.guard, p.2⟩ else none

theorem successors_snoc (fs : List Frame) (f : Frame) (a : Int) :
    successors (fs ++ [f]) a =
      successors fs a ++ if f.parent = some a then [⟨f.guard, fs.length⟩] else [] := by
  rw [successors, List.zipIdx_append, List.filterMap_append]
  congr 1
  by_cases h : f.parent = some a <;> simp [h]

theorem successors_eq_nil {fs : List Frame} {a : Int}
    (h : ∀ f ∈ fs, f.parent ≠ some a) : successors fs a = [] := by
  rw [successors, List.filterMap_eq_nil_iff]
  rintro ⟨f, i⟩ hf
  rw [if_neg (h f (List.fst_mem_of_mem_zipIdx hf))]

theorem mem_successors {fs : List Frame} {a : Int} {c : Option Expr} {b : Int} :
    ⟨c, b⟩ ∈ successors fs a ↔
      ∃ (i : Nat) (f : Frame), fs[i]? = some f ∧ f.parent = some a ∧ f.guard = c ∧ b = i := by
  simp only [successors, List.mem_filterMap, Prod.exists, Option.ite_none_right_eq_some,
    Option.some.injEq, Edge.mk.injEq, List.mem_zipIdx_iff_getElem?]
  exact ⟨fun ⟨f, i, hf, hp, hc, hb⟩ => ⟨i, f, hf, hp, hc, hb.symm⟩,
    fun ⟨i, f, hf, hp, hc, hb⟩ => ⟨f, i, hf, hp, hc, hb.symm⟩⟩

theorem nodup_successors (fs : List Frame) (a : Int) : (successors fs a).Nodup := by
  induction fs using List.reverseRecOn with
  | nil => exact List.nodup_nil
  | append_singleton fs f ih =>
    rw [successors_snoc, List.nodup_append']
    refine ⟨ih, by split <;> simp, ?_⟩
    rintro ⟨c, b⟩ hmem hnew
    obtain ⟨i, f', hi, -, -, rfl⟩ := mem_successors.mp hmem
    have hlt := lt_length_of_getElem? hi
    split at hnew
    · have hb := congrArg Edge.target (List.mem_singleton.mp hnew)
      exact absurd (Int.ofNat.inj hb) (Nat.ne_of_lt hlt)
    · cases hnew

namespace Graph

variable {g g' : Graph} {fs : List Frame} {frame : Frame} {i p : Int}

/-- The nodes of the graph are those of some frames in order, and each is linked to the node that
its frame came from.  Only the first frame did not come from another one. -/
structure Spans (g : Graph) (fs : List Frame) : Prop where
  size : g.nodes.length = fs.length
  node : ∀ (i : Nat) f, fs[i]? = some f →
    ∃ n, g.node? i = some n ∧ n.into = f.links ∧ n.out = successors fs i
  parent : ∀ (i : Nat) f, fs[i]? = some f →
    (f.parent = none ∧ i = 0) ∨ ∃ k : Nat, f.parent = some (k : Int) ∧ k < i

theorem Spans.empty (h : g.nodes = []) : g.Spans [] :=
  ⟨by simp [h], by simp, by simp⟩

/-- A change of the nodes that keeps their links. -/
theorem Spans.of_node? (h : g.Spans fs) (hsize : g'.nodes.length = g.nodes.length)
    (hnode : ∀ i n, g.node? i = some n →
      ∃ n', g'.node? i = some n' ∧ n'.into = n.into ∧ n'.out = n.out) : g'.Spans fs := by
  refine ⟨hsize.trans h.size, fun i f hf => ?_, h.parent⟩
  obtain ⟨n, hn, hinto, hout⟩ := h.node i f hf
  obtain ⟨n', hn', hinto', hout'⟩ := hnode i n hn
  exact ⟨n', hn', hinto'.trans hinto, hout'.trans hout⟩

theorem Spans.modifyNode (h : g.Spans fs) (hi : 0 ≤ i) {u : Node → Node}
    (hinto : ∀ n, (u n).into = n.into) (hout : ∀ n, (u n).out = n.out) :
    (g.modifyNode i u).Spans fs := by
  refine h.of_node? (List.length_modify ..) fun j n hn => ?_
  rw [node?_modifyNode hi]
  split
  · rw [hn]
    exact ⟨u n, rfl, hinto n, hout n⟩
  · exact ⟨n, hn, rfl, rfl⟩

theorem Spans.grows (h : g.Spans fs) (hi : 0 ≤ i) {es : List Expr} (hg : g.Grows i es g') :
    g'.Spans fs := by
  have hmod : (g.modifyNode i fun n => { n with exprs := n.exprs ++ es }).Spans fs :=
    h.modifyNode hi (fun _ => rfl) fun _ => rfl
  exact hmod.of_node? (by rw [hg.nodes]; rfl) fun j n hn => ⟨n, by rw [hg.node?, hn], rfl, rfl⟩

/-- The frame can be linked: it is the first one, or it came from a node. -/
def Awaits (fs : List Frame) (f : Frame) : Prop :=
  (f.parent = none ∧ fs = []) ∨ ∃ k : Nat, f.parent = some (k : Int) ∧ k < fs.length

theorem Awaits.exists_nat (h : Awaits fs frame) (hp : frame.parent = some p) :
    ∃ k : Nat, p = k ∧ k < fs.length := by
  rcases h with ⟨hnone, -⟩ | ⟨k, hk, hlt⟩
  · rw [hnone] at hp
    cases hp
  · exact ⟨k, Option.mem_unique hp hk, hlt⟩

theorem Awaits.lt (h : Awaits fs frame) (hp : frame.parent = some p) : p < fs.length := by
  obtain ⟨k, rfl, hk⟩ := h.exists_nat hp
  exact_mod_cast hk

/-- The node that a waiting frame came from is in the graph. -/
theorem Spans.parent_lt (h : g.Spans fs) (hf : Awaits fs frame) :
    ∀ p, frame.parent = some p → p < g.nodes.length := by
  intro p hp
  rw [h.size]
  exact hf.lt hp

/-- Linking a new node for one more frame. -/
theorem Spans.linking {e : Explorer} {root : Int} (h : e.graph.Spans fs) (hf : Awaits fs frame)
    (hl : e.Linking frame g root) : g.Spans (fs ++ [frame]) := by
  have hlt := h.parent_lt hf
  refine ⟨by rw [hl.size, h.size, List.length_append, List.length_singleton], ?_, ?_⟩
  · intro i f hi
    rw [hl.node? hlt, successors_snoc, h.size]
    rcases getElem?_snoc hi with hi | ⟨rfl, rfl⟩
    · have hne := lt_length_of_getElem? hi
      obtain ⟨n, hn, hinto, hout⟩ := h.node i f hi
      rw [if_neg (by omega), hn]
      refine ⟨_, rfl, ?_, ?_⟩
      · split <;> exact hinto
      · split
        · exact congrArg (· ++ _) hout
        · rw [List.append_nil]
          exact hout
    · rw [if_pos rfl]
      refine ⟨_, rfl, rfl, ?_⟩
      have hself : f.parent ≠ some (fs.length : Int) := fun hp => absurd (hf.lt hp) (by omega)
      rw [if_neg hself, List.append_nil, successors_eq_nil]
      intro f' hf' hp
      obtain ⟨j, hj⟩ := List.mem_iff_getElem?.mp hf'
      have hjlt := lt_length_of_getElem? hj
      rcases h.parent j f' hj with ⟨hnone, -⟩ | ⟨k, hk, hkj⟩
      · rw [hnone] at hp
        cases hp
      · have : (k : Int) = fs.length := Option.mem_unique hk hp
        omega
  · intro i f hi
    rcases getElem?_snoc hi with hi | ⟨rfl, rfl⟩
    · exact h.parent i f hi
    · exact hf.imp (fun ⟨hnone, hnil⟩ => ⟨hnone, by rw [hnil]; rfl⟩) id

end Graph

/-! ## What every step keeps -/

namespace Explorer

variable {e e' : Explorer} {o : Outcome} {fs : List Frame} {searcher : Searcher Frame}
  {frame : Frame}

/-- The executed frames have nodes, which are closed, and what waits comes from one of them. -/
structure Rooted (e : Explorer) (fs : List Frame) : Prop where
  turning : e.searcher.Turning
  spans : e.graph.Spans fs
  closed : ∀ n ∈ e.graph.nodes, n.closed = true
  tags : ∀ d ∈ e.graph.decls, ∀ t ∈ d.derefs, ∃ n, e.graph.node? t.node = some n
  count : e.stats.nodes = e.graph.nodes.length
  root : fs ≠ [] → e.root = 0
  waiting : ∀ f ∈ e.searcher.pending, Graph.Awaits fs f
  alone : fs = [] → e.searcher.pending.length ≤ 1

/-- An explorer that has not even counted anything. -/
structure Unused (e : Explorer) : Prop extends Fresh e where
  stats : e.stats = {}

theorem Unused.new (options : Options) (program : Program) (entry : Function) :
    Unused { options, program, entry } :=
  ⟨.new .., rfl⟩

theorem Unused.rooted_entered (he : e.Unused) : e.entered.Rooted [] := by
  have hgraph : ∀ s r, enterFunction e.entry {} = (r, s) →
      s.graph.nodes = [] ∧ ∀ d ∈ s.graph.decls, d.derefs = [] := by
    intro s r hs
    obtain ⟨hnodes, hdecls⟩ := (onlyDeclares_enterFunction e.entry).of_eq hs
    exact ⟨hnodes, fun d hd => (hdecls d hd).resolve_left (List.not_mem_nil)⟩
  rcases he.start_cases with ⟨s, searcher, hs, hturn, hentered, hpend⟩ |
    ⟨failure, s, hs, -, hentered⟩
  · obtain ⟨hnodes, hderefs⟩ := hgraph s _ hs
    rw [hentered]
    refine ⟨hturn, .empty hnodes, by simp [hnodes], ?_, by simp [scheduledStats, he.stats, hnodes],
      absurd rfl, ?_, fun _ => ?_⟩
    · intro d hd t ht
      rw [hderefs d hd] at ht
      cases ht
    · intro f hf
      obtain ⟨f', hf', heq⟩ := exists_unnumbered_eq hpend hf
      obtain rfl := List.mem_singleton.mp (List.mem_filter.mp hf').1
      exact .inl ⟨(congrArg Frame.parent heq).symm, rfl⟩
    · have hlen := hpend.length_eq
      rw [List.length_map, List.length_map] at hlen
      exact hlen.trans_le (List.length_filter_le _ _)
  · obtain ⟨hnodes, hderefs⟩ := hgraph s _ hs
    rw [hentered]
    refine ⟨he.turning, .empty hnodes, by simp [hnodes], ?_, by simp [he.stats, hnodes],
      absurd rfl, by simp [he.pending], by simp [he.pending]⟩
    intro d hd t ht
    rw [hderefs d hd] at ht
    cases ht

section
variable (h : e.Rooted fs)
include h

/-- Taking a frame out leaves the rest as it is. -/
theorem Rooted.select {chosen : Option Frame} (hsel : e.searcher.select = (chosen, searcher)) :
    { e with searcher }.Rooted fs := by
  cases chosen with
  | none =>
    obtain ⟨-, hnil, hturn⟩ := Searcher.pending_of_select_none h.turning hsel
    exact { h with turning := hturn, waiting := by simp [hnil], alone := by simp [hnil] }
  | some frame =>
    obtain ⟨hturn, hpend⟩ := Searcher.pending_of_select_some h.turning hsel
    refine { h with turning := hturn, waiting := fun f hf => ?_, alone := fun hnil => ?_ }
    · exact h.waiting f (hpend.mem_iff.mpr (.tail _ hf))
    · have hlen := hpend.length_eq
      rw [List.length_cons] at hlen
      exact (by omega : searcher.pending.length ≤ e.searcher.pending.length).trans (h.alone hnil)

/-- A node whose frame waited can be linked. -/
theorem Rooted.addEdge_ne_error {p : Int} {f : Fault} (hf : frame ∈ e.searcher.pending)
    (hp : frame.parent = some p) :
    e.graph.addNode.2.addEdge p ⟨frame.guard, e.graph.nodes.length⟩ ≠ .error f := by
  obtain ⟨k, rfl, hk⟩ := (h.waiting frame hf).exists_nat hp
  obtain ⟨n, hn, -⟩ := h.spans.node k fs[k] (List.getElem?_eq_getElem hk)
  have hsource : e.graph.addNode.2.node k = .ok n := by
    rw [node, node?_addNode, if_neg (by rw [h.spans.size]; omega), hn]
  have htarget : e.graph.addNode.2.node e.graph.nodes.length = .ok {} := by
    rw [node, node?_addNode, if_pos rfl]
  intro herr
  unfold addEdge at herr
  rw [hsource, htarget] at herr
  cases herr

/-- After a block has been executed, successfully or not, its frame has a node. -/
theorem Rooted.executed {b : Block} {g : Graph} {root : Int} {result : Except Failure (List Frame)}
    {m : Machine} (hsel : e.searcher.select = (some frame, searcher))
    (hx : e.Executes frame b g root result m) :
    (e.executed searcher root m).Rooted (fs ++ [frame]) := by
  obtain ⟨hturn, hpend⟩ := Searcher.pending_of_select_some h.turning hsel
  have hframe := h.waiting frame (hpend.mem_iff.mpr List.mem_cons_self)
  have hlt := h.spans.parent_lt hframe
  have hN : (0 : Int) ≤ e.graph.nodes.length := Int.natCast_nonneg _
  obtain ⟨es, hg⟩ := hx.grown.store
  have hsize := hx.size searcher
  have hnode : ∀ k : Nat, k < e.graph.nodes.length + 1 →
      ∃ n, (e.executed searcher root m).graph.node? k = some n := by
    intro k hk
    rw [← hsize] at hk
    exact ⟨_, by rw [node?_natCast, List.getElem?_eq_getElem hk]⟩
  refine
    { turning := hturn
      spans := ((h.spans.linking hframe hx.link).grows hN hg).modifyNode hN (fun _ => rfl)
        fun _ => rfl
      closed := ?_
      tags := ?_
      count := by rw [hsize, ← h.count]; exact hx.grown.nodes
      root := fun _ => ?_
      waiting := ?_
      alone := fun hnil => absurd hnil (by simp) }
  · intro n hn
    obtain ⟨k, hk⟩ := List.mem_iff_getElem?.mp hn
    rw [← node?_natCast] at hk
    rcases hx.closed_or hlt hk with hc | ⟨n₀, hn₀, hc⟩
    · exact hc
    · rw [node?_natCast] at hn₀
      rw [hc, h.closed n₀ (List.mem_of_getElem? hn₀)]
  · intro d hd t ht
    rcases hx.tag_or hd ht with hnew | ⟨d₀, hd₀, ht₀⟩
    · rw [hnew]
      exact hnode _ (Nat.lt_succ_self _)
    · obtain ⟨n, hn⟩ := h.tags d₀ hd₀ t ht₀
      have hj := lt_length_of_node? hn
      obtain ⟨k, hk⟩ := Int.eq_ofNat_of_zero_le (nonneg_of_node? hn)
      rw [hk] at hj ⊢
      exact hnode k (by omega)
  · cases hx.link with
    | first hnone =>
      rcases hframe with ⟨-, hnil⟩ | ⟨k, hk, -⟩
      · rw [h.spans.size, hnil]
        rfl
      · rw [hnone] at hk
        cases hk
    | edge hsome _ =>
      refine h.root ?_
      rintro rfl
      obtain ⟨k, -, hk⟩ := hframe.exists_nat hsome
      exact absurd hk (Nat.not_lt_zero k)
  · intro f hf
    rcases h.waiting f (hpend.mem_iff.mpr (.tail _ hf)) with ⟨-, hnil⟩ | ⟨k, hk, hlt⟩
    · -- the first frame waits alone, and it has just been taken
      have hlen := hpend.length_eq
      have hone := h.alone hnil
      have hpos : 0 < searcher.pending.length := List.length_pos_of_mem hf
      rw [List.length_cons] at hlen
      omega
    · exact .inr ⟨k, hk, by rw [List.length_append]; omega⟩

/-- Scheduling frames that came from a node. -/
theorem Rooted.foldl_schedule {next : List Frame} (hne : fs ≠ [])
    (hnext : ∀ f ∈ next, Awaits fs f) : (next.foldl schedule e).Rooted fs := by
  obtain ⟨searcher, hsched, hperm⟩ := foldl_schedule_eq e next
  obtain ⟨hturn, hpend⟩ := hperm h.turning
  rw [← List.map_append] at hpend
  rw [hsched]
  refine { h with
    turning := hturn
    waiting := fun f hf => ?_
    alone := fun hnil => absurd hnil hne }
  obtain ⟨f', hf', heq⟩ := exists_unnumbered_eq hpend hf
  have hparent : f'.unnumbered.parent = f.unnumbered.parent := by rw [heq]
  change f'.parent = f.parent at hparent
  have hawaits : Awaits fs f' := (List.mem_append.mp hf').elim
    (fun hf' => hnext f' (List.mem_filter.mp hf').1) (h.waiting f')
  rwa [Awaits, hparent] at hawaits

/-- Every step keeps the tree. -/
theorem Rooted.turn (hs : e.started = true) (ht : e.Turn o e') :
    e'.Rooted (fs ++ e.chosen?.toList) := by
  cases ht with
  | finished hsel =>
    rw [chosen?_of_none hs hsel, Option.toList_none, List.append_nil]
    exact h.select hsel
  | outside hsel hb =>
    rw [chosen?_of_outside hs hsel hb, Option.toList_none, List.append_nil]
    exact h.select hsel
  | unlinked hsel hp hadd =>
    have hmem := (Searcher.pending_of_select_some h.turning hsel).2.mem_iff.mpr List.mem_cons_self
    exact absurd hadd (h.addEdge_ne_error hmem hp)
  | broken hsel hx =>
    rw [chosen?_of_block hs hsel hx.block]
    exact h.executed hsel hx
  | executed hsel hx =>
    rw [chosen?_of_block hs hsel hx.block]
    refine (h.executed hsel hx).foldl_schedule (by simp) fun f hf => ?_
    have hparent := ((Machine.block_succeeds hx.run).1 f hf).parent
    exact .inr ⟨fs.length, by rw [hparent, h.spans.size], by simp⟩

end

theorem Unused.rooted_after (he : e.Unused) (n : Nat) :
    (e.after (n + 1)).Rooted (e.framesOf (n + 1)) :=
  after_induction he.toFresh he.rooted_entered (fun _ _ _ _ hs h ht => h.turn hs ht) n

/-! ## Counting frames -/

/-- A step that does not fail executes every frame that it takes. -/
theorem Turn.frames (ht : e.Turn o e') (hturn : e.searcher.Turning)
    (ho : ∀ f failure, o ≠ .failed f failure)
    (h : e.stats.frames = e.stats.nodes + e.searcher.pending.length) :
    e'.stats.frames = e'.stats.nodes + e'.searcher.pending.length := by
  cases ht with
  | finished hsel =>
    obtain ⟨hnil, hnil', -⟩ := Searcher.pending_of_select_none hturn hsel
    rw [hnil] at h
    simpa [hnil'] using h
  | outside | unlinked | broken => exact absurd rfl (ho _ _)
  | @executed frame searcher b g root m next hsel hx =>
    obtain ⟨hturn', hpend⟩ := Searcher.pending_of_select_some hturn hsel
    have hframes : m.stats.frames = e.stats.frames := hx.grown.frames
    have hnodes : m.stats.nodes = e.stats.nodes + 1 := hx.grown.nodes
    obtain ⟨searcher', hsched, hperm⟩ := foldl_schedule_eq (e.executed searcher root m) next
    have hlen := (hperm hturn').2.length_eq
    have hold := hpend.length_eq
    rw [hsched]
    simp only [List.length_append, List.length_map, ← List.countP_eq_length_filter] at hlen
    rw [List.length_cons] at hold
    simp only [scheduledStats, Explorer.executed] at hlen ⊢
    omega

theorem Unused.frames_entered (he : e.Unused) :
    e.entered.stats.frames = e.entered.stats.nodes + e.entered.searcher.pending.length := by
  rcases he.start_cases with ⟨s, searcher, -, -, hs, hpend⟩ | ⟨failure, s, -, -, hs⟩
  · have hlen := hpend.length_eq
    rw [List.length_map, List.length_map, ← List.countP_eq_length_filter] at hlen
    rw [hs]
    simp only [scheduledStats, he.stats] at hlen ⊢
    omega
  · rw [hs]
    simp [he.stats, he.pending]

/-- As long as no step fails, every scheduled frame has a node or waits. -/
theorem Unused.frames_after (he : e.Unused) {n : Nat}
    (hn : ∀ k < n, ∀ f failure, (e.after k).step.1 ≠ .failed f failure) :
    (e.after n).stats.frames = (e.after n).stats.nodes + (e.after n).searcher.pending.length := by
  induction n with
  | zero => simp [he.stats, he.pending]
  | succ n ih =>
    have hlast := hn n (Nat.lt_succ_self n)
    have hprev := ih fun k hk => hn k (Nat.lt_succ_of_lt hk)
    rw [after_succ]
    cases n with
    | zero =>
      rw [after_zero] at hlast ⊢
      rcases step_eq_of_not_started he.started with ⟨failure, -, hstep⟩ | ⟨-, hstep⟩
      · rw [hstep] at hlast
        exact absurd rfl (hlast _ _)
      · rw [hstep] at hlast ⊢
        exact (step_turn (started_entered e)).frames he.rooted_entered.turning hlast
          he.frames_entered
    | succ n =>
      have hstarted := (he.toFresh.sameTask_after n).started rfl
      exact (step_turn hstarted).frames (he.rooted_after n).turning hlast hprev

end Explorer

/-! ## The tree -/

/-- The graph is a tree, and the numbers of its nodes grow from the root on.  The lists of
successors and predecessors are two views of its edges.  All nodes are closed, and every tag names
one of them. -/
structure Graph.IsRootedTree (g : Graph) (root : Int) : Prop where
  root : ∀ n, g.node? 0 = some n → root = 0 ∧ n.into = []
  parent : ∀ i n, g.node? i = some n → i ≠ 0 → ∃ c p, n.into = [⟨c, p⟩] ∧ 0 ≤ p ∧ p < i
  target : ∀ a n ed, g.node? a = some n → ed ∈ n.out → ∃ n', g.node? ed.target = some n'
  mirrored : ∀ a b n n' c, g.node? a = some n → g.node? b = some n' →
    n.out.count ⟨c, b⟩ = n'.into.count ⟨c, a⟩
  closed : ∀ n ∈ g.nodes, n.closed = true
  tagged : ∀ d ∈ g.decls, ∀ t ∈ d.derefs, ∃ n, g.node? t.node = some n

namespace Graph.Spans

variable {g : Graph} {fs : List Frame} {a : Int} {n : Node}

/-- A node belongs to a frame. -/
theorem exists_frame (h : g.Spans fs) (hn : g.node? a = some n) :
    ∃ (i : Nat) (f : Frame), a = i ∧ fs[i]? = some f ∧ n.into = f.links ∧
      n.out = successors fs i := by
  have hlt := lt_length_of_node? hn
  obtain ⟨i, rfl⟩ := Int.eq_ofNat_of_zero_le (nonneg_of_node? hn)
  have hi : i < fs.length := by
    rw [h.size] at hlt
    exact_mod_cast hlt
  obtain ⟨n', hn', hinto, hout⟩ := h.node i fs[i] (List.getElem?_eq_getElem hi)
  obtain rfl := Option.mem_unique hn hn'
  exact ⟨i, fs[i], rfl, List.getElem?_eq_getElem hi, hinto, hout⟩

/-- A node is a successor as often as the other one is its predecessor. -/
theorem count_eq (h : g.Spans fs) {b : Int} {n' : Node} (c : Option Expr) (hn : g.node? a = some n)
    (hn' : g.node? b = some n') : n.out.count ⟨c, b⟩ = n'.into.count ⟨c, a⟩ := by
  obtain ⟨i, f, rfl, hi, -, hout⟩ := h.exists_frame hn
  obtain ⟨j, f', rfl, hj, hinto, -⟩ := h.exists_frame hn'
  have hmem : (⟨c, (j : Int)⟩ : Edge) ∈ successors fs i ↔ (⟨c, (i : Int)⟩ : Edge) ∈ f'.links := by
    rw [mem_successors, Frame.links]
    constructor
    · rintro ⟨k, f₁, hk, hp, rfl, hkj⟩
      obtain rfl := Int.ofNat.inj hkj
      obtain rfl := Option.mem_unique hj hk
      rw [hp]
      exact List.mem_cons_self
    · intro hmem
      cases hp : f'.parent with
      | none =>
        rw [hp] at hmem
        cases hmem
      | some p =>
        rw [hp] at hmem
        have heq := List.mem_singleton.mp hmem
        obtain rfl := congrArg Edge.guard heq
        obtain rfl : (i : Int) = p := congrArg Edge.target heq
        exact ⟨j, f', hj, hp, rfl, rfl⟩
  have hnodup : f'.links.Nodup := by
    unfold Frame.links
    split
    · exact List.nodup_nil
    · exact List.nodup_singleton _
  rw [hout, hinto, (nodup_successors fs i).count, hnodup.count]
  exact if_congr hmem rfl rfl

end Graph.Spans

namespace Explorer

variable {e : Explorer} {fs : List Frame}

theorem Rooted.isRootedTree (h : e.Rooted fs) : e.graph.IsRootedTree e.root where
  root := by
    intro n hn
    obtain ⟨i, f, hi, hf, hinto, -⟩ := h.spans.exists_frame hn
    obtain rfl := (Int.ofNat.inj hi).symm
    refine ⟨h.root (List.ne_nil_of_mem (List.mem_of_getElem? hf)), ?_⟩
    rcases h.spans.parent 0 f hf with ⟨hnone, -⟩ | ⟨k, -, hk⟩
    · rw [hinto, Frame.links, hnone]
    · omega
  parent := by
    intro i n hn hne
    obtain ⟨i, f, rfl, hf, hinto, -⟩ := h.spans.exists_frame hn
    rcases h.spans.parent i f hf with ⟨-, rfl⟩ | ⟨k, hk, hlt⟩
    · exact absurd rfl hne
    · refine ⟨f.guard, k, ?_, Int.natCast_nonneg k, by exact_mod_cast hlt⟩
      rw [hinto, Frame.links, hk]
  target := by
    intro a n ed hn hed
    obtain ⟨i, -, -, -, -, hout⟩ := h.spans.exists_frame hn
    rw [hout] at hed
    obtain ⟨j, f, hj, -, -, htarget⟩ := mem_successors.mp hed
    obtain ⟨n', hn', -⟩ := h.spans.node j f hj
    exact ⟨n', by rw [htarget, hn']⟩
  mirrored := fun a b n n' c hn hn' => h.spans.count_eq c hn hn'
  closed := h.closed
  tagged := h.tags

/-- After any number of steps, whether they failed or not, the graph is a rooted tree, its nodes are
counted, and if no step has failed, every scheduled frame has a node or waits. -/
theorem after_isRootedTree (he : e.Unused) (n : Nat) :
    (e.after n).graph.IsRootedTree (e.after n).root ∧
      (e.after n).stats.nodes = (e.after n).graph.nodes.length ∧
      ((∀ k < n, ∀ f failure, (e.after k).step.1 ≠ .failed f failure) →
        (e.after n).stats.frames =
          (e.after n).stats.nodes + (e.after n).searcher.pending.length) := by
  refine ⟨?_, ?_, he.frames_after⟩
  · cases n with
    | zero =>
      rw [after_zero, he.graph]
      have hnone : ∀ i, (Graph.node? {} i) = none := fun i => by simp [Graph.node?, nth?]
      constructor <;> simp [hnone]
    | succ n => exact (he.rooted_after n).isRootedTree
  · cases n with
    | zero => simp [he.stats, he.graph]
    | succ n => exact (he.rooted_after n).count

/-! ## A step that fails in the middle -/

/-- Reads behind a pointer and goes on at a block that exists, or at one that does not. -/
def brokenBranch : Explorer where
  entry := {
    name := "broken"
    locals := [⟨"", .integer⟩, ⟨"p", .pointer "*int" .integer⟩]
    argCount := 1
    blocks := [
      ⟨[.assign ⟨0, 0⟩ (.use (.copy ⟨1, 1⟩)) {}], .switch (.copy ⟨0, 0⟩) [0] [1, 9] {}⟩,
      ⟨[], .return⟩] }

/-- The second step fails, and the third one still adds a node to the tree. -/
theorem brokenBranch_isRootedTree :
    (∃ f failure, (brokenBranch.after 1).step.1 = .failed f failure) ∧
      (brokenBranch.after 3).graph.IsRootedTree (brokenBranch.after 3).root ∧
      (brokenBranch.after 3).stats.nodes = 2 ∧
      (brokenBranch.after 1).searcher.pending.length = 2 ∧
      (brokenBranch.after 1).stats.frames = (brokenBranch.after 1).stats.nodes + 2 := by
  have hfailed : (match (brokenBranch.after 1).step.1 with
      | .failed _ _ => true
      | _ => false) = true := by decide +kernel
  have hfirst : (match (brokenBranch.after 0).step.1 with
      | .failed _ _ => true
      | _ => false) = false := by decide +kernel
  have hpending : (brokenBranch.after 1).searcher.pending.length = 2 := by decide +kernel
  have hnodes : (brokenBranch.after 3).graph.nodes.length = 2 := by decide +kernel
  obtain ⟨htree, hcount, -⟩ := after_isRootedTree (e := brokenBranch) (.new ..) 3
  obtain ⟨-, -, hframes⟩ := after_isRootedTree (e := brokenBranch) (.new ..) 1
  refine ⟨?_, htree, hcount.trans hnodes, hpending, hpending ▸ hframes fun k hk f failure heq => ?_⟩
  · split at hfailed
    · next f failure heq => exact ⟨f, failure, heq⟩
    · cases hfailed
  · obtain rfl : k = 0 := by omega
    rw [heq] at hfirst
    cases hfirst

end Explorer
end NullPath
