import NullPath.Proofs.Resumption
import NullPath.Proofs.Twins

/-!
# Visits and their shadows

An exploration that follows calls is compared with one that does not.  Outside of calls, a frame of
the first one has a shadow in the second one: both are one frame of a replay up to renamings.  If a
visit makes no call, the shadow does the same, and what both hand on are a frame and its shadow
again.  If it follows a call, the shadow has skipped the call, and waits at what it handed on until
the call has returned.

The shadow never asserts more: a guard or an assertion of the shadow, with its names replaced, is
one of the frame.

* `Graph.factsOn`: the guards and assertions on a path.
* `Frame.Shadowed.exists_tied`: what visits of a frame and of its shadow have in common.
* `Visit.Renamed.exists_shadowed`, `Frame.Suspended.goOn`, `Frame.Suspended.exists_shadowed`: what
  they hand on.
-/

namespace NullPath

variable {ρ σ : Name ↪ Name} {i j j' : Nat} {options options' : Options} {program : Program}
  {s₀ : Store} {F' F : List Expr} {w w' : Visit} {f : Frame}

theorem Memory.Renamed.mentions {m m' : Memory} (h : m.Renamed ρ m') {n : Name}
    (hn : m.Mentions n) : m'.Mentions (ρ n) := by
  cases hn with
  | @value x b hx =>
    have hx' := h.locals.get? x
    rw [hx] at hx'
    exact .value hx'
  | @address x n hx =>
    have hx' := h.addrs.get? x
    rw [hx] at hx'
    exact .address hx'
  | pointer hp =>
    have hp' := h.pointees.get? n
    rw [hp] at hp'
    exact .pointer hp'
  | @pointee p b hp =>
    have hp' := h.pointees.get? p
    rw [hp] at hp'
    exact .pointee hp'

namespace Store.Mapped

variable {s t : Store}

theorem exists_declaration (h : s.Mapped ρ t) {n : Name} {d : Declaration}
    (hd : s.graph.decls[n.index]? = some d) :
    ∃ d', t.graph.declaration? (ρ n) = some d' ∧ d'.name = ρ d.name ∧ d'.sort = d.sort := by
  have hx := h.names n _ (Graph.signature_eq_some.mpr ⟨d, hd, rfl⟩)
  obtain ⟨d', hd', heq⟩ := Graph.signature_eq_some.mp hx
  obtain ⟨hname, hsort⟩ := Prod.mk.inj heq
  exact ⟨d', hd', hname, hsort⟩

/-- A renaming keeps everything in scope. -/
theorem scope (h : s.Mapped ρ t) (ht : t.Scoped) : s.Scoped where
  tidy := by
    intro k d hd
    obtain ⟨d', hd', hname, hsort⟩ := h.exists_declaration hd
    obtain ⟨hname', hsort'⟩ := ht.tidy _ d' hd'
    exact ⟨ρ.injective (hname.symm.trans hname'), hsort ▸ hsort'⟩
  fresh := fun _ _ => trivial
  mentions := fun n hn =>
    ⟨trivial, h.beyond.index_lt_iff.mp (ht.mentions _ (h.memory.mentions hn)).2⟩

end Store.Mapped

/-- What was asserted at a new node is in scope, and the node is still open. -/
theorem Store.Evolves.of_new_node {P : Name → Prop} {es : List Expr} {s s' : Store}
    (h : s.Evolves P i es s') {links : List Edge} (hn : s.graph.node? i = some { into := links })
    {n : Node} (hn' : s'.graph.node? i = some n) :
    (∀ c ∈ n.exprs, c.Sorted (s'.graph.uses P)) ∧ n.closed = false := by
  rw [h.grows.node?, Graph.node?_modifyNode (Int.natCast_nonneg i), if_pos rfl, hn] at hn'
  cases hn'
  exact ⟨fun c hc => (h.asserts c hc).sorted, rfl⟩

/-- A call that is followed under the one options only. -/
theorem Machine.exists_followed {depth : Nat} {t : Terminator} (hno : options'.inlineCalls = false)
    (h : ¬ FollowsAlike options' options program depth t) :
    ∃ callee args dest next span f, t = .call callee args (some dest) next span ∧
      options.followed program depth callee = some f := by
  simp only [FollowsAlike, not_forall] at h
  obtain ⟨callee, args, dest, next, span, rfl, hne⟩ := h
  cases hf : options.followed program depth callee with
  | none =>
    rw [hf, Options.followed, hno] at hne
    exact absurd rfl hne
  | some f => exact ⟨callee, args, dest, next, span, f, rfl, hf⟩

/-- Up to a point, a visit does what a replay does.  Later the replay asserts nothing, and the visit
tags nothing. -/
structure Visit.Tied (ρ : Name ↪ Name) (j : Nat) (r w : Visit) (s t : Store) : Prop where
  guard : w.frame.guard = r.frame.guard.map (Expr.rename ρ)
  guarded : ∀ c, r.frame.guard = some c → c.Sorted fun n _ => n.index < s.graph.decls.length
  store : s.Renamed ρ 0 j t
  scope : t.Scoped
  asserts : ∀ n, t.graph.node? j = some n → ∀ c ∈ n.exprs, c.Sorted t.graph.uses
  opened : ∀ n, t.graph.node? j = some n → n.closed = false
  quiet : s.graph.Grows 0 [] r.left.store.graph
  grows : ∃ es, t.graph.Grows j es w.left.store.graph
  tags : ∀ d ∈ w.left.store.graph.decls, d ∈ t.graph.decls ∨ d.derefs = []

namespace Frame.Resumes

variable {options options' : Options} {program : Program} {decls : List Declaration} {r : Frame}
  {g : Graph} {j : Nat} {w : Visit} {next : List Frame} {m : Machine}

/-- The guard of a replay is about names that are declared. -/
theorem guard_sorted {f' : Frame} (h : r.Resumes ρ decls g f') {c : Expr} (hc : r.guard = some c) :
    c.Sorted fun n _ => n.index < decls.length := by
  have hguard := h.frame.guard
  rw [hc, Option.map_some] at hguard
  exact (h.guard _ hguard).of_rename.mono fun n s hn =>
    h.beyond.index_lt_iff.mp (Graph.index_lt_of_uses hn)

variable (h : r.Resumes ρ decls g w.frame) (hw : w.Valid options program j)
  (hg : g.Extends w.entered.store.graph)
  (hclean : ∀ d ∈ w.entered.store.graph.decls, ∀ tag ∈ d.derefs, tag.node ≠ j)
  (hrun : Machine.block options' program r.visit r.replayEnv w.block (replayed decls r) = (.ok next, m))
include h hw hg hclean hrun

/-- A visit that makes no call, or one that neither of the options follow, does what a replay does
that follows no calls. -/
theorem exists_tied_plain
    (halike : Machine.FollowsAlike options' options program r.depth w.block.terminator) :
    ∃ ρ' : Name ↪ Name, (∀ n, n.index < decls.length → ρ' n = ρ n) ∧
      decls.length ≤ m.store.graph.decls.length ∧
      Visit.Renamed ρ' j ⟨r, w.block, replayed decls r, m, next⟩ w ∧
      Visit.Tied ρ' j ⟨r, w.block, replayed decls r, m, next⟩ w m.store w.left.store := by
  obtain ⟨ρ', next', m', hsame, hrun', hrv⟩ := h.exists_replay halike hw hg hclean
  cases hrun.symm.trans hrun'
  obtain ⟨n, hn, -, hev, -, -⟩ := hw.evolves hw.scope
  obtain ⟨es, hreplay, -⟩ := Machine.block_evolves (hrv.entered.mapped.scope hw.scope) hrun
  have hlength : decls.length ≤ m.store.graph.decls.length := by
    have hle := hreplay.grows.length_le
    rwa [replayed, List.length_map] at hle
  refine ⟨ρ', hsame, hlength, hrv, hrv.frame.guard, fun c hc => ?_, hrv.left, hev.scope,
    fun n hn => (hev.of_new_node hw.node hn).1, fun n hn => (hev.of_new_node hw.node hn).2,
    .refl, ⟨[], .refl⟩, fun d => .inl⟩
  exact (h.guard_sorted hc).mono fun n _ hn => Nat.lt_of_lt_of_le hn hlength

/-- A visit that follows a call does what a replay does until the arguments have been evaluated.
Then the replay gives the destination a new name, and the visit enters the callee. -/
theorem exists_tied_call (hcallers : r.callers = []) (hno : options'.inlineCalls = false)
    (hfollows : ¬ Machine.FollowsAlike options' options program r.depth w.block.terminator)
    (hmemory : w.frame.memory.Confined .start 0) :
    ∃ (ρ' : Name ↪ Name) (s t : Store) (B : Boundary) (caller : Caller) (f : Frame),
      (∀ n, n.index < decls.length → ρ' n = ρ n) ∧ decls.length ≤ s.graph.decls.length ∧
      Visit.Tied ρ' j ⟨r, w.block, replayed decls r, m, next⟩ w s t ∧
      Machine.Detour B ρ' s m.store t caller ∧ caller.function = r.function ∧
      next = [r.visit.fork m.store.memory caller.next none 0] ∧
      w.next = [f] ∧ f.callers = [caller] ∧ f.memory.Confined B 1 := by
  obtain ⟨ρ', hsame, hframe, hopen⟩ := h.exists_opening hg hw.memory hw.node hclean
  obtain ⟨callee, args, dest, target, span, body, hterm, hbody⟩ :=
    Machine.exists_followed hno hfollows
  have hfunction : w.frame.function = r.function := hframe.function
  have hcallers' : w.frame.callers = [] := hframe.callers.trans hcallers
  have henv : w.env j = { r.replayEnv with node := j } := by
    rw [Visit.env, replayEnv, hfunction, Frame.depth, Frame.depth, hcallers, hcallers']
  have hnone : options'.followed program r.visit.depth callee = none := by
    rw [Options.followed, hno]
    rfl
  obtain ⟨s₁, values, s, n, hst, hargs, hwrite, hnext⟩ := Machine.block_skips hterm hrun hnone
  have hbody : options.followed program w.frame.visit.depth callee = some body := by
    rwa [Frame.depth, hcallers, ← hcallers'] at hbody
  obtain ⟨t₁, values', t, t', hst', hargs', hpass, hgraph, hnext'⟩ :=
    Machine.block_follows hterm hw.run hbody
  -- until the arguments have been evaluated, both do the same
  have hstore : s.Renamed ρ' 0 j t := by
    rw [henv] at hst' hargs'
    have hstore₁ :=
      ((Store.mirrors_statements r.replayEnv w.block.statements).of_ok hopen hst hst').1
    exact ((Store.mirrors_operands { r.replayEnv with span } args).of_ok hstore₁ hargs hargs').1
  obtain ⟨es, hev₁, -⟩ := hw.scope.statements hst'
  have hev := hev₁.trans (hev₁.scope.operands hargs').1
  obtain ⟨es', hreplay₁, -⟩ := (hopen.mapped.scope hw.scope).statements hst
  have hreplay := hreplay₁.trans (hreplay₁.scope.operands hargs).1
  have hdepth : w.frame.depth = 0 := congrArg List.length hcallers'
  have hinside : (w.env j).Inside .start 0 := ⟨congrArg Nat.cast hdepth, Nat.le_refl 0, by decide⟩
  have hentered : w.entered.store.Confined .start 0 :=
    ⟨hw.memory ▸ hmemory, Nat.zero_le _, hw.scope.tidy⟩
  have hconfined := (hentered.statements hinside hst').operands (hinside.withSpan span) hargs'
  obtain ⟨B, hB, hnames, hmem, hcallee⟩ := hconfined.exists_callee hev.scope (by decide)
    (congrArg (fun k : Nat => (k : Int) + 1) hdepth) hpass
  have hlength : decls.length ≤ s.graph.decls.length := by
    have hle := hreplay.grows.length_le
    rwa [replayed, List.length_map] at hle
  have htied : Visit.Tied ρ' j ⟨r, w.block, replayed decls r, m, next⟩ w s t := by
    refine ⟨hframe.guard, fun c hc => (h.guard_sorted hc).mono fun n _ hn =>
      Nat.lt_of_lt_of_le hn hlength, hstore, hev.scope, fun n hn => (hev.of_new_node hw.node hn).1,
      fun n hn => (hev.of_new_node hw.node hn).2, (hreplay.scope.writeFresh hwrite).1.grows, ?_, ?_⟩
    · rw [hgraph]
      exact (Store.follows_passArguments _ 1 values').of_eq hpass
    · rw [hgraph]
      exact Store.derefs_passArguments hpass
  refine ⟨ρ', s, t, B, ⟨w.frame.function, w.frame.block, dest, target⟩, _, hsame, hlength, htied,
    ⟨hB, hnames, hmem, hstore.mapped, hev.scope, { r.replayEnv with span }, n, hfunction.symm,
      congrArg (fun cs => (cs.length : Int)) hcallers, hwrite⟩,
    hfunction, hnext, hnext', congrArg _ hcallers', hcallee⟩

end Frame.Resumes

/-! ## Facts -/

namespace Graph

/-- The guards under which a node is entered, and its assertions. -/
def factsAt (g : Graph) (a : Int) : List Expr :=
  match g.node? a with
  | none => []
  | some n => n.into.filterMap Edge.guard ++ n.exprs

/-- The guards and the assertions of some nodes. -/
def factsOn (g : Graph) (ns : List Int) : List Expr :=
  ns.flatMap g.factsAt

theorem factsOn_append (g : Graph) (ns : List Int) (a : Int) :
    g.factsOn (ns ++ [a]) = g.factsOn ns ++ g.factsAt a := by
  rw [factsOn, List.flatMap_append, List.flatMap_singleton]
  rfl

end Graph

theorem Explorer.Logged.mem_factsAt {e : Explorer} {vs : List Visit} {v : Visit}
    (hl : Logged s₀ e vs) (hv : vs[i]? = some v) {c : Expr} :
    c ∈ e.graph.factsAt i ↔ v.frame.guard = some c ∨
      ∃ n, v.left.store.graph.node? i = some n ∧ c ∈ n.exprs := by
  obtain ⟨n, n', hn, hn', hexprs, hinto⟩ := hl.node hv
  have hguard : c ∈ n.into.filterMap Edge.guard ↔ v.frame.guard = some c := by
    rw [hinto, Frame.links]
    cases hp : v.frame.parent with
    | some p => simp
    | none =>
      -- only the first frame has no parent, and it has no guard
      obtain rfl := hl.eq_zero_of_parent_none hv hp
      have hnone : v.frame.guard = none := congrArg Frame.guard (hl.first_of_zero hv)
      simp [hnone]
  rw [Graph.factsAt, hn]
  simp only [List.mem_append, hguard, hexprs, hn', Option.some.injEq, exists_eq_left']

/-- Facts about names of a replay, under two renamings that leave the names of the entry alone.
Those under the one are known under the other. -/
structure Bond (s₀ : Store) (l : Nat) (σ ρ : Name ↪ Name) (F' F : List Expr) : Prop where
  le : s₀.graph.decls.length ≤ l
  fixed : ∀ n : Name, n.index < s₀.graph.decls.length → σ n = n ∧ ρ n = n
  carries : ∀ c ∈ F', ∃ x : Expr, x.Sorted (fun n _ => n.index < l) ∧ x.rename σ = c ∧
    x.rename ρ ∈ F

namespace Bond

variable {s₀ : Store} {l l' : Nat} {σ' ρ' : Name ↪ Name} {F' F G' G : List Expr}

theorem extend (h : Bond s₀ l σ ρ F' F) (hl : l ≤ l') (hσ : ∀ n, n.index < l → σ' n = σ n)
    (hρ : ∀ n, n.index < l → ρ' n = ρ n) : Bond s₀ l' σ' ρ' F' F where
  le := h.le.trans hl
  fixed := by
    intro n hn
    have hlt := Nat.lt_of_lt_of_le hn h.le
    rw [hσ n hlt, hρ n hlt]
    exact h.fixed n hn
  carries := by
    intro c hc
    obtain ⟨x, hx, rfl, hmem⟩ := h.carries c hc
    refine ⟨x, hx.mono fun n _ hn => Nat.lt_of_lt_of_le hn hl, ?_, ?_⟩
    · exact hx.rename_congr fun n _ hn => hσ n hn
    · rwa [hx.rename_congr fun n _ hn => hρ n hn]

theorem mono (h : Bond s₀ l σ ρ F' F) (hG : F ⊆ G) : Bond s₀ l σ ρ F' G where
  le := h.le
  fixed := h.fixed
  carries := by
    intro c hc
    obtain ⟨x, hx, hσ, hmem⟩ := h.carries c hc
    exact ⟨x, hx, hσ, hG hmem⟩

theorem append (h : Bond s₀ l σ ρ F' F)
    (hnew : ∀ c ∈ G', ∃ x : Expr, x.Sorted (fun n _ => n.index < l) ∧ x.rename σ = c ∧
      x.rename ρ ∈ G) : Bond s₀ l σ ρ (F' ++ G') (F ++ G) where
  le := h.le
  fixed := h.fixed
  carries := by
    intro c hc
    rcases List.mem_append.mp hc with hc | hc
    · obtain ⟨x, hx, hσ, hmem⟩ := h.carries c hc
      exact ⟨x, hx, hσ, List.mem_append_left _ hmem⟩
    · obtain ⟨x, hx, hσ, hmem⟩ := hnew c hc
      exact ⟨x, hx, hσ, List.mem_append_right _ hmem⟩

end Bond

/-! ## What a visit and its shadow leave behind -/

namespace Visit.Tied

variable {s₀ : Store} {e e' : Explorer} {vs vs' : List Visit} {j j' : Nat} {r w w' : Visit}
  {s t : Store}

variable (h : r.Tied ρ j w s t)
include h

/-- The node of the replay has the assertions that it had up to the point. -/
theorem exprs_eq {n n' : Node} (hn : s.graph.node? 0 = some n)
    (hn' : r.left.store.graph.node? 0 = some n') : n'.exprs = n.exprs := by
  rw [h.quiet.node?, Graph.node?_modifyNode (Int.le_refl 0), if_pos rfl, hn] at hn'
  cases hn'
  exact List.append_nil _

theorem extends_graph : t.graph.Extends (w.graph j) := by
  obtain ⟨es, hes⟩ := h.grows
  have hj := Int.natCast_nonneg j
  exact (Graph.Extends.of_grows hes hj h.opened).trans (.close hj)

/-- What the shadow of a visit asserts is asserted by the visit. -/
theorem carries (hr : r.Renamed σ j' w') (hl : Explorer.Logged s₀ e vs)
    (hl' : Explorer.Logged s₀ e' vs') (hw : vs[j]? = some w) (hw' : vs'[j']? = some w') :
    ∀ c ∈ e'.graph.factsAt j', ∃ x : Expr, x.Sorted (fun n _ => n.index < s.graph.decls.length) ∧
      x.rename σ = c ∧ x.rename ρ ∈ e.graph.factsAt j := by
  intro c hc
  rcases (hl'.mem_factsAt hw').mp hc with hguard | ⟨n', hn', hc⟩
  · rw [hr.frame.guard] at hguard
    obtain ⟨x, hx, rfl⟩ := Option.map_eq_some_iff.mp hguard
    refine ⟨x, h.guarded x hx, rfl, (hl.mem_factsAt hw).mpr (.inl ?_)⟩
    rw [h.guard, hx, Option.map_some]
  · obtain ⟨n₁, n₁', hn₁, hn₁', -, hexprs⟩ := hr.left.node
    obtain rfl := Option.mem_unique hn₁' hn'
    obtain ⟨n, m, hn, hm, -, hm'⟩ := h.store.node
    rw [hexprs, h.exprs_eq hn hn₁] at hc
    obtain ⟨x, hx, rfl⟩ := List.mem_map.mp hc
    have hmem : x.rename ρ ∈ m.exprs := by
      rw [hm']
      exact List.mem_map_of_mem hx
    refine ⟨x, (h.asserts m hm _ hmem).of_rename.mono fun k s hk =>
      h.store.beyond.index_lt_iff.mp (Graph.index_lt_of_uses hk), rfl,
      (hl.mem_factsAt hw).mpr (.inr ?_)⟩
    obtain ⟨es, hes⟩ := h.grows
    refine ⟨{ m with exprs := m.exprs ++ es }, ?_, List.mem_append_left es hmem⟩
    rw [hes.node?, Graph.node?_modifyNode (Int.natCast_nonneg j), if_pos rfl, hm]
    rfl

/-- A name that a visit tags is tagged by the replay. -/
theorem exists_tag (htidy : w.left.store.graph.Tidy) {x : Name} {d : Declaration}
    (hd : w.left.store.graph.declaration? x = some d) (hne : d.spansAt j ≠ []) :
    ∃ n d', n.index < s.graph.decls.length ∧ ρ n = x ∧
      r.left.store.graph.declaration? n = some d' ∧ d'.spansAt 0 ≠ [] := by
  have hderefs : d.derefs ≠ [] := by
    intro hnil
    exact hne (by rw [Declaration.spansAt, hnil]; rfl)
  have ht : t.graph.declaration? x = some d := by
    have hmem := (h.tags d (List.mem_of_getElem? hd)).resolve_right hderefs
    obtain ⟨k, hk⟩ := List.mem_iff_getElem?.mp hmem
    have hname : x = ⟨k⟩ := (htidy _ d hd).1.symm.trans (h.scope.tidy k d hk).1
    rw [hname]
    exact hk
  obtain ⟨n, rfl⟩ := h.store.tagged x d ht hne
  have hn := h.store.beyond.index_lt_iff.mp (lt_length_of_getElem? ht)
  obtain ⟨d₁, hd₁, hdd⟩ := h.store.decls n _ (List.getElem?_eq_getElem hn)
  obtain rfl := Option.mem_unique hd₁ ht
  obtain ⟨d', hd', hgain⟩ := h.quiet.decls n.index _ (List.getElem?_eq_getElem hn)
  refine ⟨n, d', hn, rfl, hd', fun hnil => hne ?_⟩
  obtain ⟨ts, hts, -⟩ := hgain.derefs
  rw [Declaration.spansAt, hts, List.filter_append, List.map_append, List.append_eq_nil_iff] at hnil
  rw [hdd.tags]
  exact hnil.1

end Visit.Tied

/-! ## Shadows -/

/-- A frame of the entry function and its shadow: two explorations have come through the same blocks
of this function, and the second one has followed no calls. -/
structure Frame.Shadowed (s₀ : Store) (F' F : List Expr) (g' : Graph) (f' : Frame) (g : Graph)
    (f : Frame) : Prop where
  callers : f.callers = []
  path : f'.path.Sublist f.path
  replay : ∃ decls r σ ρ, Frame.Resumes σ decls r g' f' ∧
    r.Resumes ρ decls g f ∧ Bond s₀ decls.length σ ρ F' F

/-- A frame inside of a call that the entry function made, and the visit that shadows the call. -/
structure Frame.Suspended (s₀ : Store) (F' F : List Expr) (j' : Nat) (w' r : Visit)
    (σ ρ : Name ↪ Name) (s t : Store) (B : Boundary) (caller : Caller) (g : Graph) (f : Frame) :
    Prop where
  shadow : r.Renamed σ j' w'
  entry : r.frame.callers = []
  call : Machine.Detour B ρ s r.left.store t caller
  function : caller.function = r.frame.function
  next : r.next = [r.frame.visit.fork r.left.store.memory caller.next none 0]
  extends_ : t.graph.Extends g
  callers : f.callers.getLast? = some caller
  memory : f.memory.Confined B f.depth
  path : w'.frame.visit.path.Sublist f.path
  bond : Bond s₀ s.graph.decls.length σ ρ F' F

/-- After the point up to which a visit does what a replay does, there is nothing left, or the visit
follows a call that the replay skips. -/
inductive Visit.PartsAt (ρ : Name ↪ Name) (j : Nat) (r w : Visit) (s t : Store) : Prop
  | ends : s = r.left.store → r.Renamed ρ j w → PartsAt ρ j r w s t
  | calls {B : Boundary} {caller : Caller} {f : Frame} :
    Machine.Detour B ρ s r.left.store t caller → caller.function = r.frame.function →
    r.next = [r.frame.visit.fork r.left.store.memory caller.next none 0] → w.next = [f] →
    f.callers = [caller] → f.memory.Confined B 1 → PartsAt ρ j r w s t

/-- When both frames are visited, the visits do the same, until the first one follows a call. -/
theorem Frame.Shadowed.exists_tied {g' g : Graph} (h : Frame.Shadowed s₀ F' F g' w'.frame g w.frame)
    (hw' : w'.Valid options' program j') (hw : w.Valid options program j)
    (hno : options'.inlineCalls = false) (hmemory : w.frame.memory.Confined .start 0)
    (hg' : g'.Extends w'.entered.store.graph) (hg : g.Extends w.entered.store.graph)
    (hclean' : ∀ d ∈ w'.entered.store.graph.decls, ∀ tag ∈ d.derefs, tag.node ≠ j')
    (hclean : ∀ d ∈ w.entered.store.graph.decls, ∀ tag ∈ d.derefs, tag.node ≠ j) :
    ∃ (r : Visit) (σ ρ : Name ↪ Name) (s t : Store), r.Renamed σ j' w' ∧ r.frame.callers = [] ∧
      r.Tied ρ j w s t ∧ Bond s₀ s.graph.decls.length σ ρ F' F ∧
      r.PartsAt ρ j w s t := by
  obtain ⟨decls, r, σ, ρ, hr', hr, hbond⟩ := h.replay
  have hcallers : r.callers = [] := hr.frame.callers.symm.trans h.callers
  have hblock : w'.block = w.block := by
    have hsame := hr'.frame.toAlike.block?_eq.trans hr.frame.toAlike.block?_eq.symm
    rw [hw'.block] at hsame
    exact Option.some.inj (hsame.trans hw.block)
  obtain ⟨σ', next, m, hσ, hrun, hrw'⟩ := hr'.exists_replay (.refl _ _ _ _) hw' hg' hclean'
  rw [hblock] at hrun hrw'
  by_cases halike : Machine.FollowsAlike options' options program r.depth w.block.terminator
  · obtain ⟨ρ', hρ, hlength, hrw, htied⟩ := hr.exists_tied_plain hw hg hclean hrun halike
    exact ⟨_, σ', ρ', m.store, w.left.store, hrw', hcallers, htied, hbond.extend hlength hσ hρ,
      .ends rfl hrw⟩
  · obtain ⟨ρ', s, t, B, caller, f, hρ, hlength, htied, hcall, hfunction, hnext, hnext', hf, hB⟩ :=
      hr.exists_tied_call hw hg hclean hrun hcallers hno halike hmemory
    exact ⟨_, σ', ρ', s, t, hrw', hcallers, htied, hbond.extend hlength hσ hρ,
      .calls hcall hfunction hnext hnext' hf hB⟩

namespace Frame.Shadowed

variable {s₀ : Store} {F' F : List Expr} {g' g : Graph} {f' f : Frame}

theorem of_unnumbered (h : Frame.Shadowed s₀ F' F g' f'.unnumbered g f.unnumbered) :
    Frame.Shadowed s₀ F' F g' f' g f := by
  obtain ⟨decls, r, σ, ρ, hr', hr, hbond⟩ := h.replay
  exact ⟨h.callers, h.path, decls, r, σ, ρ, hr'.of_unnumbered, hr.of_unnumbered, hbond⟩

variable (h : Frame.Shadowed s₀ F' F g' f' g f)
include h

/-- Both frames stand at the same block. -/
theorem location_eq : f'.location = f.location := by
  obtain ⟨decls, r, σ, ρ, hr', hr, -⟩ := h.replay
  have hfunction : f'.function = f.function := hr'.frame.function.trans hr.frame.function.symm
  have hblock : f'.block = f.block := hr'.frame.block.trans hr.frame.block.symm
  rw [location, location, hfunction, hblock]

theorem depth_eq : f'.depth = 0 := by
  obtain ⟨decls, r, σ, ρ, hr', hr, -⟩ := h.replay
  exact congrArg List.length (hr'.frame.callers.trans (hr.frame.callers.symm.trans h.callers))

/-- The shadow may go on where the frame may: it has executed the block at most as often. -/
theorem admits (hunroll : options'.maxUnroll = options.maxUnroll) (hadm : options.admits f = true) :
    options'.admits f' = true := by
  have hle : f'.seen f'.location ≤ f.seen f.location := by
    rw [h.location_eq]
    exact h.path.count_le _
  rw [Options.admits, decide_eq_true_iff] at hadm ⊢
  omega

end Frame.Shadowed

/-- Without a call to follow, a visit and its shadow hand on frames and their shadows. -/
theorem Visit.Renamed.exists_shadowed {c : Nat} {r : Visit} (hr' : r.Renamed σ j' w')
    (hr : r.Renamed ρ j w) (hentry : r.frame.callers = []) (hw' : w'.Valid options' program j')
    (hw : w.Valid options program j) (hno : options'.inlineCalls = false)
    (hpath : w'.frame.path.Sublist w.frame.path)
    (hbond : Bond s₀ r.left.store.graph.decls.length σ ρ F' F) (hf : w.next[c]? = some f) :
    ∃ f', w'.next[c]? = some f' ∧ Frame.Shadowed s₀ F' F (w'.graph j') f' (w.graph j) f := by
  have hrc : c < r.next.length := by
    rw [hr.next.length_eq]
    exact lt_length_of_getElem? hf
  have hwc : c < w'.next.length := by rwa [← hr'.next.length_eq]
  have hf' : w'.next[c]? = some w'.next[c] := List.getElem?_eq_getElem hwc
  have hrf := hr.resumes hw (List.getElem?_eq_getElem hrc) hf
  have hrf' := hr'.resumes hw' (List.getElem?_eq_getElem hrc) hf'
  have hsucc := hw'.succeeds (List.mem_of_getElem? hf')
  have hcallers : w'.next[c].callers = [] := by
    have hnil : w'.frame.visit.callers = [] := hr'.frame.callers.trans hentry
    rcases hsucc.stack with ⟨-, hcs⟩ | ⟨-, hin, -⟩ | ⟨caller, -, hcs⟩
    · exact hcs.trans hnil
    · rw [hno] at hin
      cases hin
    · rw [hnil] at hcs
      cases hcs
  refine ⟨_, hf', ?_, ?_, _, _, σ, ρ, hrf', hrf, hbond⟩
  · exact hrf.frame.callers.trans (hrf'.frame.callers.symm.trans hcallers)
  · rw [hsucc.path, (hw.succeeds (List.mem_of_getElem? hf)).path,
      Frame.visit, Frame.visit, hr'.frame.toAlike.location, hr.frame.toAlike.location]
    exact hpath.cons_cons _

theorem Frame.depth_pos {caller : Caller} (h : f.callers.getLast? = some caller) : 0 < f.depth := by
  refine List.length_pos_iff.mpr fun hnil => ?_
  rw [hnil] at h
  cases h

namespace Frame.Suspended

variable {s₀ : Store} {F' F : List Expr} {options options' : Options} {program : Program}
  {i j' : Nat} {v w' r : Visit} {s t : Store} {B : Boundary} {caller : Caller} {g : Graph}
  {f : Frame}

theorem mono (h : Frame.Suspended s₀ F' F j' w' r σ ρ s t B caller g f) {G : List Expr}
    (hG : F ⊆ G) : Frame.Suspended s₀ F' G j' w' r σ ρ s t B caller g f :=
  { h with bond := h.bond.mono hG }

variable (h : Frame.Suspended s₀ F' F j' w' r σ ρ s t B caller g v.frame)
  (hv : v.Valid options program i) (hf : f ∈ v.next)
include h hv hf

/-- A visit inside of the call hands on frames that are inside of the call or have returned. -/
theorem stack :
    (f.callers = [] ∧ v.frame.callers = [caller]) ∨ f.callers.getLast? = some caller := by
  obtain ⟨cs, hcs⟩ := List.getLast?_eq_some_iff.mp h.callers
  rcases (hv.succeeds hf).callers_cases ⟨cs, hcs.symm⟩ with
    ⟨hcall, hnil⟩ | ⟨cs', hcs'⟩
  · exact .inl ⟨hnil, hcall⟩
  · exact .inr (List.getLast?_eq_some_iff.mpr ⟨cs', hcs'.symm⟩)

/-- A frame that is still inside of the call. -/
theorem goOn (hg : g.Extends v.entered.store.graph) (hcallers : f.callers.getLast? = some caller)
    (hmemory : f.Confined B) (hlt : f.depth < 0x100000000) :
    Frame.Suspended s₀ F' F j' w' r σ ρ s t B caller (v.graph i) f := by
  have hpath : f.path = v.frame.location :: v.frame.path := (hv.succeeds hf).path
  refine { h with
    extends_ := h.extends_.trans (hg.trans hv.extends_graph)
    callers := hcallers
    memory := hmemory (h.call.depth ▸ depth_pos hcallers) (.inl hlt)
    path := ?_ }
  rw [hpath]
  exact h.path.cons _

/-- A frame that has returned to the entry function. -/
theorem exists_shadowed (hw' : w'.Valid options' program j') (hg : g.Extends v.entered.store.graph)
    (hcallers : f.callers = []) (hcall : v.frame.callers = [caller]) :
    ∃ f', w'.next[0]? = some f' ∧ Frame.Shadowed s₀ F' F (w'.graph j') f' (v.graph i) f := by
  have hdepth : v.frame.depth = 1 := congrArg List.length hcall
  have hmemory := h.memory
  rw [hdepth, ← hv.memory] at hmemory
  have hext := h.extends_.trans hg
  have hcall : v.frame.visit.callers = [caller] := hcall
  obtain ⟨ρ', hsame, hmapped, hfunction, hblock, hguard⟩ := h.call.exists_resumed hext hcall
    (congrArg Nat.cast hdepth) hmemory hv.scope hv.run hf hcallers
  have hnext := h.next
  obtain ⟨f', hf'⟩ : ∃ f', w'.next[0]? = some f' := by
    refine ⟨_, List.getElem?_eq_getElem ?_⟩
    rw [← h.shadow.next.length_eq, hnext]
    exact Nat.one_pos
  have hr' := h.shadow.resumes hw' (by rw [hnext]; rfl) hf'
  obtain ⟨n, -, -, -, -, hgoes⟩ := hv.evolves hv.scope
  have hpath : f.path = v.frame.location :: v.frame.path := (hgoes f hf).path
  have hpath' : f'.path = w'.frame.visit.path := (hw'.succeeds (List.mem_of_getElem? hf')).path
  have hwrite : s.graph.decls.length ≤ r.left.store.graph.decls.length := by
    obtain ⟨env, n, -, -, hw⟩ := h.call.write
    exact ((h.call.mapped.scope h.call.scope).writeFresh hw).1.grows.length_le
  have halike : (r.frame.visit.fork r.left.store.memory caller.next none 0).Renamed ρ' f :=
    ⟨⟨hfunction.trans h.function, hblock, hcallers.trans h.entry.symm⟩, hmapped.memory, hguard⟩
  refine ⟨f', hf', hcallers, ?_, _, _, σ, ρ', hr', ⟨halike, fun n d hd => ?_, hmapped.beyond,
    (hgoes f hf).memory.of_decls_eq rfl, fun c hc => ?_⟩,
    h.bond.extend hwrite (fun _ _ => rfl) hsame⟩
  · rw [hpath, hpath']
    exact h.path.cons _
  · exact hmapped.exists_declaration hd
  · rw [hguard] at hc
    cases hc

end Frame.Suspended

end NullPath
