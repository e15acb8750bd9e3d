import NullPath.Proofs.Choices
import NullPath.Proofs.ScalarCalls

/-!
# Exploration of scalar programs is exact

Take a path of the graph that an exploration of a scalar program leaves.  The places on it are the
blocks that were executed, each with its call depth.  A run of the program on some arguments goes
through exactly these places if and only if a model with these arguments makes the path constraint
of the last node and the assertions of all earlier nodes true.

There is one thing that places do not tell: which of several equal targets a switch took.  If a
switch names a block twice, two paths have the same places but different guards.  A run through
these places then fits one of the paths, and not always the given one.

* `Explorer.Logged.follow_run`, `Explorer.Logged.run_of_model`: from runs to models and back.
* `Explorer.scalar_exact`: runs and models of paths.
-/

namespace NullPath

/-- A run of a function on arguments goes through exactly these places, and stands at the last
one. -/
def Scalar.Runs (options : Options) (program : Program) (f : Function) (args : List Constant)
    (ls : List (Location × Nat)) : Prop :=
  ∃ ls' s, Scalar.Visits options program f args ls' s ∧ ls = ls' ++ [s.place]

/-- The code of a scalar program can be explored: its locals can be told apart. -/
structure Explorer.IsScalar (e : Explorer) : Prop where
  entry : e.entry.IsScalar ∧ e.entry.Addressable
  program : ∀ g ∈ e.program.functions, g.IsScalar ∧ g.Addressable

/-- The model has the arguments as parameters, makes the path constraint of a node true, and makes
the assertions of the nodes before it true. -/
structure Graph.ModelsPath (g : Graph) (args : List Constant) (ns : List Int) (n : Int)
    (m : Model) : Prop where
  exact : m.Exact g.scope
  reads : g.Reads m args
  passable : g.Passable m n
  holds : ∀ a ∈ ns, g.Holds m a

/-- No switch of the function has a target twice. -/
def Function.TargetsApart (f : Function) : Prop :=
  ∀ b ∈ f.blocks, b.terminator.TargetsApart

/-- An edge that is found in the list of a node links it. -/
theorem Graph.links_of_any {g : Graph} {a b : Int}
    (h : ((g.node? a).any fun n => n.out.any fun ed => ed.target == b) = true) : g.Links a b := by
  rw [Option.any_eq_true] at h
  obtain ⟨n, hn, hout⟩ := h
  obtain ⟨ed, hed, htarget⟩ := List.any_eq_true.mp hout
  exact ⟨n, ed, hn, hed, beq_iff_eq.mp htarget⟩

namespace Scalar

variable {f : Function} {args : List Constant} {σ : Locals} {s : Store} {m : Model}

/-- The values at the entry of a function, slot by slot. -/
theorem Enters.value (h : Enters f args σ) {k : Nat} {l : LocalVar} {sort : ExprSort}
    (hk : k < f.argCount.toNat + 1) (hl : f.localVar? k = some l)
    (hsort : l.type.sort = .ok sort) : ∃ c, σ k = some c ∧ c.HasSort sort := by
  cases k with
  | zero =>
    obtain ⟨sort', c, hsort', hc, hσ⟩ := h.result l hl
    rw [hsort] at hsort'
    cases hsort'
    exact ⟨c, hσ, hc⟩
  | succ k =>
    have hlt : k < args.length := by
      rw [h.count]
      omega
    obtain ⟨l', sort', hl', hsort', hc, hσ⟩ := h.params k _ (List.getElem?_eq_getElem hlt)
    have hcast : ((k + 1 : Nat) : Int) = (k : Int) + 1 := by omega
    rw [hcast] at hl ⊢
    rw [hl] at hl'
    cases hl'
    rw [hsort] at hsort'
    cases hsort'
    exact ⟨_, hσ, hc⟩

/-- The locals of an entered function agree with a model that has the values of its slots. -/
theorem agrees_entry (hf : f.Addressable) {count : Nat} (hent : f.Entered count s)
    (hm : ∀ k n, k < count → s.memory.locals.get? (.of 0 k) = some ⟨n, false⟩ →
      ∃ c, m.get? n = some c ∧ σ k = some c) : Agrees m f 0 s.memory σ := by
  refine ⟨hent.addrs, fun i l n hl hn => ?_⟩
  obtain ⟨-, k, hk, hslot⟩ := hent.bound _ _ hn
  obtain ⟨l', hl', -⟩ := hent.slots k hk
  obtain rfl := (hf.slot_zero_eq_iff hl hl').mp hslot
  exact hm k n hk hn

/-- The first frame agrees with a run that has just entered the function. -/
theorem matches_entry {e : Explorer} {fr : Frame} (hscalar : e.IsScalar)
    (hent : e.entry.Entered (e.entry.argCount.toNat + 1) s)
    (hfr : fr.unnumbered = Explorer.firstFrame e s)
    (hag : Agrees m e.entry 0 s.memory σ) : Matches m fr ⟨e.entry, 0, σ, []⟩ := by
  have hfun : fr.function = e.entry := congrArg Frame.function hfr
  have hblock : fr.block = 0 := congrArg Frame.block hfr
  have hcallers : fr.callers = [] := congrArg Frame.callers hfr
  have hmemory : fr.memory = s.memory := congrArg Frame.memory hfr
  refine ⟨hfun.symm, hblock.symm, ?_⟩
  rw [hfun, hcallers, hmemory]
  refine ⟨hscalar.entry.1, hscalar.entry.2, fun x b hx => ?_, hag, .nil⟩
  obtain ⟨-, k, -, rfl⟩ := hent.bound x b hx
  exact Nat.le_of_eq (depth_slot (d := 0) (by omega))

end Scalar

namespace Explorer

variable {s₀ : Store} {e : Explorer} {vs : List Visit} {m : Model} {ns : List Int} {j : Nat}
  {w : Visit} {args : List Constant} {ls : List (Location × Nat)} {st : Scalar.State}

open Scalar

/-- A frame keeps its agreement with a run when names that it does not know get values. -/
theorem Logged.matches_keeps (hl : Logged s₀ e vs) (hw : vs[j]? = some w) {m' : Model} {f : Frame}
    {u : Visit} (hf : f ∈ w.next) (hu : u.frame.unnumbered = f) (hmt : Matches m f st)
    (hk : w.left.store.Keeps (fun _ => True) m m') : Matches m' u.frame st := by
  have hvalid := hl.valid j w hw
  obtain ⟨-, -, -, -, -, hgoes⟩ := hvalid.evolves hvalid.scope
  have hstack := hmt.stack.keeps (hgoes f hf).memory hk
  rw [← hu] at hstack hmt
  exact ⟨hmt.function, hmt.block, hstack⟩

/-- Every run that keeps to the bound is followed by a path, and determines a model of it. -/
theorem Logged.follow_run (hl : Logged s₀ e vs) (hnil : e.searcher.pending = [])
    (hscalar : e.IsScalar) (hx : Visits e.options e.program e.entry args ls st)
    (hb : e.options.Bounds (ls ++ [st.place]))
    (hd : ∀ x ∈ ls ++ [st.place], x.2 < 0x100000000) :
    ∃ m ns j w, Follows e vs m ns j w ∧ Matches m w.frame st ∧
      ns.map (placeOf (vs.map Visit.finished)) = ls.map some ∧ e.entry.Given s₀ m args := by
  have hent := Function.entered_of_enterFunction hscalar.entry.2 hl.entered
  have hs₀ := (enterFunction_bare Store.bare_empty hl.entered).scope
  induction hx with
  | @start σ hσ =>
    obtain ⟨m₀, hm₀, hval⟩ := hent.exists_model hscalar.entry.2
      (fun k hk l sort hl hsort => hσ.value hk hl hsort)
    have hadm : 0 < e.options.maxUnroll := hb [] _ [] rfl
    obtain ⟨m, w, hfol, hfirst, hkeeps⟩ := Follows.start hl hnil hadm hm₀
    have hvalue : ∀ k n, k < e.entry.argCount.toNat + 1 →
        s₀.memory.locals.get? (.of 0 k) = some ⟨n, false⟩ → m.get? n = σ k := by
      intro k n hk hn
      rw [hkeeps n (hs₀.mentions n (.value hn)), hval k n hk hn]
    refine ⟨m, [], 0, w, hfol, matches_entry hscalar hent hfirst ?_, rfl, fun k n hk hn => ?_⟩
    · refine agrees_entry hscalar.entry.2 hent fun k n hk hn => ?_
      obtain ⟨l, hlocal, ⟨-, -, hnone⟩ | ⟨sort, -, -, hsort, -⟩⟩ := hent.slots k hk
      · rw [hn] at hnone
        cases hnone
      · obtain ⟨c, hc, -⟩ := hσ.value hk hlocal hsort
        exact ⟨c, by rw [hvalue k n hk hn, hc], hc⟩
    · have hlt : k < args.length := by rw [hσ.count]; exact hk
      obtain ⟨-, -, -, -, -, hc⟩ := hσ.params k _ (List.getElem?_eq_getElem hlt)
      rw [hvalue (k + 1) n (by omega) hn, List.getElem?_eq_getElem hlt, ← hc]
      rfl
  | @step ls st st' hx hstep ih =>
    obtain ⟨m, ns, j, w, hfol, hmt, hns, hpar⟩ := ih hb.of_append
      fun x hx => hd x (List.mem_append_left _ hx)
    have hvalid := hl.valid j w hfol.visit
    have hplace := hmt.place_eq
    have hlt : w.frame.callers.length < 0x100000000 := by
      have := hd st.place (by simp)
      rw [hplace] at this
      exact this
    have hlt' : st'.calls.length < 0x100000000 := hd st'.place (by simp)
    obtain ⟨m', f', ⟨hf', -, hguard⟩, hk, hr', hmt'⟩ :=
      (hmt.step hvalid (hfol.realized hl).exact hscalar.program hlt).forward st' ⟨hstep, hlt'⟩
        (hfol.realized hl)
    have hadm : e.options.admits f' = true := by
      refine (hl.admits_next hfol.visit hfol.path hns hf').mpr ?_
      have hcount := hb (ls ++ [st.place]) st'.place [] rfl
      rwa [hplace, hmt'.place_eq] at hcount
    obtain ⟨m'', k, u, hfol', hu, hkeeps⟩ := hfol.step hl hnil hk hr' hf' hadm hguard
    obtain ⟨node, -, -, hev, -⟩ := hvalid.evolves hvalid.scope
    refine ⟨m'', ns ++ [(j : Int)], k, u, hfol', hl.matches_keeps hfol.visit hf' hu hmt' hkeeps, ?_,
      fun k n hk' hn => ?_⟩
    · rw [List.map_append, List.map_append, hns, List.map_singleton, List.map_singleton,
        placeOf_eq hfol.visit, hplace]
    · rw [(hk.trans hev hkeeps) n (hl.knows_of_mentions hfol.visit (.value hn)), hpar k n hk' hn]

/-- A model shows how to enter the function. -/
theorem Logged.enters_of_model (hl : Logged s₀ e vs) (hscalar : e.IsScalar)
    (hm : m.Exact e.graph.scope) (hreads : e.graph.Reads m args)
    (hargs : args.length = e.entry.argCount.toNat) :
    ∃ σ, Enters e.entry args σ ∧ Agrees m e.entry 0 s₀.memory σ := by
  have hent := Function.entered_of_enterFunction hscalar.entry.2 hl.entered
  have hm₀ := hm.mono (hl.base.scope_le _)
  have hreads' := (hl.reads_iff hscalar.entry.2).mp hreads
  let σ : Locals := fun i =>
    if 0 ≤ i ∧ i ≤ e.entry.argCount.toNat then
      (s₀.memory.locals.get? (.of 0 i)).bind fun b => m.get? b.name
    else none
  -- every slot that is bound holds the value that the model gives its name
  have hvalue : ∀ k l, k < e.entry.argCount.toNat + 1 → e.entry.localVar? k = some l →
      ∃ sort n c, l.type.sort = .ok sort ∧
        s₀.memory.locals.get? (.of 0 k) = some ⟨n, false⟩ ∧ m.get? n = some c ∧
        c.HasSort sort ∧ σ k = some c := by
    intro k l hk hlocal
    obtain ⟨l', hl', ⟨-, ⟨err, herr⟩, -⟩ | ⟨sort, n, d, hsort, hn, hd, hds, -⟩⟩ := hent.slots k hk
    · obtain ⟨sort, hsort⟩ := exists_sort hscalar.entry.1 hl'
      rw [herr] at hsort
      cases hsort
    · rw [hlocal] at hl'
      cases hl'
      obtain ⟨c, hc, hcs⟩ := hm₀ n sort ⟨trivial, d, hd, hds⟩
      refine ⟨sort, n, c, hsort, hn, hc, hcs, ?_⟩
      simp only [σ]
      rw [if_pos (by omega), hn]
      exact hc
  refine ⟨σ, ⟨hargs, fun l hlocal => ?_, fun k c hc => ?_, fun i hi => ?_⟩, ?_⟩
  · obtain ⟨sort, n, c, hsort, -, -, hcs, hσ⟩ := hvalue 0 l (by omega) hlocal
    exact ⟨sort, c, hsort, hcs, hσ⟩
  · have hk := lt_length_of_getElem? hc
    obtain ⟨l, hlocal, -⟩ := hent.slots (k + 1) (by omega)
    obtain ⟨sort, n, c', hsort, hn, hc', hcs, hσ⟩ := hvalue (k + 1) l (by omega) hlocal
    rw [hreads' k n (by omega) hn, hc] at hc'
    cases hc'
    exact ⟨l, sort, hlocal, hsort, hcs, hσ⟩
  · simp only [σ]
    rw [if_neg (by omega)]
  · refine agrees_entry hscalar.entry.2 hent fun k n hk hn => ?_
    obtain ⟨l, hlocal, -⟩ := hent.slots k hk
    obtain ⟨sort, n', c, -, hn', hc, -, hσ⟩ := hvalue k l hk hlocal
    rw [hn] at hn'
    cases hn'
    exact ⟨c, hc, hσ⟩

/-- A run that agrees with the last frame of a path stands at the last place of the path. -/
theorem eq_append_place {ls' : List (Location × Nat)} (hw : vs[j]? = some w)
    (hmt : Matches m w.frame st)
    (hls : (ns ++ [(j : Int)]).map (placeOf (vs.map Visit.finished)) = ls.map some)
    (hns : ns.map (placeOf (vs.map Visit.finished)) = ls'.map some) : ls = ls' ++ [st.place] := by
  refine List.map_injective_iff.mpr (Option.some_injective _) ?_
  rw [← hls, List.map_append, List.map_append, hns, List.map_singleton, List.map_singleton,
    Logged.placeOf_eq hw, hmt.place_eq]

/-- A model of a path shows how a run goes along it. -/
theorem Logged.run_of_model (hl : Logged s₀ e vs) (hscalar : e.IsScalar)
    (hm : m.Exact e.graph.scope) (hreads : e.graph.Reads m args)
    (hargs : args.length = e.entry.argCount.toNat) (hw : vs[j]? = some w)
    (hp : e.graph.PathTo e.root ns j) (hpass : e.graph.Passable m j)
    (hholds : ∀ a ∈ ns, e.graph.Holds m a)
    (hls : (ns ++ [(j : Int)]).map (placeOf (vs.map Visit.finished)) = ls.map some)
    (hd : ∀ x ∈ ls, x.2 < 0x100000000) :
    ∃ ls' st, Visits e.options e.program e.entry args ls' st ∧ Matches m w.frame st ∧
      ls = ls' ++ [st.place] := by
  have hent := Function.entered_of_enterFunction hscalar.entry.2 hl.entered
  induction ns using List.reverseRecOn generalizing j w ls with
  | nil =>
    obtain rfl := hl.path_nil hw hp
    obtain ⟨σ, hσ, hag⟩ := hl.enters_of_model hscalar hm hreads hargs
    have hmt := matches_entry hscalar hent (hl.first_of_zero hw) hag
    exact ⟨[], _, .start hσ, hmt, eq_append_place hw hmt hls rfl⟩
  | append_singleton ns a ih =>
    obtain ⟨i, v, rfl, -, hv, hp₁, hpar, hmem⟩ := hl.path_snoc hw hp
    obtain ⟨hpass₁, hguard⟩ := (hl.passable_step hp₁ hw hpar).mp hpass
    obtain ⟨ls₀, l, rfl⟩ : ∃ ls₀ l, ls = ls₀ ++ [l] := by
      rcases List.eq_nil_or_concat ls with rfl | ⟨ls₀, l, h⟩
      · simp at hls
      · exact ⟨ls₀, l, by rw [h, List.concat_eq_append]⟩
    have hfull := hls
    rw [List.map_append, @List.map_append _ _ _ ls₀] at hls
    obtain ⟨hls₀, hlast⟩ := List.append_inj' hls rfl
    obtain ⟨ls', st, hrun, hmt, rfl⟩ := ih hv hp₁ hpass₁
      (fun b hb => hholds b (List.mem_append_left _ hb)) hls₀
      fun x hx => hd x (List.mem_append_left _ hx)
    have hvalid := hl.valid i v hv
    -- the assertions of the node are those that the visit left
    have hext : v.left.store.graph.Extends e.graph :=
      (Graph.Extends.close (Int.natCast_nonneg i)).trans (hl.final i v hv)
    obtain ⟨n, n', hn, hn', hexprs, -⟩ := hl.node hv
    have hh : v.left.store.graph.Holds m i := by
      intro n₁ hn₁ b hb
      rw [hn'] at hn₁
      cases hn₁
      rw [← hexprs] at hb
      exact hholds i (by simp) n hn b hb
    have hlt : v.frame.callers.length < 0x100000000 := by
      have := hd st.place (by simp)
      rw [hmt.place_eq] at this
      exact this
    have hlt' : w.frame.unnumbered.callers.length < 0x100000000 := by
      have hl₁ : l = (w.frame.location, w.frame.depth) := by
        rw [List.map_singleton, placeOf_eq hw] at hlast
        simpa using hlast.symm
      have := hd l (by simp)
      rw [hl₁] at this
      exact this
    have hm₁ := hm.mono (hext.scope_le _)
    obtain ⟨st', ⟨hstep, -⟩, hmt'⟩ := (hmt.step hvalid (hm₁.mono (hvalid.extends_graph.scope_le _))
      hscalar.program hlt).backward hm₁ hh _ ⟨hmem, hlt', hguard⟩
    have hmt'' : Matches m w.frame st' := ⟨hmt'.function, hmt'.block, hmt'.stack⟩
    exact ⟨_, st', .step hrun hstep, hmt'', eq_append_place hw hmt'' hfull hls₀⟩

/-- A path with a model is gone by a run. -/
theorem Logged.runs_of_models (hl : Logged s₀ e vs) (hscalar : e.IsScalar)
    (hargs : args.length = e.entry.argCount.toNat) {n : Int} (hp : e.graph.PathTo e.root ns n)
    (hd : ∀ x ∈ route (vs.map Visit.finished) (ns ++ [n]), x.2 < 0x100000000)
    (hm : e.graph.ModelsPath args ns n m) :
    Runs e.options e.program e.entry args (route (vs.map Visit.finished) (ns ++ [n])) := by
  obtain ⟨j, w, rfl, hw⟩ := hl.visit_of_path hp
  obtain ⟨ls', st, hrun, -, hls⟩ := hl.run_of_model hscalar hm.exact hm.reads hargs hw hp
    hm.passable hm.holds (hl.map_placeOf hp) hd
  exact ⟨ls', st, hrun, hls⟩

/-- A run through the places of a path goes along a path with a model. -/
theorem Logged.models_of_runs (hl : Logged s₀ e vs) (hnil : e.searcher.pending = [])
    (hscalar : e.IsScalar) {n : Int} (hp : e.graph.PathTo e.root ns n)
    (hd : ∀ x ∈ route (vs.map Visit.finished) (ns ++ [n]), x.2 < 0x100000000)
    (h : Runs e.options e.program e.entry args (route (vs.map Visit.finished) (ns ++ [n]))) :
    ∃ ns' n' m, e.graph.PathTo e.root ns' n' ∧
      route (vs.map Visit.finished) (ns' ++ [n']) = route (vs.map Visit.finished) (ns ++ [n]) ∧
      e.graph.ModelsPath args ns' n' m := by
  obtain ⟨ls, st, hrun, hls⟩ := h
  obtain ⟨j, w, rfl, hw⟩ := hl.visit_of_path hp
  have hb := hl.bounds_path hw hp (hl.map_placeOf hp)
  rw [hls] at hb hd ⊢
  obtain ⟨m, ns', k, u, hfol, hmt, hns', hpar⟩ := hl.follow_run hnil hscalar hrun hb hd
  have hext := ((hl.valid k u hfol.visit).extends_graph.trans (hl.final k u hfol.visit))
  obtain ⟨m', hkeeps, hexact, hpass, hholds⟩ :=
    hfol.complete hl .refl hext (Nat.le_refl _) hfol.exact
  refine ⟨ns', k, m', hfol.path, ?_, hexact, (hl.reads_iff hscalar.entry.2).mpr ?_, hpass, hholds⟩
  · exact eq_append_place hfol.visit hmt (hl.map_placeOf hfol.path) hns'
  · intro i n hi hn
    rw [hkeeps n (hl.knows_of_mentions hfol.visit (.value hn)), hpar i n hi hn]

/-- **Exploration of scalar programs is exact.**  A run on some arguments goes through the places
of a path if and only if a path with these places has a model with these arguments.  If no switch
has a target twice, this is the path itself. -/
theorem scalar_exact (he : e.Fresh) (hscalar : e.IsScalar) (hrun : e.trace.1 = .ok ())
    {n : Int} (hp : e.trace.2.1.graph.PathTo e.trace.2.1.root ns n)
    (hd : ∀ x ∈ route e.trace.2.2 (ns ++ [n]), x.2 < 0x100000000)
    (hargs : args.length = e.entry.argCount.toNat) :
    (Runs e.options e.program e.entry args (route e.trace.2.2 (ns ++ [n])) ↔
      ∃ ns' n' m, e.trace.2.1.graph.PathTo e.trace.2.1.root ns' n' ∧
        route e.trace.2.2 (ns' ++ [n']) = route e.trace.2.2 (ns ++ [n]) ∧
        e.trace.2.1.graph.ModelsPath args ns' n' m) ∧
    (e.entry.TargetsApart → (∀ g ∈ e.program.functions, g.TargetsApart) →
      (Runs e.options e.program e.entry args (route e.trace.2.2 (ns ++ [n])) ↔
        ∃ m, e.trace.2.1.graph.ModelsPath args ns n m)) := by
  obtain ⟨s₀, vs, hl, hnil, hframes, hoptions, hprogram, hentry⟩ := exists_log he hrun
  rw [hframes] at hd ⊢
  have hscalar' : e.trace.2.1.IsScalar := by
    refine ⟨?_, ?_⟩
    · rw [hentry]
      exact hscalar.entry
    · rw [hprogram]
      exact hscalar.program
  have hargs' : args.length = e.trace.2.1.entry.argCount.toNat := by rwa [hentry]
  rw [← hoptions, ← hprogram, ← hentry]
  have hto : Runs e.trace.2.1.options e.trace.2.1.program e.trace.2.1.entry args
      (route (vs.map Visit.finished) (ns ++ [n])) → _ := hl.models_of_runs hnil hscalar' hp hd
  refine ⟨⟨hto, ?_⟩, fun happart happart' => ⟨fun h => ?_, ?_⟩⟩
  · rintro ⟨ns', n', m, hp', hroute, hm⟩
    rw [← hroute] at hd ⊢
    exact hl.runs_of_models hscalar' hargs' hp' hd hm
  · obtain ⟨ns', n', m, hp', hroute, hm⟩ := hto h
    have hvisits : ∀ (i : Nat) v, vs[i]? = some v → v.block.terminator.TargetsApart := by
      intro i v hv
      have hfun := (hl.forall_functions (Q := Function.TargetsApart) happart happart' hv).1
      exact hfun v.block (Function.block?_mem (hl.valid i v hv).block)
    have hplaces : (ns ++ [n]).map (placeOf (vs.map Visit.finished)) =
        (ns' ++ [n']).map (placeOf (vs.map Visit.finished)) := by
      rw [hl.map_placeOf hp, hl.map_placeOf hp', hroute]
    obtain ⟨rfl, rfl⟩ := hl.path_unique hvisits hp hp' hplaces
    exact ⟨m, hm⟩
  · rintro ⟨m, hm⟩
    exact hl.runs_of_models hscalar' hargs' hp hd hm

/-! ## A call and a switch -/

/-- Adds one to its parameter. -/
def increment : Function where
  name := "increment"
  locals := [⟨"", .integer⟩, ⟨"y", .integer⟩]
  argCount := 1
  blocks := [⟨[.assign ⟨0, 0⟩ (.binary .add (.copy ⟨1, 0⟩) (.const 1 .integer)) {}], .return⟩]

/-- Calls `increment` and branches on whether the result is zero. -/
def branching : Function where
  name := "branching"
  locals := [⟨"", .integer⟩, ⟨"x", .integer⟩]
  argCount := 1
  blocks := [
    ⟨[], .call "increment" [.move ⟨1, 0⟩] (some ⟨0, 0⟩) 1 {}⟩,
    ⟨[], .switch (.copy ⟨0, 0⟩) [0] [2, 3] {}⟩,
    ⟨[], .return⟩,
    ⟨[], .return⟩]

/-- An exploration that follows the call. -/
def branchingExplorer : Explorer where
  options := { inlineCalls := true }
  program := ⟨[increment]⟩
  entry := branching

theorem branchingExplorer_isScalar : branchingExplorer.IsScalar := by
  have hinc : increment.IsScalar ∧ increment.Addressable :=
    ⟨⟨by simp [increment, Ty.IsScalar, Ty.integer],
      by simp [increment, Statement.IsScalar, Rvalue.IsScalar, Operand.IsScalar],
      by simp [increment, Terminator.IsScalar]⟩, by simp [increment, Function.Addressable]⟩
  refine ⟨⟨⟨?_, ?_, ?_⟩, ?_⟩, ?_⟩
  · simp [branchingExplorer, branching, Ty.IsScalar, Ty.integer]
  · simp [branchingExplorer, branching]
  · simp [branchingExplorer, branching, Terminator.IsScalar, Operand.IsScalar]
  · simp [branchingExplorer, branching, Function.Addressable]
  · simp [branchingExplorer, hinc]

theorem branchingExplorer_path :
    branchingExplorer.trace.2.1.graph.PathTo branchingExplorer.trace.2.1.root [0, 1, 2] 4 := by
  have hroot : branchingExplorer.trace.2.1.root = 0 := by decide +kernel
  have h₀ : (branchingExplorer.trace.2.1.graph.node? 0).isSome = true := by decide +kernel
  have h₁ : branchingExplorer.trace.2.1.graph.Links 0 1 := Graph.links_of_any (by decide +kernel)
  have h₂ : branchingExplorer.trace.2.1.graph.Links 1 2 := Graph.links_of_any (by decide +kernel)
  have h₃ : branchingExplorer.trace.2.1.graph.Links 2 4 := Graph.links_of_any (by decide +kernel)
  obtain ⟨n, hn⟩ := Option.isSome_iff_exists.mp h₀
  rw [hroot]
  exact .step (.step (.step (.root hn) h₁) h₂) h₃

/-- The locals of a function with one parameter. -/
def oneParameter (result parameter : Option Constant) : Locals :=
  fun i => if i = 0 then result else if i = 1 then parameter else none

theorem enters_oneParameter {f : Function} {l l' : LocalVar} {v v' : Int}
    (hl : f.locals = [l, l']) (hc : f.argCount = 1) (ht : l.type.sort = .ok .int)
    (ht' : l'.type.sort = .ok .int) :
    Enters f [.ofInt v'] (oneParameter (some (.ofInt v)) (some (.ofInt v'))) := by
  refine ⟨by rw [hc]; rfl, fun l₀ h₀ => ?_, fun k c hk => ?_, fun i hi => ?_⟩
  · rw [Function.localVar?, hl] at h₀
    cases h₀
    exact ⟨.int, .ofInt v, ht, rfl, rfl⟩
  · have hlt := lt_length_of_getElem? hk
    obtain rfl : k = 0 := by simpa using hlt
    cases hk
    exact ⟨l', .int, by rw [Function.localVar?, hl]; rfl, ht', rfl, rfl⟩
  · rw [List.length_singleton] at hi
    rw [oneParameter, if_neg (by omega), if_neg (by omega)]

/-- On `-1` the call returns zero, and the first branch is taken. -/
theorem branching_runs : Runs branchingExplorer.options branchingExplorer.program
    branchingExplorer.entry [.ofInt (-1)]
    [(⟨"branching", 0⟩, 0), (⟨"increment", 0⟩, 1), (⟨"branching", 1⟩, 0), (⟨"branching", 2⟩, 0)] := by
  let σ : Locals := oneParameter (some (.ofInt 0)) (some (.ofInt (-1)))
  have hcall : Step branchingExplorer.options branchingExplorer.program ⟨branching, 0, σ, []⟩
      ⟨increment, 0, σ, [⟨branching, σ.set 1 none, ⟨0, 0⟩, 1⟩]⟩ :=
    .mk rfl .nil
      (.enter rfl rfl (enters_oneParameter rfl rfl rfl rfl))
  have hreturn : Step branchingExplorer.options branchingExplorer.program
      ⟨increment, 0, σ, [⟨branching, σ.set 1 none, ⟨0, 0⟩, 1⟩]⟩
      ⟨branching, 1, (σ.set 1 none).set 0 (some (.ofInt 0)), []⟩ := by
    have hadd : rvalue σ (.binary .add (.copy ⟨1, 0⟩) (.const 1 .integer)) =
        some (.ofInt 0, σ) := rfl
    exact .mk rfl (.cons (.assign hadd rfl) .nil)
      (.result rfl rfl rfl)
  have hswitch : Step branchingExplorer.options branchingExplorer.program
      ⟨branching, 1, (σ.set 1 none).set 0 (some (.ofInt 0)), []⟩
      ⟨branching, 2, (σ.set 1 none).set 0 (some (.ofInt 0)), []⟩ :=
    .mk rfl .nil
      (.switch (i := 0) rfl rfl (.inl ⟨0, rfl, by decide⟩) rfl)
  have hstart : Visits branchingExplorer.options branchingExplorer.program branchingExplorer.entry
      [.ofInt (-1)] [] ⟨branching, 0, σ, []⟩ := .start (enters_oneParameter rfl rfl rfl rfl)
  exact ⟨_, _, ((hstart.step hcall).step hreturn).step hswitch, rfl⟩

/-- A model of the path through the call gives the parameter the value `-1`, because a run does. -/
theorem branching_has_model : branchingExplorer.trace.1 = .ok () ∧
    ∃ m, branchingExplorer.trace.2.1.graph.ModelsPath [.ofInt (-1)] [0, 1, 2] 4 m := by
  have hrun : branchingExplorer.trace.1 = .ok () := by decide +kernel
  have hroute : route branchingExplorer.trace.2.2 ([0, 1, 2] ++ [4]) =
      [(⟨"branching", 0⟩, 0), (⟨"increment", 0⟩, 1), (⟨"branching", 1⟩, 0),
        (⟨"branching", 2⟩, 0)] := by decide +kernel
  have hargs : [Constant.ofInt (-1)].length = branchingExplorer.entry.argCount.toNat := rfl
  have hfresh : branchingExplorer.Fresh := .new ..
  have hexact := (scalar_exact hfresh branchingExplorer_isScalar hrun
    branchingExplorer_path (by rw [hroute]; decide) hargs).2
  have happart : branching.TargetsApart := by
    simp [Function.TargetsApart, branching, Terminator.TargetsApart]
  have happart' : ∀ g ∈ branchingExplorer.program.functions, g.TargetsApart := by
    simp [branchingExplorer, Function.TargetsApart, increment, Terminator.TargetsApart]
  refine ⟨hrun, (hexact happart happart').mp ?_⟩
  rw [hroute]
  exact branching_runs

/-! ## A switch that names a block twice -/

/-- Goes to one block for the values 1 and 2, and to another one for all other values. -/
def sharedTarget : Function where
  name := "shared"
  locals := [⟨"", .integer⟩, ⟨"x", .integer⟩]
  argCount := 1
  blocks := [
    ⟨[], .switch (.copy ⟨1, 0⟩) [1, 2] [1, 1, 2] {}⟩,
    ⟨[], .return⟩,
    ⟨[], .return⟩]

/-- An exploration of the switch. -/
def sharedTargetExplorer : Explorer where
  entry := sharedTarget
  options := { inlineCalls := true }

/-- A run on 1 goes through the places of the path for the value 2, but no model of this path has
the parameter 1: the places of a path alone do not determine its guards. -/
theorem sharedTarget_not_determined :
    sharedTargetExplorer.trace.1 = .ok () ∧
    ¬(Runs sharedTargetExplorer.options sharedTargetExplorer.program sharedTargetExplorer.entry
        [.ofInt 1] (route sharedTargetExplorer.trace.2.2 ([0] ++ [2])) ↔
      ∃ m, sharedTargetExplorer.trace.2.1.graph.ModelsPath [.ofInt 1] [0] 2 m) := by
  have hroute : route sharedTargetExplorer.trace.2.2 ([0] ++ [2]) =
      [(⟨"shared", 0⟩, 0), (⟨"shared", 1⟩, 0)] := by decide +kernel
  have hguard : sharedTargetExplorer.trace.2.1.graph.pathConstraint 2 =
      .ok (.binary .eq (.int 2) (.name ⟨1⟩ .int)) := by decide +kernel
  have hdecl : sharedTargetExplorer.trace.2.1.graph.declaration? ⟨1⟩ =
      some ⟨⟨1⟩, .int, [], some ⟨"shared", 1, "x"⟩⟩ := by decide +kernel
  have hrun : Runs sharedTargetExplorer.options sharedTargetExplorer.program
      sharedTargetExplorer.entry [.ofInt 1] [(⟨"shared", 0⟩, 0), (⟨"shared", 1⟩, 0)] := by
    let σ : Locals := oneParameter (some (.ofInt 0)) (some (.ofInt 1))
    have hswitch : Step sharedTargetExplorer.options sharedTargetExplorer.program
        ⟨sharedTarget, 0, σ, []⟩ ⟨sharedTarget, 1, σ, []⟩ :=
      .mk (b := ⟨[], .switch (.copy ⟨1, 0⟩) [1, 2] [1, 1, 2] {}⟩) rfl .nil
        (.switch (i := 0) rfl rfl (Or.inl ⟨1, rfl, by decide⟩) rfl)
    exact ⟨_, _, .step (.start (enters_oneParameter rfl rfl rfl rfl)) hswitch, rfl⟩
  rw [hroute]
  refine ⟨by decide +kernel, fun h => ?_⟩
  obtain ⟨m, hm⟩ := h.mp hrun
  have hx : m.get? ⟨1⟩ = some (.ofInt 1) := hm.reads ⟨1⟩ _ _ hdecl rfl
  obtain ⟨π, hπ, hsat⟩ := hm.passable
  rw [hguard] at hπ
  cases hπ
  have heval : (Expr.binary .eq (.int 2) (.name ⟨1⟩ .int)).eval m = .ok (.ofBool false) := by
    rw [Expr.eval, Expr.eval, hx]
    rfl
  rw [Model.satisfies_iff_of_eval heval] at hsat
  exact absurd hsat (by decide)

end Explorer
end NullPath
