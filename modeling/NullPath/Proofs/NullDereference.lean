import NullPath.Proofs.HeapSimulation
import NullPath.Proofs.ScalarExact

/-!
# No null dereference is lost

Take a function without calls in which pointers come from parameters, addresses, the constant zero
and places that hold pointers.  A run of the function starts with any arguments and any cells behind
them, and goes through some blocks until it dereferences a null pointer.  If it executes no block
more often than an exploration may, then the exploration has a path through exactly these blocks.
At the last node of the path a name is tagged, and some model with the arguments of the run gives
this name the value zero and makes the path constraint of the node and all assertions on the way to
it true.

* `Explorer.Logged.follow_heap`: a run is followed by a path.
* `Explorer.null_dereference_tagged`: the null dereference at the end of a run is tagged.
-/

namespace NullPath

/-- The places of blocks that a function executes itself. -/
def Function.places (f : Function) (bs : List Int) : List (Location × Nat) :=
  bs.map fun b => (⟨f.name, b⟩, 0)

theorem Function.places_append (f : Function) (bs : List Int) (b : Int) :
    f.places (bs ++ [b]) = f.places bs ++ [(⟨f.name, b⟩, 0)] := by
  rw [places, places, List.map_append, List.map_singleton]

theorem Function.count_places (f : Function) (bs : List Int) (b : Int) :
    ((f.places bs).map Prod.fst).count ⟨f.name, b⟩ = bs.count b := by
  have hinj : Function.Injective fun b => (⟨f.name, b⟩ : Location) :=
    fun _ _ h => congrArg Location.block h
  rw [places, List.map_map]
  exact List.count_map_of_injective bs _ hinj b

namespace Heap

variable {f : Function} {m m' : Model} {w : Visit} {i : Nat} {b b' : Int} {st st' : State}
  {options : Options} {program : Program} {block : Block}

/-- A visit and a run stand at the same block, and a model describes the cells of the run. -/
structure Meets (f : Function) (m : Model) (w : Visit) (b : Int) (st : State) : Prop where
  function : w.frame.function = f
  callers : w.frame.callers = []
  block : w.frame.block = b
  describes : ∃ u, Describes f u m w.entered.store st

namespace Meets

theorem place_eq (h : Meets f m w b st) : (w.frame.location, w.frame.depth) = (⟨f.name, b⟩, 0) := by
  rw [Frame.location, Frame.depth, h.function, h.callers, h.block]
  rfl

theorem tracks (h : Meets f m w b st) (hf : f.Addressable)
    (hr : w.entered.store.Realized (fun _ => True) m i) :
    ∃ u, Tracks (w.env i) u m w.entered.store st := by
  obtain ⟨u, hd⟩ := h.describes
  obtain rfl := h.function
  refine ⟨u, ?_, hf, Int.natCast_nonneg i, hr, hd⟩
  rw [Visit.env, Frame.depth, h.callers]
  rfl

variable (h : Meets f m w b st) (hv : w.Valid options program i) (hf : f.Addressable)
  (hty : f.PointerTyped) (hr : w.entered.store.Realized (fun _ => True) m i)
  (hb : f.block? b = some block)
include h hv hf hty hr hb

/-- A run through the block of a visit goes on with one of the frames that the visit hands on. -/
theorem step (hx : ExecAll f block.statements st st') (hleaves : Leaves st' block.terminator b') :
    ∃ u m', w.entered.store.Carries m m' w.left.store ∧
      Tracks (w.env i) u m' w.left.store st' ∧
      ∃ f' ∈ w.next, GoesTo m' w.frame w.left.store.memory b' f' := by
  obtain ⟨u, htracks⟩ := h.tracks hf hr
  obtain rfl := h.function
  rw [← h.block, hv.block] at hb
  cases hb
  have hmem := Function.block?_mem hv.block
  obtain ⟨s₁, hs₁, hterm⟩ := Machine.block_concludes hv.run
  obtain ⟨u₁, m₁, hk₁, htracks₁⟩ := htracks.execAll (hty.statements _ hmem) hx hs₁
  obtain ⟨u₂, m₂, hk₂, htracks₂, f', hf', hgoes⟩ :=
    htracks₁.leaves (hty.terminators _ hmem) hleaves hterm
  exact ⟨u₂, m₂, hk₁.trans hk₂, htracks₂, f', hf',
    hgoes.function, hgoes.callers, hgoes.block, hgoes.memory, hgoes.guard⟩

/-- If the run dereferences a null pointer in the block, this is marked when the visit is over. -/
theorem faults (hx : Faults f block.statements block.terminator st) :
    ∃ m', w.entered.store.Carries m m' w.left.store ∧ w.left.store.Marked m' i := by
  obtain ⟨u, htracks⟩ := h.tracks hf hr
  obtain rfl := h.function
  rw [← h.block, hv.block] at hb
  cases hb
  have hmem := Function.block?_mem hv.block
  obtain ⟨s₁, hs₁, hterm⟩ := Machine.block_concludes hv.run
  exact htracks.faults (hty.statements _ hmem) (hty.terminators _ hmem) hx hs₁ hterm

end Meets
end Heap

namespace Explorer

variable {s₀ : Store} {e : Explorer} {vs : List Visit} {m : Model} {ns : List Int} {j : Nat}
  {w : Visit} {args : List Constant} {bs : List Int} {b : Int} {st : Heap.State}

open Heap

/-- The first visit meets a run that has just begun. -/
theorem Logged.meets_first (hl : Logged s₀ e vs) (hnil : e.searcher.pending = [])
    (hf : e.entry.Addressable) (hadm : 0 < e.options.maxUnroll) (hst : Begins e.entry args st) :
    ∃ m w, Follows e vs m [] 0 w ∧ Meets e.entry m w 0 st ∧ e.entry.Given s₀ m args := by
  have hent := Function.entered_of_enterFunction hf hl.entered
  have hs₀ := (enterFunction_bare Store.bare_empty hl.entered).scope
  obtain ⟨u, m₀, hexact, hd, hargs⟩ := Describes.start hst hf hs₀ hent
  obtain ⟨m, w, hfol, hfirst, hkeeps⟩ := Follows.start hl hnil hadm hexact
  have hmemory : w.entered.store.memory = s₀.memory :=
    (hl.valid 0 w hfol.visit).memory.trans (congrArg Frame.memory hfirst)
  have hk : s₀.Carries m₀ m w.entered.store := ⟨(hl.based 0 w hfol.visit).length_le, hkeeps⟩
  refine ⟨m, w, hfol, ⟨congrArg Frame.function hfirst, congrArg Frame.callers hfirst,
    congrArg Frame.block hfirst, u, hd.grown hs₀ hk hmemory⟩, fun k n hk hn => ?_⟩
  rw [hkeeps n (hs₀.mentions n (.value hn)), hargs k n hk hn]

/-- Every run that keeps to the bound is followed by a path, and determines a model of it. -/
theorem Logged.follow_heap (hl : Logged s₀ e vs) (hnil : e.searcher.pending = [])
    (hty : e.entry.PointerTyped) (hf : e.entry.Addressable) (hx : Visits e.entry args bs b st)
    (hb : ∀ c, ((bs ++ [b]).count c : Int) ≤ e.options.maxUnroll) :
    ∃ m ns j w, Follows e vs m ns j w ∧ Meets e.entry m w b st ∧
      ns.map (placeOf (vs.map Visit.finished)) = (e.entry.places bs).map some ∧
      e.entry.Given s₀ m args := by
  induction hx with
  | start hst =>
    have hadm : 0 < e.options.maxUnroll := by
      have := hb 0
      rw [List.nil_append, List.count_singleton_self] at this
      omega
    obtain ⟨m, w, hfol, hmeets, hargs⟩ := hl.meets_first hnil hf hadm hst
    exact ⟨m, [], 0, w, hfol, hmeets, rfl, hargs⟩
  | @step bs b b' st st' block hx hblock hexec hleaves ih =>
    have hcount : ∀ c, (bs ++ [b] ++ [b']).count c = (bs ++ [b]).count c + [b'].count c :=
      fun c => List.count_append
    obtain ⟨m, ns, j, w, hfol, hmeets, hns, hargs⟩ := ih fun c => by
      have := hb c
      rw [hcount] at this
      omega
    have hvalid := hl.valid j w hfol.visit
    obtain ⟨u, m', hk, htracks, f', hf', hgoes⟩ :=
      hmeets.step hvalid hf hty (hfol.realized hl) hblock hexec hleaves
    have hlocation : f'.location = ⟨e.entry.name, b'⟩ := by
      rw [Frame.location, hgoes.function, hmeets.function, hgoes.block]
    have hadm : e.options.admits f' = true := by
      refine (hl.admits_next hfol.visit hfol.path hns hf').mpr ?_
      rw [hmeets.place_eq, ← Function.places_append, hlocation, Function.count_places]
      have := hb b'
      rw [hcount, List.count_singleton_self] at this
      omega
    obtain ⟨m'', k, v, hfol', rfl, hkeeps⟩ :=
      hfol.step hl hnil hk.keeps htracks.realized hf' hadm hgoes.guard
    -- the visit of the frame begins with a later graph and the memory of the frame
    obtain ⟨i, -, hji, hlt, -⟩ := hl.lt_of_mem_path hfol'.visit hfol'.path
      (List.mem_append_right ns (List.mem_singleton_self (j : Int)))
    have hext : w.left.store.graph.Extends v.entered.store.graph :=
      (Graph.Extends.close (Int.natCast_nonneg j)).trans
        (hl.ordered j k w v (by omega) hfol.visit hfol'.visit)
    have hk' : w.left.store.Carries m' m'' v.entered.store := ⟨hext.length_le, hkeeps⟩
    have hdescribes := htracks.describes
    rw [Visit.env, hmeets.function] at hdescribes
    refine ⟨m'', ns ++ [(j : Int)], k, v, hfol', ⟨hgoes.function.trans hmeets.function,
      hgoes.callers.trans hmeets.callers, hgoes.block, u, hdescribes.grown htracks.realized.scope
        hk' ((hl.valid k v hfol'.visit).memory.trans hgoes.memory)⟩, ?_, fun i n hi hn => ?_⟩
    · rw [List.map_append, hns, Function.places_append, List.map_append, List.map_singleton,
        List.map_singleton, placeOf_eq hfol.visit, hmeets.place_eq]
    · rw [(hk.trans hk').keeps n (hl.knows_of_mentions hfol.visit (.value hn)), hargs i n hi hn]

/-- **No null dereference is lost.**  Suppose that a run of the entry function dereferences a null
pointer, after it has gone through some blocks and none of them too often.  Then a path of the graph
goes through exactly these blocks, a name is tagged at its last node, and some model with the
arguments of the run gives this name the value zero and makes the path constraint of the node and
the assertions on the way to it true.  The function has no more locals than there are slots. -/
theorem null_dereference_tagged (he : e.Fresh) (hty : e.entry.PointerTyped)
    (hf : e.entry.Addressable) (hrun : e.trace.1 = .ok ())
    (hnull : DereferencesNull e.entry args bs b)
    (hb : ∀ c, ((bs ++ [b]).count c : Int) ≤ e.options.maxUnroll) :
    ∃ ns n m, e.trace.2.1.graph.PathTo e.trace.2.1.root ns n ∧
      route e.trace.2.2 (ns ++ [n]) = e.entry.places (bs ++ [b]) ∧
      e.trace.2.1.graph.ModelsPath args ns n m ∧
      ∃ x d tag, e.trace.2.1.graph.declaration? x = some d ∧ tag ∈ d.derefs ∧ tag.node = n ∧
        m.get? x = some (.ofInt 0) := by
  obtain ⟨s₀, vs, hl, hnil, hframes, hoptions, -, hentry⟩ := exists_log he hrun
  obtain ⟨st, block, hx, hblock, hfaults⟩ := hnull
  rw [hframes]
  rw [← hoptions] at hb
  rw [← hentry] at hty hf hx hblock hfaults ⊢
  obtain ⟨m, ns, j, w, hfol, hmeets, hns, hargs⟩ := hl.follow_heap hnil hty hf hx hb
  obtain ⟨m', hk, hmarked⟩ := hmeets.faults (hl.valid j w hfol.visit) hf hty (hfol.realized hl)
    hblock hfaults
  have hext : w.left.store.graph.Extends e.trace.2.1.graph :=
    (Graph.Extends.close (Int.natCast_nonneg j)).trans (hl.final j w hfol.visit)
  obtain ⟨m'', hkeeps, hexact, hpass, hholds⟩ :=
    hfol.complete hl hk.keeps hext hk.le hmarked.exact
  obtain ⟨x, d, tag, hd, htag, hnode, hzero⟩ := hmarked.null
  obtain ⟨d', hd', hgain⟩ := hext.decls x.index d hd
  refine ⟨ns, j, m'', hfol.path, ?_, ⟨hexact, (hl.reads_iff hf).mpr fun k n hk' hn => ?_, hpass,
    hholds⟩, x, d', tag, hd', hgain.derefs htag, hnode, ?_⟩
  · refine List.map_injective_iff.mpr (Option.some_injective _) ?_
    rw [← hl.map_placeOf hfol.path, List.map_append, hns, Function.places_append, List.map_append,
      List.map_singleton, List.map_singleton, Logged.placeOf_eq hfol.visit, hmeets.place_eq]
  · have hknown := hl.knows_of_mentions hfol.visit (.value hn)
    rw [hkeeps n ⟨trivial, Nat.lt_of_lt_of_le hknown.2 hk.le⟩, hk.keeps n hknown, hargs k n hk' hn]
  · rw [hkeeps x ⟨trivial, (List.getElem?_eq_some_iff.mp hd).1⟩, hzero]

/-! ## A pointer that is overwritten through its address -/

/-- Copies its parameter to a local, and sets this local to zero through its address.  If the
parameter leads to 7, the local is dereferenced. -/
def overwritten : Function where
  name := "overwritten"
  locals := [⟨"", .integer⟩, ⟨"p", .pointerTo .integer⟩, ⟨"q", .pointerTo .integer⟩,
    ⟨"r", .pointerTo (.pointerTo .integer)⟩]
  argCount := 1
  blocks := [
    ⟨[.assign ⟨2, 0⟩ (.use (.copy ⟨1, 0⟩)) {}, .assign ⟨3, 0⟩ (.ref ⟨2, 0⟩) {},
      .assign ⟨3, 1⟩ (.use (.const 0 (.pointerTo .integer))) {}],
      .switch (.copy ⟨1, 1⟩) [7] [1, 2] {}⟩,
    ⟨[.assign ⟨0, 0⟩ (.use (.copy ⟨2, 1⟩)) {}], .return⟩,
    ⟨[], .return⟩]

/-- An exploration of it. -/
def overwrittenExplorer : Explorer where
  entry := overwritten

theorem overwritten_pointerTyped : overwritten.PointerTyped := by
  have hp : overwritten.placeType ⟨1, 0⟩ = .ok (.pointerTo .integer) := rfl
  have hq : overwritten.placeType ⟨2, 0⟩ = .ok (.pointerTo .integer) := rfl
  have hr : overwritten.placeType ⟨3, 0⟩ = .ok (.pointerTo (.pointerTo .integer)) := rfl
  have hblocks : ∀ {P : Block → Prop}, P overwritten.blocks[0] → P overwritten.blocks[1] →
      P overwritten.blocks[2] → ∀ b ∈ overwritten.blocks, P b := by
    intro P h₀ h₁ h₂
    exact List.forall_mem_cons.mpr ⟨h₀, List.forall_mem_cons.mpr ⟨h₁,
      List.forall_mem_singleton.mpr h₂⟩⟩
  constructor
  · refine hblocks (List.forall_mem_cons.mpr ⟨?_, List.forall_mem_cons.mpr ⟨?_,
      List.forall_mem_singleton.mpr ?_⟩⟩) (List.forall_mem_singleton.mpr ?_) (by simp [overwritten])
    · exact ⟨⟨_, hp⟩, _, hq, fun _ => ⟨_, hp, rfl⟩⟩
    · exact ⟨⟨_, hq⟩, _, hr, fun _ => ⟨_, hq, rfl⟩⟩
    · exact ⟨trivial, _, rfl, fun _ => rfl⟩
    · exact ⟨⟨_, rfl⟩, _, rfl, fun h => nomatch h⟩
  · exact hblocks ⟨.integer, rfl⟩ trivial trivial

/-- The parameter is 5, and 7 is stored there.  In the second block the local is zero. -/
theorem overwritten_dereferencesNull : DereferencesNull overwritten [.ofInt 5] [0] 1 := by
  have h₀ : Stores overwritten [.ofInt 5] 1 _ := .next .none
    (.mk (a := 10) rfl (.int 0) (by decide) rfl) fun j c hj => absurd hj (by omega)
  have h₁ := h₀.next (.mk (a := 11) rfl (.pointer (a := 5) (.int 7) (by decide) rfl) (by decide) rfl)
    fun j c hj hc => by
      obtain rfl : j = 0 := by omega
      cases hc
      rfl
  have h₂ := h₁.next (.mk (a := 12) rfl .null (by decide) rfl) fun j c hj hc => by
    obtain rfl : j = 1 := by omega
    cases hc
  have h₃ := h₂.next (.mk (a := 13) rfl .null (by decide) rfl) fun j c hj hc => by
    obtain rfl : j = 2 := by omega
    cases hc
  have hstart : Visits overwritten [.ofInt 5] [] 0 _ := .start ⟨rfl, h₃⟩
  have hstep : Visits overwritten [.ofInt 5] [0] 1 _ := hstart.step rfl
    (.cons (.assign rfl) (.cons (.assign rfl) (.cons (.assign rfl) .nil)))
    (.switch (i := 0) rfl (.inl ⟨7, rfl, rfl⟩) rfl)
  exact ⟨_, _, hstep, rfl, .here rfl⟩

/-- The exploration finds the null dereference in the second block. -/
theorem overwritten_tagged : overwrittenExplorer.trace.1 = .ok () ∧
    DereferencesNull overwritten [.ofInt 5] [0] 1 ∧
    ∃ ns n m, overwrittenExplorer.trace.2.1.graph.PathTo overwrittenExplorer.trace.2.1.root ns n ∧
      route overwrittenExplorer.trace.2.2 (ns ++ [n]) =
        [(⟨"overwritten", 0⟩, 0), (⟨"overwritten", 1⟩, 0)] ∧
      overwrittenExplorer.trace.2.1.graph.ModelsPath [.ofInt 5] ns n m ∧
      ∃ x d tag, overwrittenExplorer.trace.2.1.graph.declaration? x = some d ∧ tag ∈ d.derefs ∧
        tag.node = n ∧ m.get? x = some (.ofInt 0) := by
  have hrun : overwrittenExplorer.trace.1 = .ok () := by decide +kernel
  have hfresh : overwrittenExplorer.Fresh := .new ..
  have hf : overwritten.Addressable := by simp [overwritten, Function.Addressable]
  have hb : ∀ c, ((([0] : List Int) ++ [1]).count c : Int) ≤
      overwrittenExplorer.options.maxUnroll := by
    intro c
    have hle := List.count_le_length (a := c) (l := ([0] : List Int) ++ [1])
    have hmax : overwrittenExplorer.options.maxUnroll = 5 := rfl
    simp only [List.length_append, List.length_singleton] at hle
    omega
  exact ⟨hrun, overwritten_dereferencesNull, null_dereference_tagged hfresh overwritten_pointerTyped
    hf hrun overwritten_dereferencesNull hb⟩

end Explorer
end NullPath
