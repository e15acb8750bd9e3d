import NullPath.Proofs.Mirroring
import NullPath.Proofs.Paths
import NullPath.Proofs.Record

/-!
# Replaying a visit

Two explorations of one function meet the same frames in different orders, and what they find in
their graphs depends on the order.  To compare them, a frame is replayed on its own: on a graph
with a single node, and with the names that were declared on the way to it.  A visit of either
exploration does what the replay does, up to a renaming, and therefore what the other one does.

* `Frame.replayed`: the state in which a replay begins.
* `Frame.Resumes.exists_replay`, `Visit.Renamed.resumes`: from frames to visits and back.
* `Frame.Resumes.succeeds`: where a replay succeeds, an exploration does.
-/

namespace NullPath

variable {ρ σ : Name ↪ Name}

theorem Memory.Renamed.refl {m : Memory} : m.Renamed (.refl Name) m := by
  refine ⟨⟨fun x => ?_⟩, ⟨fun x => ?_⟩, ⟨fun p => ?_⟩⟩
  · exact Option.map_id'.symm
  · exact Option.map_id'.symm
  · exact Option.map_id'.symm

theorem Graph.index_lt_of_uses {g : Graph} {P : Name → Prop} {n : Name} {s : ExprSort}
    (h : g.uses P n s) : n.index < g.decls.length := by
  obtain ⟨-, d, hd, -⟩ := h
  exact lt_length_of_getElem? hd

/-! ## Frames -/

namespace Frame

variable {f f' : Frame} {g : Graph} {decls : List Declaration}

theorem Alike.visit (h : f.Alike f') : f.visit.Alike f'.visit :=
  ⟨h.function, h.block, h.callers⟩

theorem Alike.depth (h : f.Alike f') : f'.depth = f.depth :=
  congrArg List.length h.callers

theorem Alike.location (h : f.Alike f') : f'.location = f.location := by
  rw [Frame.location, Frame.location, h.function, h.block]

theorem Alike.admits (h : f.Alike f') (hpath : f'.path = f.path) (options : Options) :
    options.admits f' = options.admits f := by
  rw [Options.admits, Options.admits, seen, seen, h.location, hpath]

/-- A frame of an exploration, which goes on from a graph, is a frame of a replay up to a renaming
of the names that are declared there. -/
structure Resumes (ρ : Name ↪ Name) (decls : List Declaration) (f : Frame) (g : Graph)
    (f' : Frame) : Prop where
  frame : f.Renamed ρ f'
  declared : ∀ (n : Name) d, decls[n.index]? = some d →
    ∃ d', g.declaration? (ρ n) = some d' ∧ d'.name = ρ d.name ∧ d'.sort = d.sort
  beyond : Shifts ρ decls.length g.decls.length
  memory : Store.Scoped (fun _ => True) ⟨g, f'.memory⟩
  guard : ∀ c, f'.guard = some c → c.Sorted g.uses

/-- The state in which the replay of a frame begins: one node, and the names that were declared on
the way, which have no tags there. -/
def replayed (decls : List Declaration) (f : Frame) : Machine :=
  { store := ⟨{ nodes := [{}], decls := decls.map fun d => { d with derefs := [] } }, f.memory⟩ }

/-- The environment of a replay. -/
def replayEnv (f : Frame) : Env :=
  { function := f.function, depth := f.depth, node := 0 }

namespace Resumes

/-- Another renaming does for a frame what the first one does if it agrees on the names that are
declared. -/
theorem renamed_congr (h : f.Resumes ρ decls g f') {b : Nat} (hσ : Shifts σ decls.length b)
    (hb : g.decls.length ≤ b) (hsame : ∀ n, n.index < decls.length → σ n = ρ n) :
    f.Renamed σ f' := by
  refine ⟨h.frame.toAlike, ?_, ?_⟩
  · exact h.frame.memory.congr h.beyond hσ hb hsame fun n hn => (h.memory.mentions n hn).2
  · rw [h.frame.guard]
    cases hc : f.guard with
    | none => rfl
    | some c =>
      have hguard := h.frame.guard
      rw [hc, Option.map_some] at hguard
      refine congrArg some ((h.guard _ hguard).of_rename.rename_congr fun n s hn => ?_)
      exact (hsame n (h.beyond.index_lt_iff.mp (Graph.index_lt_of_uses hn))).symm

/-- An exploration and a replay of a frame begin in the same state, up to a renaming. -/
theorem exists_opening (h : f.Resumes ρ decls g f') {t : Store} {j : Int} {links : List Edge}
    (hg : g.Extends t.graph) (hmemory : t.memory = f'.memory)
    (hnode : t.graph.node? j = some { into := links })
    (hclean : ∀ d ∈ t.graph.decls, ∀ tag ∈ d.derefs, tag.node ≠ j) :
    ∃ σ : Name ↪ Name, (∀ n, n.index < decls.length → σ n = ρ n) ∧ f.Renamed σ f' ∧
      (replayed decls f).store.Renamed σ 0 j t := by
  obtain ⟨σ, hsame, hσ⟩ := h.beyond.exists_extension hg.length_le
  have hframe := h.renamed_congr hσ hg.length_le hsame
  have hnone : ∀ d ∈ t.graph.decls, d.spansAt j = [] := by
    intro d hd
    rw [Declaration.spansAt, List.map_eq_nil_iff, List.filter_eq_nil_iff]
    intro tag htag
    simpa using hclean d hd tag htag
  refine ⟨σ, hsame, hframe, ?_, fun n d hd => ?_, fun n' d' hd' hne => ?_, ?_, {},
    { into := links }, rfl, hnode, rfl, rfl⟩
  · rw [hmemory]
    exact hframe.memory
  · have hd : (decls.map fun d => { d with derefs := [] })[n.index]? = some d := hd
    rw [List.getElem?_map] at hd
    obtain ⟨d₀, hd₀, rfl⟩ := Option.map_eq_some_iff.mp hd
    have hn := lt_length_of_getElem? hd₀
    obtain ⟨d₁, hd₁, hname, hsort⟩ := h.declared n d₀ hd₀
    obtain ⟨d', hd', hext⟩ := hg.decls _ d₁ hd₁
    refine ⟨d', by rw [hsame n hn]; exact hd', ?_, hext.sort.trans hsort, ?_⟩
    · have htidy : d₁.name = ρ n := (h.memory.tidy _ d₁ hd₁).1
      obtain rfl := ρ.injective (hname.symm.trans htidy)
      rw [hsame _ hn, hext.name, hname]
    · exact hnone d' (List.mem_of_getElem? hd')
  · exact absurd (hnone d' (List.mem_of_getElem? hd')) hne
  · have hlen : (replayed decls f).store.graph.decls.length = decls.length := by
      simp [replayed]
    rw [hlen]
    exact hσ

end Resumes

end Frame

/-! ## Visits -/

/-- The visit with a number is a replay up to a renaming. -/
structure Visit.Renamed (ρ : Name ↪ Name) (i : Nat) (r v : Visit) : Prop where
  frame : r.frame.Renamed ρ v.frame
  block : v.block = r.block
  entered : r.entered.store.Renamed ρ 0 i v.entered.store
  left : r.left.store.Renamed ρ 0 i v.left.store
  next : List.Forall₂ (Frame.Renamed ρ) r.next v.next
  havoced : v.havoced = r.havoced
  inlined : v.inlined = r.inlined

namespace Frame.Resumes

variable {f f' : Frame} {g : Graph} {decls : List Declaration} {options options' : Options}
  {program : Program} {b : Block} {i : Nat} {v : Visit}

/-- Executing a block on an exploration's state and on the state of a replay agree. -/
theorem agree (halike : Machine.FollowsAlike options options' program f.depth b.terminator)
    (hf : f.Renamed σ f') {j : Int} {m : Machine}
    (hm : (replayed decls f).store.Renamed σ 0 j m.store) :
    Action.Agree (Machine.Renamed σ 0 j {} m.stats) (List.Forall₂ (Frame.Renamed σ))
      (Machine.block options program f.visit f.replayEnv b (replayed decls f))
      (Machine.block options' program f'.visit
        { function := f'.function, depth := f'.depth, node := j } b m) := by
  rw [hf.function, hf.depth]
  exact Machine.mirrors_block hf.toAlike.visit f.replayEnv halike _ _
    ⟨hm, Nat.zero_add _, Nat.zero_add _⟩

/-- A visit is a replay of its frame, up to a renaming. -/
theorem exists_replay (h : f.Resumes ρ decls g v.frame)
    (halike : Machine.FollowsAlike options options' program f.depth v.block.terminator)
    (hv : v.Valid options' program i)
    (hg : g.Extends v.entered.store.graph)
    (hclean : ∀ d ∈ v.entered.store.graph.decls, ∀ tag ∈ d.derefs, tag.node ≠ i) :
    ∃ (σ : Name ↪ Name) (next : List Frame) (m : Machine),
      (∀ n, n.index < decls.length → σ n = ρ n) ∧
      Machine.block options program f.visit f.replayEnv v.block (replayed decls f) =
        (.ok next, m) ∧
      Visit.Renamed σ i ⟨f, v.block, replayed decls f, m, next⟩ v := by
  obtain ⟨σ, hsame, hframe, hopen⟩ := h.exists_opening hg hv.memory hv.node hclean
  have hagree := agree halike hframe hopen
  have hrun := hv.run
  unfold Visit.env at hrun
  rw [hrun] at hagree
  generalize Machine.block options program f.visit f.replayEnv v.block (replayed decls f) = r
    at hagree ⊢
  cases hagree with
  | @ok next _ m _ hm hnext =>
    have hhavoced : m.stats.havoced + v.entered.stats.havoced = v.left.stats.havoced := hm.havoced
    have hinlined : m.stats.inlined + v.entered.stats.inlined = v.left.stats.inlined := hm.inlined
    refine ⟨σ, next, m, hsame, rfl, hframe, rfl, hopen, hm.store, hnext, ?_, ?_⟩
    · simp only [Visit.havoced, ← hhavoced, replayed]
      omega
    · simp only [Visit.inlined, ← hinlined, replayed]
      omega

/-- Where the replay of a frame succeeds, an exploration succeeds. -/
theorem succeeds (h : f.Resumes ρ decls g f') {m m' : Machine} {next : List Frame} {j : Int}
    {links : List Edge}
    (hreplay : Machine.block options program f.visit f.replayEnv b (replayed decls f) =
      (.ok next, m))
    (hg : g.Extends m'.store.graph) (hmemory : m'.store.memory = f'.memory)
    (hnode : m'.store.graph.node? j = some { into := links })
    (hclean : ∀ d ∈ m'.store.graph.decls, ∀ tag ∈ d.derefs, tag.node ≠ j) (failure : Failure) :
    (Machine.block options program f'.visit
      { function := f'.function, depth := f'.depth, node := j } b m').1 ≠ .error failure := by
  obtain ⟨σ, -, hframe, hopen⟩ := h.exists_opening hg hmemory hnode hclean
  have hagree := agree (.refl options program _ b.terminator) hframe hopen
  rw [hreplay] at hagree
  intro herr
  generalize Machine.block options program f'.visit
    { function := f'.function, depth := f'.depth, node := j } b m' = r at hagree herr
  cases hagree with
  | ok => cases herr

end Frame.Resumes

namespace Visit.Renamed

variable {i : Nat} {r v : Visit} {options : Options} {program : Program}

/-- A frame that the replay hands on is handed on by the visit. -/
theorem resumes (h : r.Renamed ρ i v) (hv : v.Valid options program i) {c : Nat} {f f' : Frame}
    (hf : r.next[c]? = some f) (hf' : v.next[c]? = some f') :
    f.Resumes ρ r.left.store.graph.decls (v.graph i) f' := by
  obtain ⟨n, -, -, -, -, hgoes⟩ := hv.evolves hv.scope
  have hgo := hgoes f' (List.mem_of_getElem? hf')
  refine ⟨?_, fun n d hd => ?_, h.left.beyond, hgo.memory.of_decls_eq rfl,
    fun c hc => (hgo.guard c hc).1.sorted⟩
  · obtain ⟨hlt, rfl⟩ := List.getElem?_eq_some_iff.mp hf
    obtain ⟨hlt', rfl⟩ := List.getElem?_eq_some_iff.mp hf'
    exact h.next.get hlt hlt'
  · obtain ⟨d', hd', hdd⟩ := h.left.decls n d hd
    exact ⟨d', hd', hdd.name, hdd.sort⟩

end Visit.Renamed

end NullPath
