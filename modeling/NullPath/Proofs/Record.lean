import Mathlib.Algebra.Ring.Nat
import NullPath.Proofs.RootedTree
import NullPath.Proofs.Visits

/-!
# What a log records

The counters, the names and the tags of an exploration can be read off its log.  Every counter is a
sum over the visits.  Every name was declared at the entry or by one visit, and a tag was made by the
visit whose node it names.

* `Explorer.Recorded`: the counters, names and tags of a log.
* `Explorer.exists_record`: every successful exploration has a log with them.
-/

namespace NullPath

namespace Visit

/-- The number of calls whose result the visit left open. -/
def havoced (v : Visit) : Nat :=
  v.left.stats.havoced - v.entered.stats.havoced

/-- The number of calls that the visit followed. -/
def inlined (v : Visit) : Nat :=
  v.left.stats.inlined - v.entered.stats.inlined

end Visit

namespace Explorer

variable {s₀ : Store} {e e' : Explorer} {vs : List Visit} {v : Visit}

/-- What the visits say about the counters, the names and the tags. -/
structure Recorded (s₀ : Store) (e : Explorer) (vs : List Visit) : Prop where
  frames : e.stats.frames = e.stats.nodes + e.searcher.pending.length
  nodes : e.stats.nodes = vs.length
  pruned : e.stats.pruned =
    (firstFrame e s₀ :: vs.flatMap Visit.next).countP fun f => !e.options.admits f
  havoced : e.stats.havoced = (vs.map Visit.havoced).sum
  inlined : e.stats.inlined = (vs.map Visit.inlined).sum
  names : ∀ k, s₀.graph.decls.length ≤ k → k < e.graph.decls.length →
    ∃ (i : Nat) (v : Visit), vs[i]? = some v ∧ v.entered.store.graph.decls.length ≤ k ∧
      k < v.left.store.graph.decls.length
  tags : ∀ (k i : Nat) d t, e.graph.decls[k]? = some d → t ∈ d.derefs → t.node = i →
    ∃ v d', vs[i]? = some v ∧ v.left.store.graph.decls[k]? = some d' ∧ t ∈ d'.derefs
  clean : ∀ (i : Nat) v, vs[i]? = some v → ∀ d ∈ v.entered.store.graph.decls, ∀ t ∈ d.derefs,
    t.node ≠ i
  rooted : e.Rooted (vs.map Visit.frame)

theorem Unused.recorded (he : e.Unused) (hl : Logged s₀ e.entered []) :
    Recorded s₀ e.entered [] := by
  have henter := hl.entered
  rw [(sameTask_entered e).entry] at henter
  have htags : ∀ (k i : Nat) d t, e.entered.graph.decls[k]? = some d → t ∈ d.derefs → t.node ≠ i := by
    intro k i d t hd ht heq
    obtain ⟨n, hn⟩ := he.rooted_entered.tags d (List.mem_of_getElem? hd) t ht
    have hlt := Graph.lt_length_of_node? hn
    rw [he.rooted_entered.spans.size, heq] at hlt
    cases hlt
  rcases he.start_cases with ⟨s, searcher, hs, -, hentered, -⟩ | ⟨failure, s, hs, -, -⟩
  · cases hs.symm.trans henter
    refine ⟨he.frames_entered, he.rooted_entered.count.trans he.rooted_entered.spans.size, ?_, ?_, ?_,
      ?_, fun k i d t hd ht hnode => absurd hnode (htags k i d t hd ht), by simp,
      he.rooted_entered⟩ <;>
    rw [hentered]
    · simp only [scheduledStats, he.stats, Nat.zero_add]
      rfl
    · simp [scheduledStats, he.stats]
    · simp [scheduledStats, he.stats]
    · exact fun k hk hlt => absurd hlt (Nat.not_lt.mpr hk)
  · cases (Prod.mk.inj (hs.symm.trans henter)).1

/-- A visit adds to the counters, declares names, and makes tags at its node. -/
theorem Recorded.snoc (h : Recorded s₀ e vs) (hl : Logged s₀ e vs) (hv : e.MakesVisit v e') :
    Recorded s₀ e' (vs ++ [v]) := by
  obtain @⟨frame, searcher, b, g, root, m, next, hsel, hx⟩ := hv
  have hframes := (Turn.executed hsel hx).frames hl.turning (fun _ _ => nofun) h.frames
  have hgrown := hx.grown
  obtain ⟨es, hg⟩ := hgrown.store
  have hdecls := hx.link.decls
  have hsize := hl.size
  have hrooted := h.rooted.turn hl.started (.executed hsel hx)
  rw [chosen?_of_block hl.started hsel hx.block] at hrooted
  obtain ⟨searcher', hsched, -⟩ := foldl_schedule_eq (e.executed searcher root m) next
  refine ⟨hframes, ?_, ?_, ?_, ?_, ?_, ?_, fun i w hw d hd t ht => ?clean,
    by simpa using hrooted⟩
  case clean =>
    rcases getElem?_snoc hw with hw | ⟨rfl, rfl⟩
    · exact h.clean i w hw d hd t ht
    · -- the tags that a visit finds were made at earlier nodes
      obtain ⟨k, hk⟩ := List.mem_iff_getElem?.mp hd
      rw [show g.decls = e.graph.decls from hdecls] at hk
      obtain ⟨i, u, hi, hu, -⟩ := hl.tags k d hk t ht
      have hlt := lt_length_of_getElem? hu
      omega
  all_goals rw [hsched]
  · have hnodes : m.stats.nodes = e.stats.nodes + 1 := hgrown.nodes
    simp [scheduledStats, Explorer.executed, hnodes, h.nodes]
  · have hpruned : m.stats.pruned = e.stats.pruned := hgrown.pruned
    have hsum := h.pruned
    rw [List.flatMap_append, ← List.cons_append, List.countP_append, List.flatMap_singleton]
    rw [scheduledStats, Explorer.executed, hpruned, hsum]
    rfl
  · have hle : e.stats.havoced ≤ m.stats.havoced := hgrown.havoced
    have hsum := h.havoced
    simp only [scheduledStats, Explorer.executed, List.map_append, List.sum_append, Visit.havoced,
      List.map_cons, List.map_nil, List.sum_cons, List.sum_nil] at hsum ⊢
    omega
  · have hle : e.stats.inlined ≤ m.stats.inlined := hgrown.inlined
    have hsum := h.inlined
    simp only [scheduledStats, Explorer.executed, List.map_append, List.sum_append, Visit.inlined,
      List.map_cons, List.map_nil, List.sum_cons, List.sum_nil] at hsum ⊢
    omega
  · intro k hk hlt
    by_cases hnew : g.decls.length ≤ k
    · exact ⟨vs.length, _, List.getElem?_concat_length, hnew, hlt⟩
    · obtain ⟨i, w, hw, hrange⟩ := h.names k hk (by rw [← hdecls]; omega)
      have hi := lt_length_of_getElem? hw
      exact ⟨i, w, by rw [List.getElem?_append_left hi, hw], hrange⟩
  · intro k i d t hd ht hnode
    by_cases hi : i = vs.length
    · subst hi
      exact ⟨_, d, List.getElem?_concat_length, hd, ht⟩
    · -- a tag at another node was there before
      have hne : t.node ≠ (e.graph.nodes.length : Int) := by
        rw [hnode, hsize]
        exact_mod_cast hi
      obtain ⟨d₀, hd₀, ht⟩ := (hg.node_or_tag hd ht).resolve_left hne
      obtain ⟨w, d', hw, hd', ht'⟩ := h.tags k i d₀ t (by rw [← hdecls]; exact hd₀) ht hnode
      have hlt := lt_length_of_getElem? hw
      exact ⟨w, d', by rw [List.getElem?_append_left hlt, hw], hd', ht'⟩

/-- Finding that nothing waits leaves everything as it is. -/
theorem Recorded.finish (h : Recorded s₀ e vs) {searcher : Searcher Frame}
    (hnil : e.searcher.pending = []) (hnil' : searcher.pending = []) (hturn : searcher.Turning) :
    Recorded s₀ { e with searcher } vs where
  frames := by simpa [hnil, hnil'] using h.frames
  nodes := h.nodes
  pruned := h.pruned
  havoced := h.havoced
  inlined := h.inlined
  names := h.names
  tags := h.tags
  clean := h.clean
  rooted := { h.rooted with turning := hturn, waiting := by simp [hnil'], alone := by simp [hnil'] }

/-- Every successful exploration has a log that records its counters, names and tags. -/
theorem exists_record (he : e.Unused) (h : e.trace.1 = .ok ()) :
    ∃ s₀ vs, Logged s₀ e.trace.2.1 vs ∧ Recorded s₀ e.trace.2.1 vs ∧ vs.length < stepBudget ∧
      e.trace.2.1.searcher.pending = [] ∧ e.trace.2.2 = vs.map Visit.finished ∧
      e.trace.2.1.options = e.options ∧ e.trace.2.1.program = e.program ∧
      e.trace.2.1.entry = e.entry :=
  exists_log_with (fun _ => he.recorded) (fun _ _ _ _ _ hl hr hv => hr.snoc hl hv)
    (fun _ _ _ _ hnil hnil' hturn hr => hr.finish hnil hnil' hturn) he.toFresh h

end Explorer
end NullPath
