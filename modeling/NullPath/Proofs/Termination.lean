import Mathlib.Algebra.Order.BigOperators.Group.List
import Mathlib.Algebra.Order.Ring.Nat
import NullPath.Proofs.Paths
import NullPath.Proofs.RootedTree

/-!
# Explorations end

Frames multiply at switches, and call stacks grow and shrink, so no single counter goes down.  But
the path of a frame may execute every location only so often.  What is left of this budget, over all
locations of the code, is smaller for each frame that a block hands on, and a block hands on only so
many.  So if a frame weighs as much as a full tree of that depth and width, every step that takes a
frame makes the waiting frames lighter.

* `Explorer.Allowed`, `Explorer.Bounded`: the frames of an exploration stay within the bounds.
* `Explorer.weight`, `Explorer.Turn.weight_lt`: the measure, and that it decreases.
* `Explorer.exploration_ends`: the number of steps, the blocks on a path, and the call depth are
  bounded.
-/

namespace NullPath

namespace Explorer

variable {e e' : Explorer} {o : Outcome} {fs : List Frame} {f frame : Frame}

/-! ## Frames within the bounds -/

/-- The functions that an exploration can reach. -/
def functions (e : Explorer) : List Function :=
  e.entry :: e.program.functions

/-- The frame is within the bounds, and its path goes on from that of the frame it came from. -/
structure Allowed (e : Explorer) (fs : List Frame) (f : Frame) : Prop
    extends f.Within e.options e.functions where
  admits : e.options.admits f = true
  path : ∀ l, (f.path.count l : Int) ≤ e.options.maxUnroll
  first : f.parent = none → f.path = []
  later : ∀ k : Nat, f.parent = some (k : Int) →
    ∃ f', fs[k]? = some f' ∧ f.path = f'.location :: f'.path

namespace Allowed

theorem append (h : e.Allowed fs f) (fs' : List Frame) : e.Allowed (fs ++ fs') f := by
  refine { h with later := fun k hk => ?_ }
  obtain ⟨f', hf', hpath⟩ := h.later k hk
  have hlt := lt_length_of_getElem? hf'
  exact ⟨f', by rw [List.getElem?_append_left hlt, hf'], hpath⟩

theorem sameTask (h : e.Allowed fs f) (hs : e.SameTask e') : e'.Allowed fs f := by
  have hfunctions : e'.functions = e.functions := by
    rw [functions, functions, hs.entry, hs.program]
  refine ⟨?_, ?_, ?_, h.first, h.later⟩
  · rw [hs.options, hfunctions]
    exact h.toWithin
  · rw [hs.options]
    exact h.admits
  · rw [hs.options]
    exact h.path

/-- The number of a frame does not matter. -/
theorem of_unnumbered {f' : Frame} (h : e.Allowed fs f') (heq : f'.unnumbered = f.unnumbered) :
    e.Allowed fs f := by
  have h' : e.Allowed fs f'.unnumbered := { h with }
  rw [heq] at h'
  exact { h' with }

/-- One more location keeps the path within the bound. -/
theorem count_le (h : e.Allowed fs f) (l : Location) :
    ((f.location :: f.path).count l : Int) ≤ e.options.maxUnroll := by
  have hadmits : (f.path.count f.location : Int) < e.options.maxUnroll :=
    of_decide_eq_true h.admits
  rw [List.count_cons]
  split
  · next hl =>
    obtain rfl := beq_iff_eq.mp hl
    omega
  · exact h.path l

/-- A frame that an allowed one hands on is allowed, if its block may still be executed. -/
theorem succeeds (h : e.Allowed fs frame)
    (hf : frame.visit.Succeeds e.options e.program fs.length f)
    (hadm : e.options.admits f = true) : e.Allowed (fs ++ [frame]) f := by
  have hvisit : f.path = frame.location :: frame.path := hf.path
  have hwithin : frame.visit.Within e.options e.functions := { h.toWithin with }
  refine ⟨hwithin.succeeds hf fun _ => List.mem_cons_of_mem _, hadm, fun l => ?_, fun hnone => ?_,
    fun k hk => ?_⟩
  · rw [hvisit]
    exact h.count_le l
  · rw [hf.parent] at hnone
    cases hnone
  · rw [hf.parent] at hk
    obtain rfl := Int.ofNat.inj (Option.some.inj hk)
    exact ⟨frame, by simp, hvisit⟩

end Allowed

/-- All frames, executed or waiting, are within the bounds. -/
structure Bounded (e : Explorer) (fs : List Frame) : Prop where
  executed : ∀ f ∈ fs, e.Allowed fs f
  waiting : ∀ f ∈ e.searcher.pending, e.Allowed fs f

theorem Fresh.bounded_entered (he : e.Fresh) : e.entered.Bounded [] := by
  refine ⟨by simp, ?_⟩
  rcases he.start_cases with ⟨s, searcher, -, -, hentered, hpend⟩ | ⟨failure, s, -, -, hentered⟩
  · rw [hentered]
    intro f hf
    obtain ⟨f', hf', heq⟩ := exists_unnumbered_eq hpend hf
    obtain ⟨hmem, hadm⟩ := List.mem_filter.mp hf'
    obtain rfl := List.mem_singleton.mp hmem
    refine Allowed.of_unnumbered ⟨⟨List.mem_cons_self, by simp, Int.le_max_left 0 _, by simp⟩, hadm,
      fun l => ?_, fun _ => rfl, fun k hk => by cases hk⟩ heq
    have hadm : (((List.count _ []) : Nat) : Int) < e.options.maxUnroll := of_decide_eq_true hadm
    exact hadm.le
  · rw [hentered]
    simp [he.pending]

/-- Every step keeps all frames within the bounds. -/
theorem Bounded.turn (h : e.Bounded fs) (hr : e.Rooted fs) (hs : e.started = true)
    (ht : e.Turn o e') : e'.Bounded (fs ++ e.chosen?.toList) := by
  have hsame := ht.sameTask
  suffices hall : ∀ f ∈ e'.searcher.pending, e.Allowed (fs ++ e.chosen?.toList) f by
    refine ⟨fun f hf => ?_, fun f hf => (hall f hf).sameTask hsame⟩
    rcases List.mem_append.mp hf with hf | hf
    · exact ((h.executed f hf).append _).sameTask hsame
    · have hchosen := (Option.filter_eq_some_iff.mp (Option.mem_toList.mp hf)).1
      rw [if_pos hs] at hchosen
      have hperm := (Searcher.pending_of_select_some hr.turning (Prod.ext hchosen rfl)).2
      exact ((h.waiting f (hperm.mem_iff.mpr List.mem_cons_self)).append _).sameTask hsame
  -- a frame that was taken out leaves the others as they are
  have hrest : ∀ {frame searcher}, e.searcher.select = (some frame, searcher) →
      ∀ f ∈ searcher.pending, e.Allowed fs f := fun hsel f hf =>
    h.waiting f ((Searcher.pending_of_select_some hr.turning hsel).2.mem_iff.mpr
      (.tail _ hf))
  cases ht with
  | finished hsel =>
    rw [(Searcher.pending_of_select_none hr.turning hsel).2.1]
    exact fun f hf => absurd hf List.not_mem_nil
  | outside hsel _ | unlinked hsel _ _ | broken hsel _ =>
    exact fun f hf => (hrest hsel f hf).append _
  | @executed frame searcher b g root m next hsel hx =>
    obtain ⟨hturn, hpend⟩ := Searcher.pending_of_select_some hr.turning hsel
    have hframe := h.waiting frame (hpend.mem_iff.mpr List.mem_cons_self)
    obtain ⟨searcher', hsched, hperm⟩ := foldl_schedule_eq (e.executed searcher root m) next
    obtain ⟨-, hperm⟩ := hperm hturn
    rw [← List.map_append] at hperm
    rw [hsched, chosen?_of_block hs hsel hx.block]
    intro f hf
    obtain ⟨f', hf', heq⟩ := exists_unnumbered_eq hperm hf
    refine Allowed.of_unnumbered ?_ heq
    rcases List.mem_append.mp hf' with hf' | hf'
    · obtain ⟨hnext, hadm⟩ := List.mem_filter.mp hf'
      refine hframe.succeeds ?_ hadm
      rw [← hr.spans.size]
      exact (Machine.block_succeeds hx.run).1 f' hnext
    · exact (hrest hsel f' hf').append _

theorem Unused.bounded_after (he : e.Unused) (n : Nat) :
    (e.after (n + 1)).Rooted (e.framesOf (n + 1)) ∧
      (e.after (n + 1)).Bounded (e.framesOf (n + 1)) :=
  after_induction (I := fun e fs => e.Rooted fs ∧ e.Bounded fs) he.toFresh
    ⟨he.rooted_entered, he.toFresh.bounded_entered⟩
    (fun _ _ _ _ hs h ht => ⟨h.1.turn hs ht, h.2.turn h.1 hs ht⟩) n

/-! ## The blocks on a path -/

/-- The path of a frame is the path to its node. -/
theorem Bounded.path_eq (h : e.Bounded fs) (hr : e.Rooted fs) {ns : List Int} {a : Int}
    (hp : e.graph.PathTo e.root ns a) :
    ∃ (i : Nat) (f : Frame), a = i ∧ fs[i]? = some f ∧
      (route fs ns).map Prod.fst = f.path.reverse := by
  induction hp with
  | root hn =>
    obtain ⟨i, f, hi, hf, -⟩ := hr.spans.exists_frame hn
    have hroot := hr.root (List.ne_nil_of_mem (List.mem_of_getElem? hf))
    obtain rfl := Int.ofNat.inj (hi.symm.trans hroot)
    rcases hr.spans.parent 0 f hf with ⟨hnone, -⟩ | ⟨k, -, hk⟩
    · refine ⟨0, f, hi, hf, ?_⟩
      rw [(h.executed f (List.mem_of_getElem? hf)).first hnone]
      rfl
    · omega
  | step hp hlink ih =>
    obtain ⟨i, f, rfl, hf, hpath⟩ := ih
    obtain ⟨n, ed, hn, hed, rfl⟩ := hlink
    obtain ⟨i', -, hi', -, -, hout⟩ := hr.spans.exists_frame hn
    obtain rfl := Int.ofNat.inj hi'
    rw [hout] at hed
    obtain ⟨j, f', hf', hparent, -, htarget⟩ := mem_successors.mp hed
    refine ⟨j, f', htarget, hf', ?_⟩
    obtain ⟨f₀, hf₀, hpath'⟩ := (h.executed f' (List.mem_of_getElem? hf')).later i hparent
    obtain rfl := Option.mem_unique hf hf₀
    rw [hpath', List.reverse_cons, ← hpath]
    simp [route, placeOf_natCast hf]

/-- No location is executed too often on a path. -/
theorem Bounded.count_le (h : e.Bounded fs) (hr : e.Rooted fs) {ns : List Int} {a : Int}
    (hp : e.graph.PathTo e.root ns a) (l : Location) :
    (((route fs (ns ++ [a])).map Prod.fst).count l : Int) ≤ e.options.maxUnroll := by
  obtain ⟨i, f, rfl, hf, hpath⟩ := h.path_eq hr hp
  have hroute : (route fs (ns ++ [(i : Int)])).map Prod.fst = (f.location :: f.path).reverse := by
    rw [List.reverse_cons, ← hpath]
    simp [route, placeOf_natCast hf]
  rw [hroute, List.count_reverse]
  exact (h.executed f (List.mem_of_getElem? hf)).count_le l

/-! ## The measure -/

/-- The locations of the code. -/
def locations (e : Explorer) : List Location :=
  e.functions.flatMap fun f => (List.range f.blocks.length).map fun b : Nat => ⟨f.name, b⟩

/-- More frames than any block hands on. -/
def width (e : Explorer) : Nat :=
  ((e.functions.flatMap Function.blocks).map fun b => b.terminator.targets.length).sum + 2

/-- How many blocks can still be executed after a path. -/
def budget (e : Explorer) (path : List Location) : Nat :=
  (e.locations.map fun l => e.options.maxUnroll.toNat - path.count l).sum

/-- The size of a tree that is as wide as a terminator and as deep as the budget, for each frame
that waits. -/
def weight (e : Explorer) : Nat :=
  (e.searcher.pending.map fun f => e.width ^ e.budget f.path).sum

/-- The number of steps after which nothing waits any more. -/
def stepBound (e : Explorer) : Nat :=
  e.width ^ (e.locations.length * e.options.maxUnroll.toNat)

theorem SameTask.width_eq (h : e.SameTask e') : e'.width = e.width := by
  rw [width, width, functions, functions, h.entry, h.program]

theorem SameTask.budget_eq (h : e.SameTask e') (path : List Location) :
    e'.budget path = e.budget path := by
  rw [budget, budget, locations, locations, functions, functions, h.entry, h.program, h.options]

theorem two_le_width (e : Explorer) : 2 ≤ e.width :=
  Nat.le_add_left 2 _

theorem one_le_pow_width (e : Explorer) (n : Nat) : 1 ≤ e.width ^ n :=
  Nat.one_le_pow _ _ (Nat.lt_of_lt_of_le Nat.zero_lt_two e.two_le_width)

theorem budget_nil (e : Explorer) :
    e.budget [] = e.locations.length * e.options.maxUnroll.toNat := by
  simp only [budget, List.count_nil, Nat.sub_zero, List.map_const', List.sum_replicate_nat]

/-- Executing a location takes from the budget. -/
theorem budget_cons_lt {path : List Location} {l : Location} (hl : l ∈ e.locations)
    (hlt : (path.count l : Int) < e.options.maxUnroll) : e.budget (l :: path) < e.budget path := by
  refine List.sum_lt_sum _ _ (fun l' _ => ?_) ⟨l, hl, ?_⟩
  · rw [List.count_cons]
    omega
  · rw [List.count_cons_self]
    omega

theorem location_mem_locations {b : Block} (hf : f.function ∈ e.functions)
    (hb : f.function.block? f.block = some b) : f.location ∈ e.locations := by
  rw [Function.block?, nth?] at hb
  split at hb
  · cases hb
  · next hnn =>
    have hlt := lt_length_of_getElem? hb
    refine List.mem_flatMap.mpr ⟨f.function, hf, List.mem_map.mpr ⟨f.block.toNat, ?_, ?_⟩⟩
    · exact List.mem_range.mpr hlt
    · rw [Frame.location, Int.toNat_of_nonneg (by omega)]

theorem targets_lt_width {b : Block} (hf : f.function ∈ e.functions)
    (hb : f.function.block? f.block = some b) : max 1 b.terminator.targets.length < e.width := by
  have hmem : b ∈ f.function.blocks := by
    rw [Function.block?, nth?] at hb
    split at hb
    · cases hb
    · exact List.mem_of_getElem? hb
  have hle : b.terminator.targets.length ≤
      ((e.functions.flatMap Function.blocks).map fun b => b.terminator.targets.length).sum :=
    List.single_le_sum (fun _ _ => Nat.zero_le _) _
      (List.mem_map_of_mem (List.mem_flatMap.mpr ⟨f.function, hf, hmem⟩))
  rw [width]
  omega

/-- The frames that a block hands on weigh less than its own frame. -/
theorem Allowed.weight_next_lt (h : e.Allowed fs frame) {b : Block}
    (hb : frame.function.block? frame.block = some b) {next : List Frame}
    (hlen : next.length ≤ max 1 b.terminator.targets.length)
    (hpath : ∀ f ∈ next, f.path = frame.location :: frame.path) :
    (next.map fun f => e.width ^ e.budget f.path).sum < e.width ^ e.budget frame.path := by
  have hbudget : e.budget (frame.location :: frame.path) < e.budget frame.path :=
    budget_cons_lt (location_mem_locations h.function hb) (of_decide_eq_true h.admits)
  have hmap : (next.map fun f => e.width ^ e.budget f.path) =
      List.replicate next.length (e.width ^ e.budget (frame.location :: frame.path)) := by
    rw [List.eq_replicate_iff, List.length_map]
    refine ⟨rfl, fun w hw => ?_⟩
    obtain ⟨f, hf, rfl⟩ := List.mem_map.mp hw
    rw [hpath f hf]
  have hwidth := hlen.trans_lt (targets_lt_width h.function hb)
  calc (next.map fun f => e.width ^ e.budget f.path).sum
      = next.length * e.width ^ e.budget (frame.location :: frame.path) := by
        rw [hmap, List.sum_replicate_nat]
    _ < e.width * e.width ^ e.budget (frame.location :: frame.path) :=
        Nat.mul_lt_mul_of_pos_right hwidth (e.one_le_pow_width _)
    _ = e.width ^ (e.budget (frame.location :: frame.path) + 1) := (Nat.pow_succ').symm
    _ ≤ e.width ^ e.budget frame.path :=
        Nat.pow_le_pow_right (Nat.lt_of_lt_of_le Nat.zero_lt_two e.two_le_width) hbudget

/-- The weight counts frames without their numbers. -/
theorem weight_eq (e : Explorer) : e.weight =
    ((e.searcher.pending.map Frame.unnumbered).map fun f => e.width ^ e.budget f.path).sum := by
  rw [weight, List.map_map]
  rfl

/-- A step finds nothing to do, or it makes the waiting frames lighter. -/
theorem Turn.weight_lt (ht : e.Turn o e') (h : e.Bounded fs) (hr : e.Rooted fs) :
    (o = .finished ∧ e'.searcher.pending = []) ∨ e'.weight < e.weight := by
  have htake : ∀ {frame searcher}, e.searcher.select = (some frame, searcher) →
      e.weight = e.width ^ e.budget frame.path +
        (searcher.pending.map fun f => e.width ^ e.budget f.path).sum := by
    intro frame searcher hsel
    have hperm := (Searcher.pending_of_select_some hr.turning hsel).2
    rw [weight, (hperm.map _).sum_eq, List.map_cons, List.sum_cons]
  -- a frame that is taken and hands nothing on
  have hdrop : ∀ {frame searcher e'}, e.searcher.select = (some frame, searcher) →
      e.SameTask e' → e'.searcher = searcher → e'.weight < e.weight := by
    rintro frame searcher e' hsel hsame rfl
    have hpos := e.one_le_pow_width (e.budget frame.path)
    rw [htake hsel, weight]
    simp only [hsame.width_eq, hsame.budget_eq]
    omega
  have hsame := ht.sameTask
  cases ht with
  | finished hsel => exact .inl ⟨rfl, (Searcher.pending_of_select_none hr.turning hsel).2.1⟩
  | outside hsel _ | unlinked hsel _ _ | broken hsel _ => exact .inr (hdrop hsel hsame rfl)
  | @executed frame searcher b g root m next hsel hx =>
    obtain ⟨hturn, hpend⟩ := Searcher.pending_of_select_some hr.turning hsel
    have hframe := h.waiting frame (hpend.mem_iff.mpr List.mem_cons_self)
    have hlen := Machine.length_le_of_block hx.run
    have hnext := (Machine.block_succeeds hx.run).1
    have hlight := hframe.weight_next_lt hx.block
      ((List.length_filter_le (p := e.options.admits) (l := next)).trans hlen)
      fun f hf => (hnext f (List.mem_filter.mp hf).1).path
    obtain ⟨searcher', hsched, hperm⟩ := foldl_schedule_eq (e.executed searcher root m) next
    have hperm := ((hperm hturn).2.map fun f => e.width ^ e.budget f.path).sum_eq
    rw [List.map_append, List.sum_append, List.map_map, List.map_map, List.map_map] at hperm
    refine .inr ?_
    rw [weight_eq, htake hsel]
    rw [hsched, List.map_map]
    refine hperm.trans_lt ?_
    exact Nat.add_lt_add_right hlight _

theorem weight_entered_le (he : e.Fresh) : e.entered.weight ≤ e.stepBound := by
  rw [weight_eq]
  rcases he.start_cases with ⟨s, searcher, -, -, hentered, hpend⟩ | ⟨failure, s, -, -, hentered⟩
  · rw [hentered]
    rw [(hpend.map _).sum_eq, List.filter_cons]
    split
    · simp only [List.filter_nil, List.map_cons, List.map_nil, List.sum_cons, List.sum_nil]
      change e.width ^ e.budget [] ≤ e.stepBound
      rw [budget_nil]
      exact Nat.le_refl _
    · exact Nat.zero_le _
  · rw [hentered]
    simp [he.pending]

/-- If nothing waits, a step finds nothing to do. -/
theorem step_eq_finished (hs : e.started = true) (hturn : e.searcher.Turning)
    (hnil : e.searcher.pending = []) : e.step.1 = .finished ∧ e.step.2.searcher.pending = [] := by
  have hnone : ∀ {frame searcher}, e.searcher.select ≠ (some frame, searcher) := by
    intro frame searcher hsel
    have hperm := (Searcher.pending_of_select_some hturn hsel).2
    rw [hnil] at hperm
    exact absurd hperm.nil_eq (List.cons_ne_nil _ _).symm
  have ht := step_turn hs
  generalize e.step = r at ht
  obtain ⟨o, e'⟩ := r
  cases ht with
  | finished hsel => exact ⟨rfl, (Searcher.pending_of_select_none hturn hsel).2.1⟩
  | outside hsel _ | unlinked hsel _ _ | broken hsel _ | executed hsel _ => exact absurd hsel hnone

/-- Every step takes something from the weight, until nothing waits. -/
theorem Unused.weight_after (he : e.Unused) (n : Nat) :
    (e.after (n + 1)).searcher.pending = [] ∨ (e.after (n + 1)).weight + n ≤ e.stepBound := by
  induction n with
  | zero =>
    have hentered := weight_entered_le he.toFresh
    rw [after_succ, after_zero]
    rcases step_eq_of_not_started he.started with ⟨failure, -, hstep⟩ | ⟨-, hstep⟩
    · rw [hstep]
      exact .inr hentered
    · rw [hstep]
      rcases (step_turn (started_entered e)).weight_lt he.toFresh.bounded_entered
        he.rooted_entered with ⟨-, hnil⟩ | hlt
      · exact .inl hnil
      · exact .inr (hlt.le.trans hentered)
  | succ n ih =>
    have hstarted := (he.toFresh.sameTask_after n).started rfl
    obtain ⟨hr, hb⟩ := he.bounded_after n
    rw [after_succ]
    rcases ih with hnil | hle
    · exact .inl (step_eq_finished hstarted hr.turning hnil).2
    · rcases (step_turn hstarted).weight_lt hb hr with ⟨-, hnil⟩ | hlt
      · exact .inl hnil
      · exact .inr (by omega)

theorem pending_eq_nil_of_weight (h : e.weight = 0) : e.searcher.pending = [] := by
  cases hp : e.searcher.pending with
  | nil => rfl
  | cons f fs =>
    have hpos := e.one_le_pow_width (e.budget f.path)
    rw [weight, hp, List.map_cons, List.sum_cons] at h
    omega

/-- Once the steps are used up, nothing waits. -/
theorem Unused.step_finished (he : e.Unused) {n : Nat} (hn : e.stepBound < n) :
    (e.after n).step.1 = .finished := by
  obtain ⟨m, rfl⟩ : ∃ m, n = m + 1 := ⟨n - 1, by omega⟩
  refine (step_eq_finished ((he.toFresh.sameTask_after m).started rfl) (he.rooted_after m).turning ?_).1
  rcases he.weight_after m with hnil | hle
  · exact hnil
  · exact pending_eq_nil_of_weight (by omega)

/-- An exploration has nothing left to do after a bounded number of steps.  At any time, no location
has been executed more often than allowed on any path, and no frame is deeper than allowed inside
calls. -/
theorem exploration_ends (he : e.Unused) :
    (∀ n, e.stepBound < n → (e.after n).step.1 = .finished) ∧
      ∀ n, (e.after n).graph.Spans (e.framesOf n) ∧
        (∀ ns a, (e.after n).graph.PathTo (e.after n).root ns a → ∀ l,
          (((route (e.framesOf n) (ns ++ [a])).map Prod.fst).count l : Int) ≤
            e.options.maxUnroll) ∧
        ∀ f ∈ e.framesOf n ++ (e.after n).searcher.pending,
          (f.depth : Int) ≤ max 0 e.options.maxCallDepth := by
  refine ⟨fun n hn => he.step_finished hn, fun n => ?_⟩
  cases n with
  | zero =>
    rw [after_zero, framesOf_zero, he.pending]
    refine ⟨.empty (by rw [he.graph]), fun ns a hp => ?_, by simp⟩
    have hnone : ∀ i, e.graph.node? i = none := fun i => by simp [Graph.node?, nth?, he.graph]
    cases hp with
    | root hn => exact absurd hn (by simp [hnone])
    | step _ hlink =>
      obtain ⟨n, ed, hn, -⟩ := hlink
      exact absurd hn (by simp [hnone])
  | succ n =>
    obtain ⟨hr, hb⟩ := he.bounded_after n
    have hoptions := (he.toFresh.sameTask_after n).options
    refine ⟨hr.spans, fun ns a hp l => ?_, fun f hf => ?_⟩
    · rw [← hoptions]
      exact hb.count_le hr hp l
    · rw [← hoptions]
      rcases List.mem_append.mp hf with hf | hf
      · exact (hb.executed f hf).depth
      · exact (hb.waiting f hf).depth

/-! ## A function that calls itself in a loop -/

/-- Calls itself, and then does so again. -/
def callsItself : Function where
  name := "again"
  locals := [⟨"", .integer⟩]
  argCount := 0
  blocks := [⟨[], .call "again" [] (some ⟨0, 0⟩) 1 {}⟩, ⟨[], .goto 0⟩]

/-- An exploration that follows one call into another. -/
def recursion : Explorer where
  options := { maxUnroll := 2, inlineCalls := true, maxCallDepth := 1 }
  program := ⟨[callsItself]⟩
  entry := callsItself

/-- The second step executes a block inside of the call.  Nothing is left to do in the end. -/
theorem recursion_ends :
    (recursion.framesOf 2).map Frame.depth = [0, 1] ∧
      (recursion.after 2000000).step.1 = .finished ∧
      (∀ ns a, (recursion.after 2000000).graph.PathTo (recursion.after 2000000).root ns a →
        ((route (recursion.framesOf 2000000) (ns ++ [a])).map Prod.fst).count ⟨"again", 0⟩ ≤ 2) ∧
      ∀ f ∈ recursion.framesOf 2000000, f.depth ≤ 1 := by
  obtain ⟨hend, hbound⟩ := exploration_ends (e := recursion) (.new ..)
  obtain ⟨-, hpath, hdepth⟩ := hbound 2000000
  have hsteps : recursion.stepBound = 1679616 := by decide +kernel
  refine ⟨by decide +kernel, hend _ (by rw [hsteps]; decide), fun ns a hp => ?_, fun f hf => ?_⟩
  · exact Int.ofNat_le.mp (hpath ns a hp ⟨"again", 0⟩)
  · exact Int.ofNat_le.mp (hdepth f (List.mem_append_left _ hf))

end Explorer
end NullPath
