import NullPath.Proofs.Outcomes
import NullPath.Proofs.Searchers

/-!
# What a step of an exploration can do

A step of a started exploration finds nothing to do, or it takes a frame that waits.  The frame
fails at once if its block does not exist.  Otherwise it gets a node, which is linked to the node
that the frame came from, and its block is executed; the node is closed however the block ends,
and the frames of a block that succeeded are scheduled.  This module says so once, for every
outcome, and statements about all steps are proved by going through these cases.

* `Explorer.Turn`, `Explorer.step_turn`: the cases of a step.
* `Explorer.entered`, `Explorer.step_eq_of_not_started`: the first step.
* `Explorer.after`, `Explorer.after_induction`: any number of steps.
-/

namespace NullPath

theorem getElem?_snoc {α : Type} {xs : List α} {x y : α} {i : Nat}
    (h : (xs ++ [x])[i]? = some y) : xs[i]? = some y ∨ (i = xs.length ∧ y = x) := by
  rw [List.getElem?_append] at h
  split at h
  · exact .inl h
  · next hi =>
    obtain ⟨hlt, rfl⟩ := List.getElem?_eq_some_iff.mp h
    rw [List.length_singleton] at hlt
    exact .inr ⟨by omega, by simp⟩

namespace Frame

/-- The frame without its number, as the terminator of a block makes it. -/
def unnumbered (f : Frame) : Frame :=
  { f with id := 0 }

theorem unnumbered_of_id {f : Frame} (h : f.id = 0) : f.unnumbered = f := by
  cases f
  cases h
  rfl

/-- The predecessors of a frame's node. -/
def links (f : Frame) : List Edge :=
  match f.parent with
  | none => []
  | some p => [⟨f.guard, p⟩]

end Frame

/-- The frame may still execute its block. -/
def Options.admits (options : Options) (f : Frame) : Bool :=
  (f.seen f.location : Int) < options.maxUnroll

namespace Explorer

variable {e e' : Explorer} {o : Outcome} {searcher : Searcher Frame} {frame : Frame}

/-! ## Scheduling -/

/-- The counters after some frames have been scheduled: frames that may not go on are dropped. -/
def scheduledStats (e : Explorer) (fs : List Frame) : Stats :=
  { e.stats with
    frames := e.stats.frames + fs.countP e.options.admits
    pruned := e.stats.pruned + fs.countP fun f => !e.options.admits f }

/-- Scheduling a frame hands it to the searcher, unless its block was executed too often. -/
theorem schedule_eq (e : Explorer) (f : Frame) :
    ∃ searcher, e.schedule f = { e with searcher, stats := e.scheduledStats [f] } ∧
      (e.searcher.Turning → searcher.Turning ∧
        (searcher.pending.map Frame.unnumbered).Perm
          (([f].filter e.options.admits).map Frame.unnumbered ++
            e.searcher.pending.map Frame.unnumbered)) := by
  unfold schedule scheduledStats
  split
  · next hle =>
    have hno : e.options.admits f = false := by
      rw [Options.admits, decide_eq_false_iff_not]
      omega
    exact ⟨e.searcher, by simp [hno], fun ht => ⟨ht, by simp [hno]⟩⟩
  · next hle =>
    have hyes : e.options.admits f = true := by
      rw [Options.admits, decide_eq_true_iff]
      omega
    refine ⟨e.searcher.add { f with id := e.stats.frames + 1 }, by simp [hyes],
      fun ht => ⟨ht.added _, ?_⟩⟩
    have hperm := (Searcher.pending_add ht { f with id := e.stats.frames + 1 }).map Frame.unnumbered
    rw [List.filter_cons_of_pos hyes]
    exact hperm

theorem exists_unnumbered_eq {fs gs : List Frame} {f : Frame}
    (h : (fs.map Frame.unnumbered).Perm (gs.map Frame.unnumbered)) (hf : f ∈ fs) :
    ∃ f' ∈ gs, f'.unnumbered = f.unnumbered :=
  List.mem_map.mp (h.mem_iff.mp (List.mem_map_of_mem hf))

theorem foldl_schedule_eq (e : Explorer) (fs : List Frame) :
    ∃ searcher, fs.foldl schedule e = { e with searcher, stats := e.scheduledStats fs } ∧
      (e.searcher.Turning → searcher.Turning ∧
        (searcher.pending.map Frame.unnumbered).Perm
          ((fs.filter e.options.admits).map Frame.unnumbered ++
            e.searcher.pending.map Frame.unnumbered)) := by
  induction fs generalizing e with
  | nil => exact ⟨e.searcher, rfl, fun ht => ⟨ht, by simp⟩⟩
  | cons f fs ih =>
    obtain ⟨searcher, hone, hperm⟩ := schedule_eq e f
    obtain ⟨searcher', hrest, hperm'⟩ := ih { e with searcher, stats := e.scheduledStats [f] }
    refine ⟨searcher', ?_, fun ht => ?_⟩
    · rw [List.foldl_cons, hone, hrest]
      simp only [scheduledStats, List.countP_cons, List.countP_nil]
      congr 2 <;> omega
    · obtain ⟨ht₁, hp₁⟩ := hperm ht
      obtain ⟨ht₂, hp₂⟩ := hperm' ht₁
      refine ⟨ht₂, hp₂.trans ?_⟩
      have happend := hp₁.append_left ((fs.filter e.options.admits).map Frame.unnumbered)
      refine happend.trans ?_
      rw [← List.append_assoc, ← List.map_append, ← List.filter_append]
      have hcomm : (fs ++ [f]).Perm ([f] ++ fs) := List.perm_append_comm
      exact ((hcomm.filter _).map _).append_right _

/-! ## Executing a frame -/

/-- The graph with a new node for a frame, and the root.  The node of the first frame becomes the
root; every other node is linked to the node that its frame came from. -/
inductive Linking (e : Explorer) (frame : Frame) : Graph → Int → Prop
  | first : frame.parent = none → Linking e frame e.graph.addNode.2 e.graph.nodes.length
  | edge {p : Int} {g : Graph} : frame.parent = some p →
    e.graph.addNode.2.addEdge p ⟨frame.guard, e.graph.nodes.length⟩ = .ok g →
      Linking e frame g e.root

/-- The block of a frame is executed on a new node, and ends with a result and a machine. -/
structure Executes (e : Explorer) (frame : Frame) (b : Block) (g : Graph) (root : Int)
    (result : Except Failure (List Frame)) (m : Machine) : Prop where
  block : frame.function.block? frame.block = some b
  link : Linking e frame g root
  run : Machine.block e.options e.program frame.visit
    { function := frame.function, depth := frame.depth, node := e.graph.nodes.length } b
    { store := ⟨g, frame.memory⟩, stats := { e.stats with nodes := e.stats.nodes + 1 } } =
      (result, m)

/-- The explorer after the execution of a block.  The node is closed. -/
def executed (e : Explorer) (searcher : Searcher Frame) (root : Int) (m : Machine) : Explorer :=
  { e with
    searcher
    graph := m.store.graph.modifyNode e.graph.nodes.length fun n => { n with closed := true }
    stats := m.stats
    root }

namespace Linking

variable {frame : Frame} {g : Graph} {root : Int}

theorem decls (h : e.Linking frame g root) : g.decls = e.graph.decls := by
  cases h with
  | first => rfl
  | edge _ hadd =>
    obtain ⟨-, -, -, -, rfl⟩ := Graph.addEdge_eq_ok hadd
    rfl

theorem size (h : e.Linking frame g root) : g.nodes.length = e.graph.nodes.length + 1 := by
  cases h with
  | first => simp [Graph.addNode]
  | edge _ hadd =>
    obtain ⟨-, -, -, -, rfl⟩ := Graph.addEdge_eq_ok hadd
    simp [Graph.modifyNode, Graph.addNode]

/-- The new node knows its predecessor, and the predecessor gets one more successor. -/
theorem node? (h : e.Linking frame g root)
    (hp : ∀ p, frame.parent = some p → p < e.graph.nodes.length) (j : Int) :
    g.node? j = if j = e.graph.nodes.length then some { into := frame.links }
      else (e.graph.node? j).map fun n =>
        if frame.parent = some j then { n with out := n.out ++ [⟨frame.guard, e.graph.nodes.length⟩] }
        else n := by
  cases h with
  | first hnone =>
    rw [Graph.node?_addNode]
    simp [Frame.links, hnone]
  | @edge p _ hsome hadd =>
    have hlt := hp p hsome
    obtain ⟨n, n', hn, -, rfl⟩ := Graph.addEdge_eq_ok hadd
    rw [Graph.node?_modifyNode (Int.natCast_nonneg _),
      Graph.node?_modifyNode (Graph.nonneg_of_node? hn), Graph.node?_addNode]
    by_cases hj : j = e.graph.nodes.length
    · have hjp : ¬(e.graph.nodes.length : Int) = p := by omega
      simp [hj, hjp, Frame.links, hsome]
    · by_cases hjp : j = p
      · simp [hjp, hsome, hjp ▸ hj]
      · simp [hj, hjp, hsome, Ne.symm hjp]

end Linking

namespace Executes

variable {frame : Frame} {b : Block} {g : Graph} {root : Int}
  {result : Except Failure (List Frame)} {m : Machine} {searcher : Searcher Frame}

variable (h : e.Executes frame b g root result m)
include h

/-- Executing a block makes the graph grow at the new node. -/
theorem grown : Machine.Grown e.graph.nodes.length
      { store := ⟨g, frame.memory⟩, stats := { e.stats with nodes := e.stats.nodes + 1 } } m :=
  Machine.follows_block.of_eq h.run

/-- There is one node more. -/
theorem size (searcher : Searcher Frame) :
    (e.executed searcher root m).graph.nodes.length = e.graph.nodes.length + 1 := by
  obtain ⟨es, hg⟩ := h.grown.store
  rw [executed, Graph.modifyNode, List.length_modify, hg.nodes, List.length_modify, h.link.size]

/-- A node is the new one, which is closed, or it is as closed as it was. -/
theorem closed_or (hp : ∀ p, frame.parent = some p → p < e.graph.nodes.length) {j : Int} {n : Node}
    (hn : (e.executed searcher root m).graph.node? j = some n) :
    n.closed = true ∨ ∃ n₀, e.graph.node? j = some n₀ ∧ n.closed = n₀.closed := by
  obtain ⟨es, hg⟩ := h.grown.store
  have hN : (0 : Int) ≤ e.graph.nodes.length := Int.natCast_nonneg _
  rw [executed, Graph.node?_modifyNode hN] at hn
  split at hn
  · obtain ⟨n₀, -, rfl⟩ := Option.map_eq_some_iff.mp hn
    exact .inl rfl
  · next hne =>
    rw [hg.node?, Graph.node?_modifyNode hN, if_neg hne, h.link.node? hp, if_neg hne] at hn
    obtain ⟨n₀, hn₀, rfl⟩ := Option.map_eq_some_iff.mp hn
    exact .inr ⟨n₀, hn₀, by split <;> rfl⟩

/-- A tag is an old one, or it was made at the new node. -/
theorem tag_or {d : Declaration} {t : DerefTag} (hd : d ∈ (e.executed searcher root m).graph.decls)
    (ht : t ∈ d.derefs) : t.node = e.graph.nodes.length ∨ ∃ d₀ ∈ e.graph.decls, t ∈ d₀.derefs := by
  obtain ⟨es, hg⟩ := h.grown.store
  obtain ⟨k, hk⟩ := List.mem_iff_getElem?.mp hd
  refine (hg.node_or_tag hk ht).imp_right fun ⟨d₀, hd₀, ht⟩ => ⟨d₀, ?_, ht⟩
  rw [← h.link.decls]
  exact List.mem_of_getElem? hd₀

end Executes

/-- The cases of a step of a started exploration. -/
inductive Turn (e : Explorer) : Outcome → Explorer → Prop
  | finished {searcher : Searcher Frame} :
    e.searcher.select = (none, searcher) → Turn e .finished { e with searcher }
  | outside {frame : Frame} {searcher : Searcher Frame} {failure : Failure} :
    e.searcher.select = (some frame, searcher) → frame.function.block? frame.block = none →
      Turn e (.failed (some frame) failure) { e with searcher }
  | unlinked {frame : Frame} {searcher : Searcher Frame} {p : Int} {f : Fault} :
    e.searcher.select = (some frame, searcher) → frame.parent = some p →
      e.graph.addNode.2.addEdge p ⟨frame.guard, e.graph.nodes.length⟩ = .error f →
      Turn e (.failed none (.fault f)) { e with
        searcher, graph := e.graph.addNode.2, stats.nodes := e.stats.nodes + 1 }
  | broken {frame : Frame} {searcher : Searcher Frame} {b : Block} {g : Graph} {root : Int}
    {m : Machine} {f? : Option Frame} {failure failure' : Failure} :
    e.searcher.select = (some frame, searcher) → e.Executes frame b g root (.error failure) m →
      (∀ f, f? = some f → f = { frame.visit with memory := m.store.memory }) →
      Turn e (.failed f? failure') (e.executed searcher root m)
  | executed {frame : Frame} {searcher : Searcher Frame} {b : Block} {g : Graph} {root : Int}
    {m : Machine} {next : List Frame} :
    e.searcher.select = (some frame, searcher) → e.Executes frame b g root (.ok next) m →
      Turn e (.executed { frame.visit with memory := m.store.memory })
        (next.foldl schedule (e.executed searcher root m))

/-- Executing a frame fails before there is a node, fails to link it, or runs the block. -/
theorem executeFrame_cases (e : Explorer) (searcher : Searcher Frame) (frame : Frame) :
    (frame.function.block? frame.block = none ∧
        executeFrame { e with searcher } frame =
          (.error (.error (.of (.blockOutOfRange frame.block))), frame, { e with searcher })) ∨
      (∃ p f, frame.parent = some p ∧
        e.graph.addNode.2.addEdge p ⟨frame.guard, e.graph.nodes.length⟩ = .error f ∧
        executeFrame { e with searcher } frame = (.error (.fault f), frame.visit, { e with
          searcher, graph := e.graph.addNode.2, stats.nodes := e.stats.nodes + 1 })) ∨
      ∃ b g root result m, e.Executes frame b g root result m ∧
        executeFrame { e with searcher } frame =
          (result, { frame.visit with memory := m.store.memory }, e.executed searcher root m) := by
  unfold executeFrame
  cases hb : frame.function.block? frame.block with
  | none => exact .inl ⟨rfl, rfl⟩
  | some b =>
    refine .inr ?_
    simp only [link]
    cases hp : frame.parent with
    | none =>
      have hp' : frame.visit.parent = none := hp
      rw [hp']
      exact .inr ⟨b, _, _, _, _, ⟨hb, .first hp, rfl⟩, rfl⟩
    | some p =>
      have hp' : frame.visit.parent = some p := hp
      rw [hp']
      cases hadd : e.graph.addNode.2.addEdge p ⟨frame.guard, e.graph.nodes.length⟩ with
      | error f =>
        have hadd' : e.graph.addNode.2.addEdge p ⟨frame.visit.guard, e.graph.addNode.1⟩ =
          .error f := hadd
        simp only [hadd']
        exact .inl ⟨p, f, rfl, hadd, rfl⟩
      | ok g =>
        have hadd' : e.graph.addNode.2.addEdge p ⟨frame.visit.guard, e.graph.addNode.1⟩ =
          .ok g := hadd
        simp only [hadd']
        exact .inr ⟨b, g, _, _, _, ⟨hb, .edge hp hadd, rfl⟩, rfl⟩

/-- Every step of a started exploration is one of the cases. -/
theorem step_turn (he : e.started = true) : e.Turn e.step.1 e.step.2 := by
  unfold step
  rw [if_pos he]
  simp only
  cases hsel : e.searcher.select with
  | mk chosen searcher =>
    cases chosen with
    | none => exact .finished hsel
    | some frame =>
      simp only
      rcases executeFrame_cases e searcher frame with
        ⟨hb, hx⟩ | ⟨p, f, hp, hadd, hx⟩ | ⟨b, g, root, result, m, hex, hx⟩
      · rw [hx]
        exact .outside hsel hb
      · rw [hx]
        exact .unlinked hsel hp hadd
      · rw [hx]
        rcases result with (err | fault) | next
        · exact .broken hsel hex fun f hf => (Option.some.inj hf).symm
        · exact .broken hsel hex fun f hf => nomatch hf
        · exact .executed hsel hex

/-- A step changes neither the options nor the code. -/
structure SameTask (e e' : Explorer) : Prop where
  options : e'.options = e.options
  program : e'.program = e.program
  entry : e'.entry = e.entry
  started : e.started = true → e'.started = true

theorem SameTask.trans {e'' : Explorer} (h : e.SameTask e') (h' : e'.SameTask e'') :
    e.SameTask e'' :=
  ⟨h'.options.trans h.options, h'.program.trans h.program, h'.entry.trans h.entry,
    fun hs => h'.started (h.started hs)⟩

theorem sameTask_foldl_schedule (e : Explorer) (fs : List Frame) :
    e.SameTask (fs.foldl schedule e) := by
  obtain ⟨searcher, hfs, -⟩ := foldl_schedule_eq e fs
  rw [hfs]
  exact ⟨rfl, rfl, rfl, id⟩

theorem Turn.sameTask (h : e.Turn o e') : e.SameTask e' := by
  cases h with
  | finished | outside | unlinked | broken => exact ⟨rfl, rfl, rfl, id⟩
  | @executed frame searcher b g root m next =>
    have hx : e.SameTask (e.executed searcher root m) := ⟨rfl, rfl, rfl, id⟩
    exact hx.trans (sameTask_foldl_schedule _ next)

/-! ## The first step -/

/-- The explorer once its entry function has been entered, whether this succeeded or not. -/
def entered (e : Explorer) : Explorer :=
  (start { e with started := true }).2

/-- Entering the function schedules the first frame or fails. -/
theorem entered_cases (e : Explorer) :
    (∃ s, enterFunction e.entry { graph := e.graph } = (.ok (), s) ∧
        (start { e with started := true }).1 = .ok () ∧
        e.entered = [{ function := e.entry, memory := s.memory }].foldl schedule
          { e with started := true, graph := s.graph }) ∨
      ∃ failure s, enterFunction e.entry { graph := e.graph } = (.error failure, s) ∧
        (start { e with started := true }).1 = .error failure ∧
        e.entered = { e with started := true, graph := s.graph } := by
  unfold entered start
  split
  · next s hs => exact .inl ⟨s, hs, rfl, rfl⟩
  · next failure s hs => exact .inr ⟨failure, s, hs, rfl, rfl⟩

theorem sameTask_entered (e : Explorer) : { e with started := true }.SameTask e.entered := by
  rcases entered_cases e with ⟨s, -, -, hs⟩ | ⟨failure, s, -, -, hs⟩
  · rw [hs]
    have hgraph : { e with started := true }.SameTask { e with started := true, graph := s.graph } :=
      ⟨rfl, rfl, rfl, id⟩
    exact hgraph.trans (sameTask_foldl_schedule _ [_])
  · rw [hs]
    exact ⟨rfl, rfl, rfl, id⟩

theorem started_entered (e : Explorer) : e.entered.started = true :=
  (sameTask_entered e).started rfl

/-- The first step enters the function.  If this fails it does nothing else. -/
theorem step_eq_of_not_started (he : e.started = false) :
    (∃ failure, (start { e with started := true }).1 = .error failure ∧
        e.step = (.failed none failure, e.entered)) ∨
      ((start { e with started := true }).1 = .ok () ∧ e.step = e.entered.step) := by
  have hnot : ¬ e.started = true := by simp [he]
  have hstarted := started_entered e
  unfold entered at hstarted ⊢
  cases hs : start { e with started := true } with
  | mk result e₁ =>
    rw [hs] at hstarted
    cases result with
    | error failure =>
      refine .inl ⟨failure, rfl, ?_⟩
      rw [step, if_neg hnot, hs]
    | ok u =>
      refine .inr ⟨rfl, ?_⟩
      rw [step, if_neg hnot, hs, step, if_pos hstarted]

/-! ## Any number of steps -/

/-- An explorer that has done nothing yet, with a searcher that can take frames. -/
structure Fresh (e : Explorer) : Prop where
  started : e.started = false
  graph : e.graph = {}
  turning : e.searcher.Turning
  pending : e.searcher.pending = []

theorem Fresh.new (options : Options) (program : Program) (entry : Function) :
    Fresh { options, program, entry } :=
  ⟨rfl, rfl, ⟨Nat.one_pos, Nat.one_pos⟩, rfl⟩

/-- A fresh exploration begins with nothing but the first frame, or the entry fails. -/
theorem Fresh.start_cases (he : e.Fresh) :
    (∃ s searcher, enterFunction e.entry {} = (.ok (), s) ∧ searcher.Turning ∧
        e.entered = { e with
          started := true, graph := s.graph, searcher
          stats := e.scheduledStats [{ function := e.entry, memory := s.memory }] } ∧
        (searcher.pending.map Frame.unnumbered).Perm
          (([{ function := e.entry, memory := s.memory }].filter e.options.admits).map
            Frame.unnumbered)) ∨
      ∃ failure s, enterFunction e.entry {} = (.error failure, s) ∧
        (start { e with started := true }).1 = .error failure ∧
        e.entered = { e with started := true, graph := s.graph } := by
  rw [← he.graph]
  rcases entered_cases e with ⟨s, hs, -, hentered⟩ | hfailed
  · obtain ⟨searcher, hsched, hperm⟩ := foldl_schedule_eq
      { e with started := true, graph := s.graph } [{ function := e.entry, memory := s.memory }]
    obtain ⟨hturn, hpend⟩ := hperm he.turning
    rw [he.pending, List.map_nil, List.append_nil] at hpend
    exact .inl ⟨s, searcher, hs, hturn, hentered.trans hsched, hpend⟩
  · exact .inr hfailed

/-- The explorer after a number of steps. -/
def after (e : Explorer) (n : Nat) : Explorer :=
  (fun e => e.step.2)^[n] e

@[simp] theorem after_zero (e : Explorer) : e.after 0 = e := rfl

theorem after_succ (e : Explorer) (n : Nat) : e.after (n + 1) = (e.after n).step.2 :=
  Function.iterate_succ_apply' _ n e

/-- The frame whose block the next step executes. -/
def chosen? (e : Explorer) : Option Frame :=
  (if e.started then e else e.entered).searcher.select.1.filter fun f =>
    (f.function.block? f.block).isSome

/-- The frames whose blocks were executed by a number of steps, in order. -/
def framesOf (e : Explorer) (n : Nat) : List Frame :=
  (List.range n).flatMap fun k => (e.after k).chosen?.toList

@[simp] theorem framesOf_zero (e : Explorer) : e.framesOf 0 = [] := rfl

theorem framesOf_succ (e : Explorer) (n : Nat) :
    e.framesOf (n + 1) = e.framesOf n ++ (e.after n).chosen?.toList := by
  simp [framesOf, List.range_succ]

theorem chosen?_of_none (he : e.started = true) (h : e.searcher.select = (none, searcher)) :
    e.chosen? = none := by
  rw [chosen?, if_pos he, h]
  rfl

theorem chosen?_of_outside (he : e.started = true) (h : e.searcher.select = (some frame, searcher))
    (hb : frame.function.block? frame.block = none) : e.chosen? = none := by
  rw [chosen?, if_pos he, h, Option.filter_some, hb]
  rfl

theorem chosen?_of_block {b : Block} (he : e.started = true)
    (h : e.searcher.select = (some frame, searcher))
    (hb : frame.function.block? frame.block = some b) : e.chosen? = some frame := by
  rw [chosen?, if_pos he, h, Option.filter_some, hb]
  rfl

theorem Fresh.chosen?_eq_entered (he : e.Fresh) : e.chosen? = e.entered.chosen? := by
  rw [chosen?, chosen?, he.started, started_entered]
  rfl

/-- A function that cannot be entered has no frame to execute. -/
theorem Fresh.chosen?_of_error (he : e.Fresh) {failure : Failure}
    (h : (start { e with started := true }).1 = .error failure) : e.chosen? = none := by
  have hnot : ¬ e.started = true := by simp [he.started]
  rcases entered_cases e with ⟨s, -, hok, -⟩ | ⟨-, s, -, -, hs⟩
  · rw [hok] at h
    cases h
  · rw [chosen?, if_neg hnot, hs]
    cases hsel : e.searcher.select with
    | mk chosen searcher =>
      cases chosen with
      | none => rfl
      | some frame =>
        have hperm := (Searcher.pending_of_select_some he.turning hsel).2
        rw [he.pending] at hperm
        exact absurd hperm.nil_eq (List.cons_ne_nil _ _).symm

/-- What holds when the function has been entered, and is kept by every case of a step, holds after
any number of steps. -/
theorem after_induction {I : Explorer → List Frame → Prop} (he : e.Fresh) (hs : I e.entered [])
    (ht : ∀ e fs o e', e.started = true → I e fs → e.Turn o e' → I e' (fs ++ e.chosen?.toList))
    (n : Nat) : I (e.after (n + 1)) (e.framesOf (n + 1)) := by
  have hturn : ∀ e fs, e.started = true ∧ I e fs →
      e.step.2.started = true ∧ I e.step.2 (fs ++ e.chosen?.toList) := fun e fs h =>
    ⟨(step_turn h.1).sameTask.started h.1, ht e fs _ _ h.1 h.2 (step_turn h.1)⟩
  suffices h : (e.after (n + 1)).started = true ∧ I (e.after (n + 1)) (e.framesOf (n + 1)) from h.2
  induction n with
  | zero =>
    rw [after_succ, framesOf_succ, after_zero, framesOf_zero]
    rcases step_eq_of_not_started he.started with ⟨failure, herr, hstep⟩ | ⟨-, hstep⟩
    · rw [hstep, he.chosen?_of_error herr]
      exact ⟨started_entered e, hs⟩
    · rw [hstep, he.chosen?_eq_entered]
      exact hturn _ _ ⟨started_entered e, hs⟩
  | succ n ih =>
    rw [after_succ, framesOf_succ]
    exact hturn _ _ ih

theorem Fresh.sameTask_after (he : e.Fresh) (n : Nat) :
    { e with started := true }.SameTask (e.after (n + 1)) :=
  after_induction (I := fun e' _ => { e with started := true }.SameTask e') he (sameTask_entered e)
    (fun _ _ _ _ _ h ht => h.trans ht.sameTask) n

end Explorer
end NullPath
