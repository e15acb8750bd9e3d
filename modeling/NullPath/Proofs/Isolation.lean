import NullPath.Proofs.Faults
import NullPath.Proofs.Inlining

/-!
# Calls do not disturb their callers

A frame holds slots of the calls that it is inside of, and of no others.  A call that is followed
may execute any number of blocks, and make calls of its own.  Whenever it returns, the caller goes
on with the memory that it had when the arguments had been evaluated, in which the destination has
been written.

* `Explorer.keeps_confined`: what frames know of the slots.
* `Memory.Undisturbed`: what the caller finds as it was.
* `Explorer.callee_isolated`: a call leaves its caller alone.
-/

namespace NullPath

/-- The second memory has what the first one has in the slots up to a depth, and behind the names
before a number. -/
structure Memory.Undisturbed (d names : Nat) (m m' : Memory) : Prop where
  locals : ∀ x : Slot, x.depth ≤ d → m'.locals.get? x = m.locals.get? x
  addrs : ∀ x : Slot, x.depth ≤ d → m'.addrs.get? x = m.addrs.get? x
  pointees : ∀ p : Name, p.index < names → m'.pointees.get? p = m.pointees.get? p

theorem Memory.Confined.undisturbed {B : Boundary} {d : Nat} {m : Memory} (h : m.Confined B d)
    (hd : d < B.depth) : B.memory.Undisturbed d B.names m where
  locals x hx := h.outside (.slot x) fun hin => Nat.not_lt.mpr (hin.1.trans hx) hd
  addrs x hx := h.outside_address x fun hin => Nat.not_lt.mpr (hin.1.trans hx) hd
  pointees p hp := h.outside (.behind p) (Nat.not_le.mpr hp)

/-- The store in which a visit has evaluated the arguments of its call. -/
def Visit.Evaluates (v : Visit) (i : Nat) (span : Span) (args : List Operand) (s : Store) : Prop :=
  ∃ s₁ values, Store.statements (v.env i) v.block.statements v.entered.store = (.ok (), s₁) ∧
    Store.operands { v.env i with span } args s₁ = (.ok values, s)

/-- The frame whose block a step has executed. -/
def Outcome.executed? : Outcome → Option Frame
  | .executed f => some f
  | _ => none

namespace Explorer

variable {e e' : Explorer} {o : Outcome} {k l bound : Nat} {v w : Visit} {f r : Frame}

/-! ## Visits of a run -/

theorem Turn.length_decls_le (h : e.Turn o e') : e.graph.decls.length ≤ e'.graph.decls.length := by
  have hexecutes : ∀ {frame b g root result m}, e.Executes frame b g root result m →
      e.graph.decls.length ≤ m.store.graph.decls.length := by
    intro frame b g root result m hx
    obtain ⟨es, hgrows⟩ := hx.grown.store
    rw [← hx.link.decls]
    exact hgrows.length_le
  cases h with
  | finished | outside | unlinked => exact Nat.le_refl _
  | broken hsel hx => exact hexecutes hx
  | @executed frame searcher b g root m next hsel hx =>
    obtain ⟨searcher', hsched, -⟩ := foldl_schedule_eq (e.executed searcher root m) next
    rw [hsched]
    exact hexecutes hx

theorem Unused.length_decls_le (he : e.Unused) (h : k < l) :
    (e.after (k + 1)).graph.decls.length ≤ (e.after l).graph.decls.length := by
  induction l, h using Nat.le_induction with
  | base => exact Nat.le_refl _
  | succ l hl ih =>
    have hstarted : (e.after l).started = true := by
      obtain ⟨l, rfl⟩ := Nat.exists_eq_succ_of_ne_zero (Nat.ne_of_gt (Nat.zero_lt_of_lt hl))
      exact (he.toFresh.sameTask_after l).started rfl
    rw [after_succ e l]
    exact ih.trans (step_turn hstarted).length_decls_le

/-- A step of a run that executes a block. -/
def VisitsAt (e : Explorer) (k : Nat) (v : Visit) : Prop :=
  (e.after k).launched.MakesVisit v (e.after (k + 1))

/-- The node for the block that a step of a run executes. -/
def nodeAt (e : Explorer) (k : Nat) : Nat :=
  (e.after k).launched.graph.nodes.length

/-- Frames know slots of the calls that they are inside of only. -/
theorem keeps_confined (options : Options) (program : Program) :
    Keeps options program (fun _ => True) Graph.Tidy fun g f =>
      Store.Scoped (fun _ => True) ⟨g, f.memory⟩ ∧ f.memory.Confined .start f.depth where
  graph_of_decls := (keeps_scoped options program).graph_of_decls
  frame_of_decls g g' f hd hf := ⟨hf.1.of_decls_eq hd, hf.2⟩
  of_unnumbered g f f' heq hf := by
    refine ⟨(keeps_scoped options program).of_unnumbered g f f' heq hf.1, ?_⟩
    have hmemory : f.memory = f'.memory := congrArg (fun f => f.memory) heq
    have hdepth : f.depth = f'.depth := congrArg (fun f => f.depth) heq
    exact hmemory ▸ hdepth ▸ hf.2
  block g i frame b stats result m _ htidy hf hopen hb hrun := by
    obtain ⟨htidy', hkeep, hnext⟩ :=
      (keeps_scoped options program).block g i frame b stats result m trivial htidy hf.1 hopen hb hrun
    refine ⟨htidy', fun f hf => ⟨hkeep f hf.1, hf.2⟩, ?_⟩
    rintro next rfl f hmem
    have hs : Store.Confined .start frame.depth ⟨g, frame.memory⟩ :=
      ⟨hf.2, Nat.zero_le _, htidy⟩
    exact ⟨hnext next rfl f hmem, Machine.block_confined ⟨rfl, Nat.zero_le _, .inr rfl⟩ hs hrun f
      hmem (Nat.zero_le _) (.inr rfl)⟩

theorem starts_confined (e : Explorer) : e.Starts Graph.Tidy fun g f =>
    Store.Scoped (fun _ => True) ⟨g, f.memory⟩ ∧ f.memory.Confined .start f.depth where
  entered s hs :=
    have hstarts := (starts_scoped e).entered s hs
    ⟨hstarts.1, hstarts.2, (enterFunction_confined hs).memory⟩
  refused := (starts_scoped e).refused

/-- What is known of a visit of a run. -/
structure Visited (e : Explorer) (k : Nat) (v : Visit) : Prop where
  pending : v.frame ∈ (e.after k).launched.searcher.pending
  block : v.frame.function.block? v.frame.block = some v.block
  run : Machine.block e.options e.program v.frame.visit (v.env (e.nodeAt k)) v.block v.entered =
    (.ok v.next, v.left)
  memory : v.entered.store.memory = v.frame.memory
  scope : v.entered.store.Scoped
  confined : v.entered.store.Confined .start v.frame.depth
  entered : v.entered.store.graph.decls = (e.after k).launched.graph.decls
  left : v.left.store.graph.decls = (e.after (k + 1)).graph.decls

theorem VisitsAt.visited (h : e.VisitsAt k v) (he : e.Unused) : e.Visited k v := by
  have hholds := (keeps_confined e.options e.program).launched he (starts_confined e) k
    fun _ _ => trivial
  have hsame := he.sameTask_launched k
  obtain ⟨fs, hrooted⟩ := he.rooted_launched k
  rw [VisitsAt] at h
  generalize hafter : e.after (k + 1) = e' at h
  cases h with
  | @mk frame searcher b g root m next hsel hx =>
    have hmem := (Searcher.pending_of_select_some hrooted.turning hsel).2.mem_iff.mpr
      List.mem_cons_self
    obtain ⟨hscope, hconfined⟩ := hholds.waiting frame hmem
    have hscope := hscope.of_decls_eq hx.link.decls
    obtain ⟨searcher', hsched, -⟩ := foldl_schedule_eq
      ((e.after k).launched.executed searcher root m) next
    have hrun := hx.run
    rw [hsame.options, hsame.program] at hrun
    refine ⟨hmem, hx.block, hrun, rfl, hscope,
      ⟨hconfined, Nat.zero_le _, hscope.tidy⟩, hx.link.decls, ?_⟩
    rw [hafter, hsched]
    rfl

/-- A step that has executed a block has made a visit. -/
theorem Unused.exists_visitsAt (he : e.Unused) (hf : (e.after k).step.1.executed? = some f) :
    ∃ v, e.VisitsAt k v ∧ v.finished = f := by
  have hturn : (e.after k).launched.Turn (e.after k).step.1 (e.after (k + 1)) := by
    rw [after_succ]
    cases k with
    | zero =>
      rcases step_eq_of_not_started he.started with ⟨_, -, hstep⟩ | ⟨-, hstep⟩
      · rw [after_zero, hstep] at hf
        cases hf
      · rw [he.launched_zero, after_zero, hstep]
        exact step_turn (started_entered e)
    | succ k =>
      rw [he.launched_succ]
      exact step_turn ((he.toFresh.sameTask_after k).started rfl)
  unfold VisitsAt
  generalize e.after (k + 1) = e', (e.after k).step.1 = o at hturn hf
  cases hturn with
  | executed hsel hx => exact ⟨_, .mk hsel hx, Option.some.inj hf⟩
  | finished | outside | unlinked | broken => cases hf

/-- If nothing else waits, the next visit is one of a frame that was handed on. -/
theorem VisitsAt.mem_next (hv : e.VisitsAt k v) (hw : e.VisitsAt (k + 1) w) (he : e.Unused)
    (hone : (e.after k).launched.searcher.pending.length = 1) : w.frame.unnumbered ∈ v.next := by
  obtain ⟨fs, hrooted⟩ := he.rooted_launched k
  have hmem := (hw.visited he).pending
  have hrun := (hv.visited he).run
  rw [he.launched_succ] at hmem
  rw [VisitsAt] at hv
  generalize e.after (k + 1) = e' at hv hmem
  cases hv with
  | @mk frame searcher b g root m next hsel hx =>
    obtain ⟨hturn, hperm⟩ := Searcher.pending_of_select_some hrooted.turning hsel
    have hnil : searcher.pending = [] := by
      rw [hperm.length_eq, List.length_cons] at hone
      exact List.eq_nil_of_length_eq_zero (Nat.succ.inj hone)
    obtain ⟨searcher', hsched, hpend⟩ := foldl_schedule_eq
      ((e.after k).launched.executed searcher root m) next
    obtain ⟨-, hpend⟩ := hpend hturn
    rw [show ((e.after k).launched.executed searcher root m).searcher.pending = [] from hnil,
      List.map_nil, List.append_nil] at hpend
    rw [hsched] at hmem
    obtain ⟨f, hf, heq⟩ := exists_unnumbered_eq hpend hmem
    have hf := (List.mem_filter.mp hf).1
    rw [← heq, Frame.unnumbered_of_id ((Machine.block_succeeds hrun).1 f hf).id]
    exact hf

/-! ## Inside of a call -/

/-- A frame that was handed on inside of the call that a visit makes at a step.  All frames on the
way to it are inside of fewer calls than a bound. -/
inductive InCall (e : Explorer) (k : Nat) (v : Visit) (bound : Nat) : Frame → Prop
  | enter {f : Frame} : f ∈ v.next → v.frame.depth < f.depth → f.depth < bound →
    InCall e k v bound f
  | goOn {l : Nat} {w : Visit} {f : Frame} : InCall e k v bound w.frame.unnumbered → k < l →
    e.VisitsAt l w → f ∈ w.next → v.frame.depth < f.depth → f.depth < bound → InCall e k v bound f

/-- A frame with which the caller goes on when the call returns. -/
def Resumes (e : Explorer) (k : Nat) (v : Visit) (bound : Nat) (r : Frame) : Prop :=
  ∃ l w, InCall e k v bound w.frame.unnumbered ∧ k < l ∧ e.VisitsAt l w ∧ r ∈ w.next ∧
    r.depth ≤ v.frame.depth

/-- The frame is inside of a call that a caller has made.  It keeps to its side of the boundary. -/
structure Nested (B : Boundary) (caller : Caller) (callers : List Caller) (f : Frame) : Prop where
  stack : caller :: callers <:+ f.callers
  memory : f.memory.Confined B f.depth

/-- The callee begins on its side of the boundary. -/
theorem Visited.exists_nested {callee : String} {args : List Operand} {dest : Place} {next : Int}
    {span : Span} {body : Function} (h : e.Visited k v)
    (ht : v.block.terminator = .call callee args (some dest) next span)
    (hbody : e.options.followed e.program v.frame.depth callee = some body) :
    ∃ s, v.Evaluates (e.nodeAt k) span args s ∧
      s.graph.decls.length ≤ v.left.store.graph.decls.length ∧
      (v.frame.depth + 1 < 0x100000000 → ∃ B, B.depth = v.frame.depth + 1 ∧
        B.names = s.graph.decls.length ∧ B.memory = s.memory ∧ ∀ f ∈ v.next,
          Nested B ⟨v.frame.function, v.frame.block, dest, next⟩ v.frame.callers f) := by
  obtain ⟨s₁, values, s, s', hst, hargs, hpass, hgraph, hnext⟩ :=
    Machine.block_follows ht h.run hbody
  refine ⟨s, ⟨s₁, values, hst, hargs⟩, ?_, fun hlt => ?_⟩
  · obtain ⟨es, hgrows⟩ := (Store.follows_passArguments _ 1 values).of_eq hpass
    rw [hgraph]
    exact hgrows.length_le
  · have henv : (v.env (e.nodeAt k)).Inside .start v.frame.depth :=
      ⟨rfl, Nat.zero_le _, .inr rfl⟩
    obtain ⟨es, hev, -⟩ := h.scope.statements hst
    have hs := (h.confined.statements henv hst).operands (henv.withSpan span) hargs
    obtain ⟨B, hB, hnames, hmemory, hconfined⟩ :=
      hs.exists_callee (hev.scope.operands hargs).1.scope hlt rfl hpass
    refine ⟨B, hB, hnames, hmemory, ?_⟩
    rw [hnext, List.forall_mem_singleton]
    exact ⟨List.suffix_rfl, hconfined⟩

section

variable {B : Boundary} {caller : Caller} {callers : List Caller}
  (h : Nested B caller callers w.frame) (hw : e.Visited l w) (hB : B.depth = callers.length + 1)
  (hnames : B.names ≤ w.entered.store.graph.decls.length) (hlt : w.frame.depth < 0x100000000)
include h hw hB hnames hlt

theorem Nested.goOn (hf : f ∈ w.next) (hin : callers.length < f.depth) (hf' : f.depth < 0x100000000) :
    Nested B caller callers f := by
  have hlength := h.stack.length_le
  have hs : w.entered.store.Confined B w.frame.depth :=
    ⟨hw.memory ▸ h.memory, hnames, hw.confined.tidy⟩
  have henv : (w.env (e.nodeAt l)).Inside B w.frame.visit.depth := ⟨rfl, hB ▸ hlength, .inl hlt⟩
  refine ⟨?_, Machine.block_confined henv hs hw.run f hf (hB ▸ hin) (.inl hf')⟩
  rcases ((Machine.block_succeeds hw.run).1 f hf).callers_cases h.stack with ⟨-, rfl⟩ | hstack
  · exact absurd hin (Nat.lt_irrefl _)
  · exact hstack

/-- When the call returns, the slots of the callee are dropped, and then the destination is
written. -/
theorem Nested.resume (hr : r ∈ w.next) (hout : r.depth ≤ callers.length) :
    r.function = caller.function ∧ r.block = caller.next ∧ r.callers = callers ∧
      ∃ (env : Env) (s : Store) (n : Name) (t : Store), env.function = caller.function ∧
        env.depth = callers.length ∧ B.names ≤ s.graph.decls.length ∧
        B.memory.Undisturbed callers.length B.names s.memory ∧
        Store.writeFresh env caller.dest s = (.ok n, t) ∧ r.memory = t.memory := by
  have hcases := ((Machine.block_succeeds hw.run).1 r hr).callers_cases h.stack
  obtain ⟨hc, hcallers⟩ := hcases.resolve_right fun hstack => Nat.not_lt.mpr hout hstack.length_le
  have hdepth : w.frame.depth = callers.length + 1 := congrArg List.length hc
  obtain ⟨s₁, result, s₂, n, s₃, d, s₄, hst, hread, hwrite, heq, -, rfl⟩ :=
    Machine.block_returns hc hw.run hr hcallers
  have hs : w.entered.store.Confined B w.frame.depth :=
    ⟨hw.memory ▸ h.memory, hnames, hw.confined.tidy⟩
  have henv : (w.env (e.nodeAt l)).Inside B w.frame.depth :=
    ⟨rfl, by rw [hB, hdepth], .inl hlt⟩
  have hs₂ := ((hs.statements henv hst).readCopy henv hread).1
  rw [hdepth] at hs₂
  have hdrop : (s₂.memory.drop (w.env (e.nodeAt l)).depth).Confined B callers.length := by
    rw [henv.depth, hdepth]
    exact hs₂.memory.drop hB.le
  obtain ⟨-, -, -, -, rfl⟩ := Store.assertEqual_eq_ok heq
  refine ⟨rfl, rfl, rfl, _, _, n, s₃, rfl, rfl, ?_, hdrop.undisturbed (hB ▸ Nat.lt_succ_self _),
    hwrite, rfl⟩
  exact hs₂.names

end

/-- Calls do not disturb their callers.  At any time, a waiting frame has slots at the depths of the
calls that it is inside of only.  When a call that was followed returns, however many blocks and
calls it has executed, the caller goes on with a memory that comes from the one in which the
arguments had been evaluated: the slots up to the depth of the caller and what is behind names that
had been declared are the same, and then the destination is written, where a new name is none of
these.  No slot of the callee remains.

The bound is there because slots keep the low 32 bits of their depth only: inside of so many calls,
a callee would get the slots of the entry function. -/
theorem callee_isolated (he : e.Unused) :
    (∀ n, ∀ f ∈ (e.after n).launched.searcher.pending, ∀ x : Slot, f.depth < x.depth →
      f.memory.locals.get? x = none ∧ f.memory.addrs.get? x = none) ∧
    ∀ k v callee args dest next span body, e.VisitsAt k v →
      v.block.terminator = .call callee args (some dest) next span →
      e.options.followed e.program v.frame.depth callee = some body →
      ∃ s, v.Evaluates (e.nodeAt k) span args s ∧ ∀ r, e.Resumes k v 0x100000000 r →
        r.function = v.frame.function ∧ r.block = next ∧ r.callers = v.frame.callers ∧
        (∀ x : Slot, v.frame.depth < x.depth →
          r.memory.locals.get? x = none ∧ r.memory.addrs.get? x = none) ∧
        ∃ (env : Env) (s' : Store) (n : Name) (t : Store), env.function = v.frame.function ∧
          env.depth = v.frame.depth ∧ s.graph.decls.length ≤ s'.graph.decls.length ∧
          s.memory.Undisturbed v.frame.depth s.graph.decls.length s'.memory ∧
          Store.writeFresh env dest s' = (.ok n, t) ∧ r.memory = t.memory := by
  refine ⟨fun n f hf x hx => ?_, fun k v callee args dest next span body hv ht hbody => ?_⟩
  · have hholds := (keeps_confined e.options e.program).launched he (starts_confined e) n
      fun _ _ => trivial
    exact (hholds.waiting f hf).2.get?_slot_of_lt (Nat.zero_le _) hx
  · have hvisited := hv.visited he
    obtain ⟨s, heval, hlength, hcall⟩ := hvisited.exists_nested ht hbody
    refine ⟨s, heval, ?_⟩
    rintro r ⟨l, w, hin, hkl, hw, hr, hout⟩
    have hbound : v.frame.depth + 1 < 0x100000000 := by
      cases hin with
      | enter _ h h' | goOn _ _ _ _ h h' => exact Nat.lt_of_le_of_lt h h'
    obtain ⟨B, hB, hnames, hmemory, hfirst⟩ := hcall hbound
    have hdeclared : ∀ {l w}, k < l → e.Visited l w →
        B.names ≤ w.entered.store.graph.decls.length := by
      intro l w hkl hw
      obtain ⟨l, rfl⟩ := Nat.exists_eq_succ_of_ne_zero (Nat.ne_of_gt (Nat.zero_lt_of_lt hkl))
      rw [hnames, hw.entered, he.launched_succ]
      rw [hvisited.left] at hlength
      exact hlength.trans (he.length_decls_le hkl)
    have hnested : ∀ {f}, e.InCall k v 0x100000000 f → f.depth < 0x100000000 ∧
        Nested B ⟨v.frame.function, v.frame.block, dest, next⟩ v.frame.callers f := by
      intro f hf
      induction hf with
      | enter hmem _ hlt => exact ⟨hlt, hfirst _ hmem⟩
      | goOn _ hkl hw hmem hin hlt ih =>
        have hw := hw.visited he
        exact ⟨hlt, Nested.goOn ⟨ih.2.stack, ih.2.memory⟩ hw hB (hdeclared hkl hw) ih.1 hmem hin
          hlt⟩
    obtain ⟨hlt, hstack, hconfined⟩ := hnested hin
    have hw := hw.visited he
    obtain ⟨hfunction, hblock, hcallers, env, s', n, t, henv, hdepth, hnew, hsame, hwrite, hmem⟩ :=
      Nested.resume ⟨hstack, hconfined⟩ hw hB (hdeclared hkl hw) hlt hr hout
    rw [hnames] at hnew
    rw [hmemory, hnames] at hsame
    refine ⟨hfunction, hblock, hcallers, fun x hx => ?_, env, s', n, t, henv, hdepth, hnew, hsame,
      hwrite, hmem⟩
    have henv : (w.env (e.nodeAt l)).Inside .start w.frame.visit.depth :=
      ⟨rfl, Nat.zero_le _, Or.inr rfl⟩
    exact (Machine.block_confined henv hw.confined hw.run r hr (Nat.zero_le _)
      (Or.inr rfl)).get?_slot_of_lt (Nat.zero_le _) (Nat.lt_of_le_of_lt hout hx)

/-! ## A pointer that comes back from a call -/

/-- The pointer that comes back from the call is new to the caller. -/
theorem echoed_isolated : ∃ v r s, echoed.VisitsAt 0 v ∧ echoed.Resumes 0 v 0x100000000 r ∧
    v.Evaluates (echoed.nodeAt 0) {} [.copy ⟨1, 0⟩] s ∧ r.block = 1 ∧
    ∃ (env : Env) (s' : Store) (n : Name) (t : Store),
      s.memory.Undisturbed 0 s.graph.decls.length s'.memory ∧
      Store.writeFresh env ⟨2, 0⟩ s' = (.ok n, t) ∧ r.memory = t.memory := by
  have he : echoed.Unused := .new ..
  obtain ⟨f₀, hf₀, hcall⟩ := Option.map_eq_some_iff.mp
    (show (echoed.after 0).step.1.executed?.map (fun f => (f.depth, f.function.block? f.block)) =
      some (0, some ⟨[], .call "echo" [.copy ⟨1, 0⟩] (some ⟨2, 0⟩) 1 {}⟩) by decide +kernel)
  obtain ⟨f₁, hf₁, hinner⟩ := Option.map_eq_some_iff.mp
    (show (echoed.after 1).step.1.executed?.map Frame.depth = some 1 by decide +kernel)
  obtain ⟨f₂, hf₂, houter⟩ := Option.map_eq_some_iff.mp
    (show (echoed.after 2).step.1.executed?.map Frame.depth = some 0 by decide +kernel)
  obtain ⟨v, hv, rfl⟩ := he.exists_visitsAt hf₀
  obtain ⟨w, hw, rfl⟩ := he.exists_visitsAt hf₁
  obtain ⟨u, hu, rfl⟩ := he.exists_visitsAt hf₂
  obtain ⟨hdepth, hblock⟩ := Prod.mk.inj hcall
  have hdepth : v.frame.depth = 0 := hdepth
  have hinner : w.frame.unnumbered.depth = 1 := hinner
  have houter : u.frame.unnumbered.depth = 0 := houter
  have hb : v.block = ⟨[], .call "echo" [.copy ⟨1, 0⟩] (some ⟨2, 0⟩) 1 {}⟩ :=
    Option.some.inj ((hv.visited he).block.symm.trans hblock)
  have hresumes : echoed.Resumes 0 v 0x100000000 u.frame.unnumbered :=
    ⟨1, w, .enter (hv.mem_next hw he (by decide +kernel)) (by omega) (by omega), Nat.one_pos, hw,
      hw.mem_next hu he (by decide +kernel), by omega⟩
  obtain ⟨s, hs, hreturn⟩ := (callee_isolated he).2 0 v "echo" [.copy ⟨1, 0⟩] ⟨2, 0⟩ 1 {}
    _ hv (by rw [hb]) (by rw [hdepth]; rfl)
  obtain ⟨-, hnext, -, -, env, s', n, t, -, -, -, hsame, hwrite, hmem⟩ := hreturn _ hresumes
  exact ⟨v, _, s, hv, hresumes, hs, hnext, env, s', n, t, hdepth ▸ hsame, hwrite, hmem⟩

end Explorer

end NullPath
