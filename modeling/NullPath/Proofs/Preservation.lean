import NullPath.Proofs.RootedTree
import NullPath.Proofs.Visits

/-!
# What executions keep

An action can break off in the middle, and the graph keeps what it did until then.  So a condition
on states is followed through an action in two ways at once: what holds if it ends with a value, and
what holds if it fails.

A condition on graphs and one on frames hold during a whole exploration if they hold after the entry
and if executing a block keeps them: the first one however the block ends, the second one for the
frames that wait and for those that the block hands on.  The order in which frames are chosen does
not matter for this, and something may be assumed of the frames whose blocks are executed.

* `Explorer.Keeps.launched`: the conditions hold before every step.
* `Explorer.Unused.step_ends`: the outcome of a step is that of the block it executes.
-/

namespace NullPath

open Action

/-! ## Triples -/

namespace Action

variable {σ α β : Type} {s : σ} {Q Q' : α → σ → Prop} {R : β → σ → Prop}
  {E E' : Failure → σ → Prop}

/-- What holds after an action has been run in a state: one condition if it ends with a value, and
another one if it fails. -/
structure Triple (x : Action σ α) (s : σ) (Q : α → σ → Prop) (E : Failure → σ → Prop) : Prop where
  ok : ∀ a s', x s = (.ok a, s') → Q a s'
  failed : ∀ e s', x s = (.error e, s') → E e s'

namespace Triple

variable {x : Action σ α}

/-- An action whose end is known. -/
theorem of_eq_ok {a : α} {s' : σ} (h : x s = (.ok a, s')) (hQ : Q a s') : Triple x s Q E := by
  constructor
  · intro b s₁ hb
    cases h.symm.trans hb
    exact hQ
  · intro e s₁ he
    cases h.symm.trans he

theorem pure {a : α} (h : Q a s) : Triple (Pure.pure a : Action σ α) s Q E :=
  of_eq_ok rfl h

theorem fail {e : Failure} (h : E e s) : Triple (Action.fail e : Action σ α) s Q E := by
  refine ⟨fun b s' hb => (by cases hb), fun e' s' he => ?_⟩
  cases he
  exact h

theorem error {e : Error} (h : E (.error e) s) : Triple (Action.error e : Action σ α) s Q E :=
  fail h

theorem lift {r : Except Error α} (hok : ∀ a, r = .ok a → Q a s)
    (herr : ∀ e, r = .error e → E (.error e) s) : Triple (Action.lift r) s Q E := by
  cases r with
  | ok a => exact pure (hok a rfl)
  | error e => exact error (herr e rfl)

theorem liftFault {r : Except Fault α} (hok : ∀ a, r = .ok a → Q a s)
    (herr : ∀ f, r = .error f → E (.fault f) s) : Triple (Action.liftFault r) s Q E := by
  cases r with
  | ok a => exact pure (hok a rfl)
  | error f => exact fail (herr f rfl)

/-- One action after the other. -/
theorem bind {f : α → Action σ β} (hx : Triple x s Q E)
    (hf : ∀ a s', x s = (.ok a, s') → Q a s' → Triple (f a) s' R E) :
    Triple (x >>= f) s R E := by
  constructor
  · intro b s' h
    obtain ⟨a, s₁, hxs, hfs⟩ := bind_eq_ok.mp h
    exact (hf a s₁ hxs (hx.ok a s₁ hxs)).ok b s' hfs
  · intro e s' h
    rw [bind_apply] at h
    split at h
    · next a s₁ hxs => exact (hf a s₁ hxs (hx.ok a s₁ hxs)).failed e s' h
    · next e₁ s₁ hxs =>
      cases h
      exact hx.failed _ _ hxs

/-- An action after one whose end is known. -/
theorem bind_of_eq {f : α → Action σ β} {a : α} {s' : σ} (h : x s = (.ok a, s'))
    (hf : Triple (f a) s' R E) : Triple (x >>= f) s R E := by
  refine bind (Q := fun _ _ => True) (of_eq_ok h trivial) fun b s₁ hb _ => ?_
  cases h.symm.trans hb
  exact hf

theorem mono (hx : Triple x s Q E) (hQ : ∀ a s', Q a s' → Q' a s')
    (hE : ∀ e s', E e s' → E' e s') : Triple x s Q' E' :=
  ⟨fun a s' h => hQ a s' (hx.ok a s' h), fun e s' h => hE e s' (hx.failed e s' h)⟩

/-- An activity changes nothing but the wording of errors. -/
theorem within (hx : Triple x s Q E) (activity : String)
    (hE : ∀ e s', E e s' → E (e.within activity) s') :
    Triple (Action.within activity x) s Q E := by
  refine ⟨fun a s' h => hx.ok a s' (within_eq_ok.mp h), fun e s' h => ?_⟩
  unfold Action.within at h
  split at h
  · cases h
  · next e₁ s₁ hxs =>
    cases h
    exact hE _ _ (hx.failed _ _ hxs)

/-- An action on graph and memory. -/
theorem onStore {x : Action Store α} {m : Machine} {Q : α → Store → Prop}
    {E : Failure → Store → Prop} (hx : Triple x m.store Q E) :
    Triple (Machine.onStore x) m (fun a m' => Q a m'.store) fun failure m' => E failure m'.store := by
  refine ⟨fun a m' h => ?_, fun failure m' h => ?_⟩
  · obtain ⟨s', hs', rfl⟩ := Machine.onStore_eq_ok.mp h
    exact hx.ok a s' hs'
  · obtain ⟨hr, rfl⟩ := Prod.mk.inj h
    exact hx.failed failure _ (Prod.ext hr rfl)

/-- An action on a copy of the memory. -/
theorem onCopy {x : Action Store α} {s : Store} {Q : α → Store → Prop}
    {E : Failure → Store → Prop} (hx : Triple x s Q E) :
    Triple (Store.onCopy x) s
      (fun r s' => Q r.1 ⟨s'.graph, r.2⟩ ∧ s'.memory = s.memory)
      fun failure s' => ∃ memory, E failure ⟨s'.graph, memory⟩ := by
  refine ⟨fun r s' h => ?_, fun failure s' h => ?_⟩
  · obtain ⟨a, memory⟩ := r
    obtain ⟨s₁, hs₁, rfl, rfl⟩ := Store.onCopy_eq_ok.mp h
    exact ⟨hx.ok a s₁ hs₁, rfl⟩
  · unfold Store.onCopy at h
    split at h
    · cases h
    · next e₁ s₁ hxs =>
      obtain ⟨heq, rfl⟩ := Prod.mk.inj h
      obtain rfl := Except.error.inj heq
      exact ⟨s₁.memory, hx.failed e₁ s₁ hxs⟩

end Triple

end Action

namespace Store

variable {s : Store} {n : Name}

/-- Looking up a declaration changes nothing. -/
theorem triple_declaration : Triple (declaration n) s
    (fun d s' => s' = s ∧ s.graph.declaration? n = some d) fun _ s' =>
      s' = s ∧ s.graph.declaration? n = none := by
  refine Triple.bind_of_eq rfl ?_
  rw [Graph.declaration]
  cases hd : s.graph.declaration? n with
  | some d => exact Triple.pure ⟨rfl, rfl⟩
  | none => exact Triple.fail ⟨rfl, rfl⟩

/-- A change of the graph that fails changes nothing. -/
theorem triple_onGraph {f : Graph → Except Fault Graph} : Triple (onGraph f) s
    (fun _ s' => ∃ g, f s.graph = .ok g ∧ s' = { s with graph := g })
    fun failure s' => s' = s ∧ ∃ fault, f s.graph = .error fault ∧ failure = .fault fault := by
  refine Triple.bind_of_eq rfl ?_
  cases hg : f s.graph with
  | ok g => exact Triple.of_eq_ok rfl ⟨g, rfl, rfl⟩
  | error fault => exact Triple.fail ⟨rfl, fault, rfl, rfl⟩

end Store

/-! ## Explorations -/

/-- The node exists and has not been closed. -/
def Graph.IsOpen (g : Graph) (i : Int) : Prop :=
  ∃ k, g.node? i = some k ∧ k.closed = false

theorem Graph.IsOpen.grows {g g' : Graph} {i : Int} {es : List Expr} (h : g.IsOpen i)
    (hg : g.Grows i es g') : g'.IsOpen i := by
  obtain ⟨k, hk, hopen⟩ := h
  unfold IsOpen
  rw [hg.node?, node?_modifyNode (nonneg_of_node? hk), if_pos rfl, hk]
  exact ⟨_, rfl, hopen⟩

namespace Explorer

variable {e e' : Explorer} {fs : List Frame} {o : Outcome} {P : Frame → Prop} {G : Graph → Prop}
  {F : Graph → Frame → Prop}

/-- Executing the block of a frame that is as assumed keeps a condition on the graph and a condition
on the frames that wait, which also the frames that go on meet.  Both depend on the declared names
alone, and the numbers of frames do not matter. -/
structure Keeps (options : Options) (program : Program) (P : Frame → Prop) (G : Graph → Prop)
    (F : Graph → Frame → Prop) : Prop where
  graph_of_decls : ∀ g g', g'.decls = g.decls → G g → G g'
  frame_of_decls : ∀ g g' f, g'.decls = g.decls → F g f → F g' f
  of_unnumbered : ∀ g f f', f.unnumbered = f'.unnumbered → F g f → F g f'
  block : ∀ g i frame b stats result m, P frame → G g → F g frame → g.IsOpen i →
    frame.function.block? frame.block = some b →
    Machine.block options program frame.visit
      { function := frame.function, depth := frame.depth, node := i } b
      { store := ⟨g, frame.memory⟩, stats } = (result, m) →
    G m.store.graph ∧ (∀ f, F g f → F m.store.graph f) ∧
      ∀ next, result = .ok next → ∀ f ∈ next, F m.store.graph f

/-- The conditions hold after the entry. -/
structure Starts (e : Explorer) (G : Graph → Prop) (F : Graph → Frame → Prop) : Prop where
  entered : ∀ s, enterFunction e.entry {} = (.ok (), s) →
    G s.graph ∧ F s.graph { function := e.entry, memory := s.memory }
  refused : ∀ failure s, enterFunction e.entry {} = (.error failure, s) → G s.graph

/-- The conditions hold of the graph and of the frames that wait. -/
structure Holds (e : Explorer) (G : Graph → Prop) (F : Graph → Frame → Prop) : Prop where
  graph : G e.graph
  waiting : ∀ f ∈ e.searcher.pending, F e.graph f

theorem Starts.holds_entered (hstart : e.Starts G F)
    (hid : ∀ g f f', f.unnumbered = f'.unnumbered → F g f → F g f') (he : e.Fresh) :
    e.entered.Holds G F := by
  rcases he.start_cases with ⟨s, searcher, hs, -, hentered, hpend⟩ |
    ⟨failure, s, hs, -, hentered⟩
  · obtain ⟨hG, hF⟩ := hstart.entered s hs
    rw [hentered]
    refine ⟨hG, fun f hf => ?_⟩
    obtain ⟨f', hf', heq⟩ := exists_unnumbered_eq hpend hf
    obtain rfl := List.mem_singleton.mp (List.mem_filter.mp hf').1
    exact hid _ _ _ heq hF
  · rw [hentered]
    exact ⟨hstart.refused failure s hs, by simp [he.pending]⟩

/-- The new node of a frame is open. -/
theorem Rooted.isOpen (h : e.Rooted fs) {frame : Frame} {g : Graph} {root : Int}
    (hf : frame ∈ e.searcher.pending) (hl : e.Linking frame g root) :
    g.IsOpen e.graph.nodes.length :=
  ⟨_, by rw [hl.node? (h.spans.parent_lt (h.waiting frame hf)), if_pos rfl], rfl⟩

namespace Keeps

variable (h : Keeps e.options e.program P G F)
include h

/-- Executing a block keeps the conditions, and the frames that it hands on meet theirs. -/
theorem executed (hh : e.Holds G F) (hr : e.Rooted fs) {frame : Frame} {searcher : Searcher Frame}
    {b : Block} {g : Graph} {root : Int} {result : Except Failure (List Frame)} {m : Machine}
    (hsel : e.searcher.select = (some frame, searcher))
    (hx : e.Executes frame b g root result m) (hP : P frame) :
    (e.executed searcher root m).Holds G F ∧
      ∀ next, result = .ok next → ∀ f ∈ next, F (e.executed searcher root m).graph f := by
  obtain ⟨-, hpend⟩ := Searcher.pending_of_select_some hr.turning hsel
  have hmem := hpend.mem_iff.mpr List.mem_cons_self
  have hlink : ∀ f, F e.graph f → F g f := fun f => h.frame_of_decls _ _ f hx.link.decls
  obtain ⟨hG, hkeep, hnext⟩ := h.block g _ frame b _ result m hP
    (h.graph_of_decls _ _ hx.link.decls hh.graph) (hlink frame (hh.waiting frame hmem))
    (hr.isOpen hmem hx.link) hx.block hx.run
  refine ⟨⟨h.graph_of_decls m.store.graph _ rfl hG, fun f hf => ?_⟩, fun next hok f hf => ?_⟩
  · have hold := hh.waiting f (hpend.mem_iff.mpr (.tail _ hf))
    exact h.frame_of_decls m.store.graph _ f rfl (hkeep f (hlink f hold))
  · exact h.frame_of_decls m.store.graph _ f rfl (hnext next hok f hf)

theorem turn (hh : e.Holds G F) (hr : e.Rooted fs) (hs : e.started = true) (ht : e.Turn o e')
    (hP : ∀ f ∈ e.chosen?, P f) : e'.Holds G F := by
  cases ht with
  | finished hsel =>
    have hnil := (Searcher.pending_of_select_none hr.turning hsel).2.1
    exact ⟨hh.graph, by simp [hnil]⟩
  | outside hsel _ =>
    have hpend := (Searcher.pending_of_select_some hr.turning hsel).2
    exact ⟨hh.graph, fun f hf => hh.waiting f (hpend.mem_iff.mpr (.tail _ hf))⟩
  | unlinked hsel hp hadd =>
    have hmem := (Searcher.pending_of_select_some hr.turning hsel).2.mem_iff.mpr List.mem_cons_self
    exact absurd hadd (hr.addEdge_ne_error hmem hp)
  | broken hsel hx =>
    exact (h.executed hh hr hsel hx (hP _ (chosen?_of_block hs hsel hx.block))).1
  | @executed frame searcher b g root m next hsel hx =>
    obtain ⟨hkept, hnext⟩ := h.executed hh hr hsel hx (hP _ (chosen?_of_block hs hsel hx.block))
    obtain ⟨hturn, -⟩ := Searcher.pending_of_select_some hr.turning hsel
    obtain ⟨searcher', hsched, hperm⟩ := foldl_schedule_eq (e.executed searcher root m) next
    obtain ⟨-, hperm⟩ := hperm hturn
    rw [← List.map_append] at hperm
    rw [hsched]
    refine ⟨hkept.graph, fun f hf => ?_⟩
    obtain ⟨f', hf', heq⟩ := exists_unnumbered_eq hperm hf
    refine h.of_unnumbered _ f' f heq ?_
    rcases List.mem_append.mp hf' with hf' | hf'
    · exact hnext next rfl f' (List.mem_filter.mp hf').1
    · exact hkept.waiting f' hf'

/-- The conditions hold after every number of steps. -/
theorem after (he : e.Unused) (hstart : e.Starts G F) (n : Nat)
    (hP : ∀ f ∈ e.framesOf (n + 1), P f) : (e.after (n + 1)).Holds G F := by
  have hall := after_induction
    (I := fun e' fs => { e with started := true }.SameTask e' ∧ e'.Rooted fs ∧
      ((∀ f ∈ fs, P f) → e'.Holds G F))
    he.toFresh
    ⟨sameTask_entered e, he.rooted_entered,
      fun _ => hstart.holds_entered h.of_unnumbered he.toFresh⟩
    (fun e₁ fs o e₂ hs hI ht => by
      obtain ⟨hsame, hr, hh⟩ := hI
      have h₁ : Keeps e₁.options e₁.program P G F := by
        rw [hsame.options, hsame.program]
        exact h
      refine ⟨hsame.trans ht.sameTask, hr.turn hs ht, fun hP => ?_⟩
      rw [List.forall_mem_append] at hP
      exact h₁.turn (hh hP.1) hr hs ht fun f hf => hP.2 f (Option.mem_toList.mpr hf)) n
  exact hall.2.2 hP

end Keeps

/-! ## Outcomes of steps -/

/-- The explorer once its entry function has been entered. -/
def launched (e : Explorer) : Explorer :=
  if e.started then e else e.entered

theorem launched_of_started (he : e.started = true) : e.launched = e :=
  if_pos he

theorem Unused.launched_zero (he : e.Unused) : (e.after 0).launched = e.entered :=
  if_neg (by rw [after_zero, he.started]; exact Bool.false_ne_true)

theorem Unused.launched_succ (he : e.Unused) (n : Nat) :
    (e.after (n + 1)).launched = e.after (n + 1) :=
  launched_of_started ((he.toFresh.sameTask_after n).started rfl)

theorem Unused.rooted_launched (he : e.Unused) (n : Nat) :
    ∃ fs, (e.after n).launched.Rooted fs := by
  cases n with
  | zero =>
    rw [he.launched_zero]
    exact ⟨[], he.rooted_entered⟩
  | succ n =>
    rw [he.launched_succ]
    exact ⟨_, he.rooted_after n⟩

theorem Unused.sameTask_launched (he : e.Unused) (n : Nat) :
    { e with started := true }.SameTask (e.after n).launched := by
  cases n with
  | zero =>
    rw [he.launched_zero]
    exact sameTask_entered e
  | succ n =>
    rw [he.launched_succ]
    exact he.toFresh.sameTask_after n

/-- The conditions hold before every step. -/
theorem Keeps.launched (h : Keeps e.options e.program P G F) (he : e.Unused)
    (hstart : e.Starts G F) (n : Nat) (hP : ∀ f ∈ e.framesOf n, P f) :
    (e.after n).launched.Holds G F := by
  cases n with
  | zero =>
    rw [he.launched_zero]
    exact hstart.holds_entered h.of_unnumbered he.toFresh
  | succ n =>
    rw [he.launched_succ]
    exact h.after he hstart n hP

/-- An error with the place in the code where it arose. -/
def located (frame : Frame) (err : Error) : Error :=
  err.within s!"{frame.function.name}: bb{frame.block}"

/-- The outcome of a step whose block ended with a result. -/
def reported (frame : Frame) : Except Failure (List Frame) → Outcome
  | .ok _ => .executed frame
  | .error (.error err) => .failed (some frame) (.error (located frame err))
  | .error (.fault f) => .failed none (.fault f)

/-- How a step of a started exploration ends, with the frame whose block it executes. -/
inductive Ends (e : Explorer) : Option Frame → Outcome → Prop
  | finished : Ends e none .finished
  | outside {frame : Frame} : frame ∈ e.searcher.pending →
    frame.function.block? frame.block = none →
    Ends e none (.failed (some frame)
      (.error (located frame (.of (.blockOutOfRange frame.block)))))
  | executed {frame : Frame} {b : Block} {g : Graph} {root : Int}
    {result : Except Failure (List Frame)} {m : Machine} : frame ∈ e.searcher.pending →
    e.Executes frame b g root result m → g.IsOpen e.graph.nodes.length →
    Ends e (some frame) (reported { frame.visit with memory := m.store.memory } result)

theorem Ends.mem {frame : Frame} (h : e.Ends (some frame) o) : frame ∈ e.searcher.pending := by
  cases h with
  | executed hmem _ _ => exact hmem

theorem Rooted.step_ends (h : e.Rooted fs) (hs : e.started = true) : e.Ends e.chosen? e.step.1 := by
  unfold step
  rw [if_pos hs]
  simp only
  cases hsel : e.searcher.select with
  | mk chosen searcher =>
    cases chosen with
    | none =>
      rw [chosen?_of_none hs hsel]
      exact .finished
    | some frame =>
      have hmem := (Searcher.pending_of_select_some h.turning hsel).2.mem_iff.mpr
        List.mem_cons_self
      simp only
      rcases executeFrame_cases e searcher frame with
        ⟨hb, hx⟩ | ⟨p, f, hp, hadd, -⟩ | ⟨b, g, root, result, m, hex, hx⟩
      · rw [hx, chosen?_of_outside hs hsel hb]
        exact .outside hmem hb
      · exact absurd hadd (h.addEdge_ne_error hmem hp)
      · rw [hx, chosen?_of_block hs hsel hex.block]
        have hends := Ends.executed hmem hex (h.isOpen hmem hex.link)
        rcases result with (err | fault) | next <;> exact hends

/-- Every step ends in one of these ways.  The first one may also fail at the entry. -/
theorem Unused.step_ends (he : e.Unused) (n : Nat) :
    (n = 0 ∧ ∃ failure s, enterFunction e.entry {} = (.error failure, s) ∧
        (e.after n).chosen? = none ∧ (e.after n).step.1 = .failed none failure) ∨
      (e.after n).launched.Ends (e.after n).chosen? (e.after n).step.1 := by
  obtain ⟨fs, hr⟩ := he.rooted_launched n
  cases n with
  | zero =>
    rw [he.launched_zero] at hr ⊢
    rw [after_zero]
    rcases step_eq_of_not_started he.started with ⟨failure, herr, hstep⟩ | ⟨-, hstep⟩
    · rcases entered_cases e with ⟨s, -, hok, -⟩ | ⟨failure', s, hs, herr', -⟩
      · cases hok.symm.trans herr
      · obtain rfl := Except.error.inj (herr'.symm.trans herr)
        rw [he.graph] at hs
        exact .inl ⟨rfl, failure', s, hs, he.toFresh.chosen?_of_error herr, by rw [hstep]⟩
    · rw [hstep, he.toFresh.chosen?_eq_entered]
      exact .inr (hr.step_ends (started_entered e))
  | succ n =>
    rw [he.launched_succ] at hr ⊢
    exact .inr (hr.step_ends ((he.toFresh.sameTask_after n).started rfl))

end Explorer
end NullPath
