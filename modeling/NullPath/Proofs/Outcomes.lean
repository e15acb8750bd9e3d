import NullPath.Explore.Run
import NullPath.Proofs.Growth

/-!
# What an action does, whether it succeeds or fails

An action keeps its state when it fails.  What an exploration looks like after an error is
therefore the work of an action that broke off somewhere in the middle, and a statement about all
reachable states must speak about every such point.  A preorder on states that each part of an
action follows is followed by the action up to any point, so it suffices to look at the parts.

* `Store.Grown`, `Machine.Grown`: the graph has grown at one node, and frames, nodes and dropped
  frames are counted elsewhere.
* `Machine.follows_block`: a block leaves such a state behind, even if it fails.
* `Terminator.targets`, `Frame.Succeeds`: the frames that a terminator hands on.
-/

namespace NullPath

/-! ## Actions that follow a preorder -/

namespace Action

variable {σ α β : Type} {R : σ → σ → Prop}

/-- The states before and after the action are related, whatever its outcome is. -/
def Follows (R : σ → σ → Prop) (x : Action σ α) : Prop :=
  ∀ s, R s (x s).2

theorem Follows.of_eq {x : Action σ α} {s s' : σ} {r : Except Failure α} (hx : Follows R x)
    (h : x s = (r, s')) : R s s' := by
  have hs := hx s
  rwa [h] at hs

variable [IsPreorder σ R]

theorem follows_pure (a : α) : Follows R (Pure.pure a : Action σ α) :=
  refl_of R

theorem follows_get : Follows R (get : Action σ σ) :=
  refl_of R

theorem follows_fail (e : Failure) : Follows R (fail e : Action σ α) :=
  refl_of R

theorem follows_error (e : Error) : Follows R (error e : Action σ α) :=
  follows_fail (.error e)

theorem follows_lift (r : Except Error α) : Follows R (lift r : Action σ α) := by
  cases r with
  | ok a => exact follows_pure a
  | error e => exact follows_error e

theorem follows_liftFault (r : Except Fault α) : Follows R (liftFault r : Action σ α) := by
  cases r with
  | ok a => exact follows_pure a
  | error f => exact follows_fail (.fault f)

theorem Follows.bind_of_eq {x : Action σ α} {f : α → Action σ β} (hx : Follows R x)
    (hf : ∀ a s s', x s = (.ok a, s') → Follows R (f a)) : Follows R (x >>= f) := by
  intro s
  have hs := hx s
  rw [bind_apply]
  cases hxs : x s with
  | mk r s' =>
    rw [hxs] at hs
    cases r with
    | ok a => exact trans_of R hs (hf a s s' hxs s')
    | error e => exact hs

theorem Follows.bind {x : Action σ α} {f : α → Action σ β} (hx : Follows R x)
    (hf : ∀ a, Follows R (f a)) : Follows R (x >>= f) :=
  hx.bind_of_eq fun a _ _ _ => hf a

theorem follows_mapM {f : α → Action σ β} (hf : ∀ a, Follows R (f a)) (as : List α) :
    Follows R (as.mapM f) := by
  have hloop : ∀ bs, Follows R (List.mapM.loop f as bs) := by
    induction as with
    | nil => exact fun bs => follows_pure _
    | cons a as ih => exact fun bs => (hf a).bind fun b => ih (b :: bs)
  exact hloop []

omit [IsPreorder σ R] in
theorem Follows.within {x : Action σ α} (hx : Follows R x) (activity : String) :
    Follows R (within activity x) := by
  intro s
  have hs := hx s
  unfold Action.within
  split
  · next a s' hxs => rwa [hxs] at hs
  · next e s' hxs => rwa [hxs] at hs

end Action

/-! ## Growth of a store -/

namespace Store

open Action

variable {i : Int} (env : Env)

/-- The graph has grown at a node. -/
def Grown (i : Int) (s s' : Store) : Prop :=
  ∃ es, s.graph.Grows i es s'.graph

instance (i : Int) : IsPreorder Store (Grown i) where
  refl _ := ⟨[], .refl⟩
  trans _ _ _ := fun ⟨es, h⟩ ⟨es', h'⟩ => ⟨es ++ es', h.trans h'⟩

/-- A change of the memory does not touch the graph. -/
theorem follows_memory (f : Store → Memory) :
    Follows (Grown i) (Action.modify fun s => { s with memory := f s }) :=
  fun _ => ⟨[], .refl⟩

theorem follows_onGraph {f : Graph → Except Fault Graph}
    (hf : ∀ g g', f g = .ok g' → ∃ es, g.Grows i es g') : Follows (Grown i) (onGraph f) := by
  intro s
  unfold onGraph
  rw [bind_get, bind_apply]
  cases hg : f s.graph with
  | ok g => exact hf s.graph g hg
  | error e => exact refl_of (Grown i) s

theorem follows_declare {sort : ExprSort} (hsort : sort = .int ∨ sort = .bool) :
    Follows (Grown i) (declare sort none) :=
  fun s => ⟨[], .declare i s.graph hsort⟩

theorem follows_declaration (n : Name) : Follows (Grown i) (declaration n) :=
  follows_get.bind fun _ => follows_liftFault _

theorem follows_setCell (c : Cell) (b : Binding) : Follows (Grown i) (setCell c b) :=
  follows_memory fun s => s.memory.set c b

theorem follows_assertExpr (e : Expr) : Follows (Grown i) (assertExpr i e) := by
  refine follows_onGraph fun g g' hg => ?_
  obtain ⟨-, -, -, -, rfl⟩ := Graph.addExpr_eq_ok hg
  exact ⟨[e], .assert i g e⟩

theorem follows_tag (pointer : Name) : Follows (Grown env.node) (tag env pointer) := by
  refine (follows_declaration pointer).bind fun d => ?_
  split
  · refine follows_onGraph fun g g' hg => ?_
    obtain ⟨-, -, rfl⟩ := Graph.addTag_eq_ok hg
    exact ⟨[], .tag (t := ⟨env.node, env.span⟩) rfl g pointer⟩
  · exact follows_pure ()

theorem follows_readCell (p : Place) (c : Cell) : Follows (Grown i) (readCell env p c) := by
  refine follows_get.bind fun s => ?_
  split
  · exact follows_pure _
  · exact follows_error _
  · split
    · exact follows_error _
    · refine (follows_lift _).bind_of_eq fun sort _ _ hl => ?_
      have hsort := Function.placeSort_cases (lift_eq_ok.mp hl).1
      exact (follows_declare hsort).bind fun n => (follows_setCell _ _).bind fun _ => follows_pure n

/-- Going to a cell follows what reading and tagging follow. -/
theorem follows_resolveAt {R : Store → Store → Prop} [IsPreorder Store R]
    (hread : ∀ p c, Follows R (readCell env p c)) (htag : ∀ n, Follows R (tag env n)) (base : Int)
    (k : Nat) : Follows R (resolveAt env base k) := by
  induction k with
  | zero =>
    unfold resolveAt
    split
    · exact follows_error _
    · exact follows_get.bind fun s => follows_pure _
  | succ k ih =>
    exact ih.bind fun c => (hread _ c).bind fun pointer =>
      (htag pointer).bind fun _ => follows_pure _

theorem follows_resolve (p : Place) : Follows (Grown env.node) (resolve env p) :=
  follows_resolveAt env (follows_readCell env) (follows_tag env) p.base p.derefs

theorem follows_readCopy (p : Place) : Follows (Grown env.node) (readCopy env p) :=
  (follows_resolve env p).bind fun c => follows_readCell env p c

theorem follows_readMove (p : Place) : Follows (Grown env.node) (readMove env p) :=
  (follows_readCopy env p).bind fun n => (follows_resolve env p).bind fun c =>
    (follows_setCell c _).bind fun _ => follows_pure n

theorem follows_bind (p : Place) (n : Name) : Follows (Grown env.node) (Store.bind env p n) :=
  (follows_resolve env p).bind fun c => follows_setCell c _

theorem follows_writeFresh (p : Place) : Follows (Grown env.node) (writeFresh env p) := by
  refine (follows_lift _).bind_of_eq fun sort _ _ hl => (follows_resolve env p).bind fun c => ?_
  have hsort := Function.placeSort_cases (lift_eq_ok.mp hl).1
  exact (follows_declare hsort).bind fun n => (follows_setCell c _).bind fun _ => follows_pure n

theorem follows_ref (p : Place) : Follows (Grown env.node) (ref env p) := by
  unfold ref
  split
  · exact (follows_readCopy env _).bind fun n => follows_pure _
  · split
    · exact follows_error _
    · refine follows_get.bind fun s => ?_
      split
      · exact follows_pure _
      · exact (follows_declare (.inl rfl)).bind fun n => (follows_memory _).bind fun _ =>
          follows_pure _

/-! ## Values and statements -/

theorem follows_operand (x : Operand) : Follows (Grown env.node) (operand env x) := by
  cases x with
  | copy p =>
    exact (follows_readCopy env p).bind fun n => (follows_declaration n).bind fun _ =>
      follows_pure _
  | move p =>
    exact (follows_readMove env p).bind fun n => (follows_declaration n).bind fun _ =>
      follows_pure _
  | const v t => exact (follows_lift _).bind fun _ => follows_pure _
  | missing => exact follows_error _

theorem follows_rvalue (rv : Rvalue) : Follows (Grown env.node) (rvalue env rv) := by
  cases rv with
  | use x => exact follows_operand env x
  | binary op l r =>
    exact (follows_operand env l).bind fun _ => (follows_operand env r).bind fun _ =>
      follows_lift _
  | unary op x | cast x t => exact (follows_operand env x).bind fun _ => follows_lift _
  | ref p =>
    refine (follows_ref env p).bind fun ⟨n, isNew⟩ => ?_
    cases isNew with
    | false => exact follows_pure _
    | true => exact (follows_assertExpr _).bind fun _ => follows_pure _
  | missing => exact follows_error _

theorem follows_assertEqual (n : Name) (value : Expr) :
    Follows (Grown i) (assertEqual i n value) := by
  refine (follows_declaration n).bind fun d => ?_
  split
  · exact follows_error _
  · exact follows_assertExpr _

theorem follows_assign (p : Place) (rv : Rvalue) : Follows (Grown env.node) (assign env p rv) := by
  refine (follows_rvalue env rv).bind fun value => (follows_liftFault _).bind fun shared => ?_
  split
  · exact follows_bind env p _
  · exact (follows_writeFresh env p).bind fun n => follows_assertEqual n value

theorem follows_makeLive (base : Int) : Follows (Grown env.node) (makeLive env base) := by
  refine (follows_memory _).bind fun _ => ?_
  split
  · exact follows_error _
  · split
    · exact follows_pure _
    · exact (follows_writeFresh env _).bind fun _ => follows_pure _

theorem follows_statement (st : Statement) : Follows (Grown env.node) (statement env st) := by
  cases st with
  | assign p rv span => exact follows_assign { env with span } p rv
  | storageLive base => exact follows_makeLive env base
  | storageDead base => exact follows_memory _
  | nop => exact follows_pure _
  | missing => exact follows_error _

theorem follows_statements (sts : List Statement) :
    Follows (Grown env.node) (statements env sts) := by
  induction sts with
  | nil => exact follows_pure _
  | cons st sts ih => exact (follows_statement env st).bind fun _ => ih

theorem follows_operands (xs : List Operand) : Follows (Grown env.node) (operands env xs) := by
  induction xs with
  | nil => exact follows_pure _
  | cons x xs ih =>
    exact (follows_operand env x).bind fun _ => ih.bind fun _ => follows_pure _

theorem follows_passArguments (k : Nat) (args : List Expr) :
    Follows (Grown env.node) (passArguments env env.node k args) := by
  induction args generalizing k with
  | nil => exact follows_pure _
  | cons arg args ih =>
    exact (follows_writeFresh env _).bind fun n => (follows_assertEqual n arg).bind fun _ => ih _

/-- What is done to a copy of the memory shows in the graph alone. -/
theorem follows_onCopy {α : Type} {x : Action Store α} (hx : Follows (Grown i) x) :
    Follows (Grown i) (onCopy x) := by
  intro s
  have hs := hx s
  unfold onCopy
  split
  · next a s' hxs => rwa [hxs] at hs
  · next e s' hxs => rwa [hxs] at hs

end Store

/-! ## Growth of a machine -/

namespace Machine

open Action

variable {i : Int} {options : Options} {program : Program} {frame : Frame} {env : Env}

/-- The graph has grown at a node.  Only calls are counted here. -/
structure Grown (i : Int) (m m' : Machine) : Prop where
  store : Store.Grown i m.store m'.store
  frames : m'.stats.frames = m.stats.frames
  nodes : m'.stats.nodes = m.stats.nodes
  pruned : m'.stats.pruned = m.stats.pruned
  havoced : m.stats.havoced ≤ m'.stats.havoced
  inlined : m.stats.inlined ≤ m'.stats.inlined

instance (i : Int) : IsPreorder Machine (Grown i) where
  refl m := ⟨refl_of (Store.Grown i) m.store, rfl, rfl, rfl, Nat.le_refl _, Nat.le_refl _⟩
  trans _ _ _ h h' := ⟨trans_of (Store.Grown i) h.store h'.store, h'.frames.trans h.frames,
    h'.nodes.trans h.nodes, h'.pruned.trans h.pruned, h.havoced.trans h'.havoced,
    h.inlined.trans h'.inlined⟩

theorem follows_onStore {α : Type} {x : Action Store α} (hx : Follows (Store.Grown i) x) :
    Follows (Grown i) (onStore x) :=
  fun m => ⟨hx m.store, rfl, rfl, rfl, Nat.le_refl _, Nat.le_refl _⟩

theorem follows_countHavoc : Follows (Grown i) countHavoc :=
  fun m => ⟨refl_of (Store.Grown i) m.store, rfl, rfl, rfl, Nat.le_succ _, Nat.le_refl _⟩

theorem follows_countInline : Follows (Grown i) countInline :=
  fun m => ⟨refl_of (Store.Grown i) m.store, rfl, rfl, rfl, Nat.le_refl _, Nat.le_succ _⟩

theorem follows_goOn (block : Int) (guard : Option Expr) :
    Follows (Grown i) (goOn frame env block guard) :=
  fun m => refl_of (Grown i) m

theorem follows_inlineCall (callee : Function) (args : List Expr) (dest : Place) (next : Int) :
    Follows (Grown env.node) (inlineCall frame env callee args dest next) := by
  unfold inlineCall
  split
  · exact follows_error _
  · refine (follows_onStore (Store.follows_onCopy (Follows.within ?_ _))).bind fun _ =>
      follows_countInline.bind fun _ => follows_pure _
    exact Store.follows_passArguments
      { function := callee, depth := frame.depth + 1, node := env.node } 1 args

theorem follows_call (env : Env) (callee : String) (args : List Operand) (dest : Option Place)
    (next : Int) : Follows (Grown env.node) (call options program frame env callee args dest next) := by
  refine (follows_onStore (Store.follows_operands env args)).bind fun values => ?_
  split
  · exact follows_pure _
  · simp only
    split
    · exact follows_inlineCall _ _ _ _
    · exact follows_countHavoc.bind fun _ =>
        (follows_onStore (Store.follows_writeFresh env _)).bind fun _ =>
          (follows_goOn _ _).bind fun _ => follows_pure _

theorem follows_finishCall : Follows (Grown env.node) (finishCall frame env) := by
  unfold finishCall
  split
  · exact follows_pure _
  · next caller callers _ =>
    refine (follows_onStore ((Store.follows_readCopy env _).within _)).bind fun result =>
      (follows_onStore (Store.follows_onCopy ?_)).bind fun _ => follows_pure _
    exact (Store.follows_memory _).bind fun _ =>
      (Store.follows_writeFresh (outer env caller callers) _).bind fun n =>
        (Store.follows_declaration result).bind fun _ => Store.follows_assertEqual n _

theorem follows_terminator (t : Terminator) :
    Follows (Grown env.node) (terminator options program frame env t) := by
  cases t with
  | goto target => exact (follows_goOn _ _).bind fun _ => follows_pure _
  | switch x values targets span =>
    rw [terminator]
    split
    · exact follows_error _
    · exact (follows_onStore (Store.follows_operand { env with span } x)).bind fun discr =>
        follows_mapM (fun _ => follows_goOn _ _) _
  | assert x expected target span =>
    refine (follows_onStore (Store.follows_operand { env with span } x)).bind fun cond => ?_
    split
    · exact follows_error _
    · exact (follows_onStore (Store.follows_assertExpr _)).bind fun _ =>
        (follows_goOn _ _).bind fun _ => follows_pure _
  | call callee args dest next span => exact follows_call { env with span } callee args dest next
  | «return» => exact follows_finishCall
  | unreachable => exact follows_pure _
  | missing => exact follows_error _

/-- A block grows the graph at its node, also if it fails. -/
theorem follows_block {b : Block} : Follows (Grown env.node) (block options program frame env b) :=
  (follows_onStore (Store.follows_statements env b.statements)).bind fun _ => follows_terminator _

end Machine

/-! ## The frames that a block hands on -/

/-- The blocks of the same function at which a terminator may go on. -/
def Terminator.targets : Terminator → List Int
  | .goto target => [target]
  | .switch _ _ targets _ => targets
  | .assert _ _ target _ => [target]
  | .call _ _ (some _) next _ => [next]
  | _ => []

/-- The frame comes from another one by a terminator: it stays in the function, enters a function
of the program, or returns to a suspended caller. -/
structure Frame.Succeeds (options : Options) (program : Program) (frame : Frame) (node : Int)
    (f : Frame) : Prop where
  id : f.id = 0
  parent : f.parent = some node
  path : f.path = frame.path
  stack : (f.function = frame.function ∧ f.callers = frame.callers) ∨
    (f.function ∈ program.functions ∧ options.inlineCalls = true ∧
      (frame.depth : Int) < options.maxCallDepth ∧
      ∃ c, c.function = frame.function ∧ f.callers = c :: frame.callers) ∨
    ∃ c, f.function = c.function ∧ frame.callers = c :: f.callers

/-- A call in progress returns, or it is still in progress. -/
theorem Frame.Succeeds.callers_cases {options : Options} {program : Program} {frame f : Frame}
    {node : Int} {c : Caller} {cs : List Caller} (h : frame.Succeeds options program node f)
    (hcs : c :: cs <:+ frame.callers) :
    (frame.callers = c :: cs ∧ f.callers = cs) ∨ c :: cs <:+ f.callers := by
  rcases h.stack with ⟨-, heq⟩ | ⟨-, -, -, c', -, heq⟩ | ⟨c', -, heq⟩
  · exact .inr (heq ▸ hcs)
  · exact .inr (heq ▸ hcs.trans (List.suffix_cons c' _))
  · rw [heq] at hcs ⊢
    rcases List.suffix_cons_iff.mp hcs with hcons | hsuffix
    · exact .inl ⟨hcons.symm, (List.cons.inj hcons).2.symm⟩
    · exact .inr hsuffix

/-- The functions of a frame and of its callers belong to a list, and calls are followed on demand
only and not too deep. -/
structure Frame.Within (options : Options) (fs : List Function) (f : Frame) : Prop where
  function : f.function ∈ fs
  callers : ∀ c ∈ f.callers, c.function ∈ fs
  depth : (f.depth : Int) ≤ max 0 options.maxCallDepth
  inlined : f.callers ≠ [] → options.inlineCalls = true

theorem Frame.Within.succeeds {options : Options} {program : Program} {fs : List Function}
    {frame f : Frame} {node : Int} (h : frame.Within options fs)
    (hf : frame.Succeeds options program node f) (hp : ∀ g ∈ program.functions, g ∈ fs) :
    f.Within options fs := by
  have hdepth := h.depth
  unfold Frame.depth at hdepth
  rcases hf.stack with ⟨hfun, hc⟩ | ⟨hmem, hinline, hlt, c, hfun, hc⟩ | ⟨c, hfun, hc⟩
  · refine ⟨hfun ▸ h.function, hc ▸ h.callers, ?_, hc ▸ h.inlined⟩
    rw [Frame.depth, hc]
    exact hdepth
  · refine ⟨hp _ hmem, ?_, ?_, fun _ => hinline⟩
    · rw [hc, List.forall_mem_cons, hfun]
      exact ⟨h.function, h.callers⟩
    · unfold Frame.depth at hlt
      rw [Frame.depth, hc, List.length_cons]
      omega
  · have hcallers := h.callers
    rw [hc, List.forall_mem_cons] at hcallers
    refine ⟨hfun ▸ hcallers.1, hcallers.2, ?_, fun _ => h.inlined (by simp [hc])⟩
    rw [hc, List.length_cons] at hdepth
    rw [Frame.depth]
    omega

namespace Machine

variable {options : Options} {program : Program} {frame : Frame} {env : Env} {m m' : Machine}
  {fs : List Frame}

theorem bounds_of_followed {depth : Nat} {callee : String} {f : Function}
    (h : options.followed program depth callee = some f) :
    options.inlineCalls = true ∧ (depth : Int) < options.maxCallDepth := by
  unfold Options.followed at h
  split at h
  · next hc =>
    obtain ⟨hinline, hdepth⟩ := (Bool.and_eq_true _ _).mp hc
    exact ⟨hinline, of_decide_eq_true hdepth⟩
  · cases h

/-- The frames that a block hands on come from its frame.  There is one for each target, unless a call
is entered or left. -/
theorem block_succeeds {b : Block} (h : block options program frame env b m = (.ok fs, m')) :
    (∀ f ∈ fs, frame.Succeeds options program env.node f) ∧
      (fs.map Frame.block = b.terminator.targets ∨ ∃ f, fs = [f] ∧ f.callers ≠ frame.callers) := by
  have hfork : ∀ memory block guard, frame.Succeeds options program env.node
      (frame.fork memory block guard env.node) := fun _ _ _ => ⟨rfl, rfl, rfl, .inl ⟨rfl, rfl⟩⟩
  obtain ⟨s₁, -, ht⟩ := block_concludes h
  generalize b.terminator = t, m'.store = s' at ht
  cases ht with
  | goto | assert | skip => exact ⟨List.forall_mem_singleton.mpr (hfork _ _ _), .inl rfl⟩
  | @switch _ values targets _ discr _ hlen _ =>
    refine ⟨fun f hf => ?_, .inl ?_⟩
    · obtain ⟨tg, -, rfl⟩ := List.mem_map.mp hf
      exact hfork _ _ _
    · have hzip : (targets.zip (switchGuards discr values)).map Prod.fst = targets := by
        refine List.map_fst_zip ?_
        simp [switchGuards, hlen]
      rw [List.map_map]
      exact hzip
  | stop | finish | unreachable => exact ⟨by simp, .inl rfl⟩
  | enter _ hf _ _ =>
    obtain ⟨hinline, hdepth⟩ := bounds_of_followed hf
    refine ⟨List.forall_mem_singleton.mpr ⟨rfl, rfl, rfl, .inr (.inl ?_)⟩,
      .inr ⟨_, rfl, List.cons_ne_self _ _⟩⟩
    exact ⟨Options.mem_of_followed hf, hinline, hdepth, _, rfl, rfl⟩
  | resume hc =>
    refine ⟨List.forall_mem_singleton.mpr ⟨rfl, rfl, rfl, .inr (.inr ⟨_, rfl, hc⟩)⟩,
      .inr ⟨_, rfl, ?_⟩⟩
    rw [hc]
    exact (List.cons_ne_self _ _).symm

theorem length_le_of_block {b : Block}
    (h : block options program frame env b m = (.ok fs, m')) :
    fs.length ≤ max 1 b.terminator.targets.length := by
  rcases (block_succeeds h).2 with hmap | ⟨f, rfl, -⟩
  · rw [← hmap, List.length_map]
    exact Nat.le_max_right _ _
  · exact Nat.le_max_left _ _

end Machine
end NullPath
