import NullPath.Proofs.DefiniteAssignment

/-!
# Explorations of code that assigns before it reads

The memory of a frame holds what has been assigned on the path to the block of the frame, and what
the suspended calls had assigned before they were suspended.  So an exploration fails only with errors
about unsupported constructs, also if calls are followed.  There are two exceptions: a callee that
returns without having assigned its result, and a statement that is excused.

* `Function.Sound`, `Program.CallsFit`: the conditions on the code.
* `Frame.Forgets`: the first exception.
* `Explorer.Unused.step_admitted`: how steps fail.
-/

namespace NullPath

open Action Store

/-! ## Frames -/

/-- The suspended calls find the locals that they have assigned in some slots. -/
inductive Awaits : List Caller → Set Slot → Prop
  | nil : Awaits [] ∅
  | cons {c : Caller} {cs : List Caller} {X : Set Slot} {D : Set Int} : Awaits cs X →
    c.dest.Settable False c.function D → (∀ i ∈ D, c.function.Has i) →
    c.function.Arrives c.next (c.dest.assigned D) →
    Awaits (c :: cs) (X ∪ Slot.of cs.length '' D)

theorem Awaits.depth_lt {cs : List Caller} {X : Set Slot} (h : Awaits cs X)
    (hlen : cs.length ≤ 0x100000000) : ∀ x ∈ X, x.depth < cs.length := by
  induction h with
  | nil => simp
  | @cons c cs X D _ _ _ _ ih =>
    rw [List.length_cons] at hlen ⊢
    rintro x (hx | ⟨i, -, rfl⟩)
    · have := ih (by omega) x hx
      omega
    · have hd : ((cs.length : Int) % 0x100000000).toNat = cs.length := by omega
      change ((cs.length : Int) % 0x100000000).toNat < cs.length + 1
      omega

/-- A frame stands at a block that a path leads to, and its memory holds what has been assigned on
this path and on those of the suspended calls. -/
def Frame.Assigned (frame : Frame) : Prop :=
  ∃ X D, Awaits frame.callers X ∧ frame.function.Arrives frame.block D ∧
    frame.memory.Holds (X ∪ Slot.of frame.depth '' D)

/-- On the paths of the functions, calls pass as many arguments as the called function has
parameters. -/
def Program.CallsFit (program : Program) (fs : List Function) : Prop :=
  ∀ f ∈ fs, ∀ k D b, f.Arrives k D → f.block? k = some b → ∀ callee args dest next span,
    b.terminator = .call callee args dest next span →
    ∀ g, program.function? callee = some g → (args.length : Int) = g.argCount

/-- The function can be executed: its locals can be told apart, and it reads what it has assigned,
apart from statements that are excused. -/
structure Function.Sound (C : Statement → Prop) (f : Function) : Prop where
  addressable : f.Addressable
  assigns : f.AssignsFirst C

namespace Machine

variable {options : Options} {program : Program} {frame : Frame} {env : Env} {m : Machine}
  {X : Set Slot} {D : Set Int} {C C' : Prop} {C₀ : Function → Statement → Prop} {next : Int}

/-- Execution stands in the innermost function of a frame. -/
structure At (frame : Frame) (env : Env) (X : Set Slot) : Prop where
  function : env.function = frame.function
  depth : env.depth = frame.depth
  awaits : Awaits frame.callers X
  bounded : frame.depth < 0x100000000
  addressable : frame.function.Addressable

theorem At.separates (h : At frame env X) : env.Separates X where
  addressable := h.function ▸ h.addressable
  nonneg := by
    rw [h.depth]
    omega
  bounded := by
    rw [h.depth]
    exact_mod_cast h.bounded
  others x hx := by
    have hlt := h.awaits.depth_lt h.bounded.le x hx
    have hdepth := h.depth
    unfold Frame.depth at hdepth
    omega

/-- The action hands on frames whose memories hold what has been assigned. -/
def Passes (C : Prop) (x : Action Machine (List Frame)) (m : Machine) : Prop :=
  Triple x m (fun fs _ => ∀ f ∈ fs, f.Assigned) fun failure _ => failure.Admitted C

namespace Passes

theorem bind {α : Type} {x : Action Store α} {f : α → Action Machine (List Frame)}
    {R : α → Store → Prop} (hC : C' → C) (hx : Ensures C' env X D x m.store R)
    (hf : ∀ a m', m'.store.Assigned env X D → R a m'.store → Passes C (f a) m') :
    Passes C (onStore x >>= f) m :=
  Triple.bind (Triple.onStore (hx.mono hC)) fun a m' _ h => hf a m' h.1 h.2

theorem single {x : Action Machine (List Frame)} {f : Frame} {m' : Machine}
    (h : x m = (.ok [f], m')) (hf : f.Assigned) : Passes C x m :=
  Triple.of_eq_ok h (List.forall_mem_singleton.mpr hf)

theorem error {err : Error} (h : err.isUnsupported = true) : Passes C (Action.error err) m :=
  Triple.error (.inl h)

end Passes

variable (hat : At frame env X) (hs : m.store.Assigned env X D)
include hat hs

/-- A frame that goes on in the same function. -/
theorem assigned_fork {block : Int} (harr : frame.function.Arrives block D) (guard : Option Expr) :
    (frame.fork m.store.memory block guard env.node).Assigned := by
  refine ⟨X, D, hat.awaits, harr, ?_⟩
  show m.store.memory.Holds (X ∪ Slot.of frame.depth '' D)
  rw [← hat.depth]
  exact hs.holds

theorem passes_inlineCall {callee : Function} {args : List Expr} {dest : Place}
    (hcallee : callee.Sound (C₀ callee)) (hargs : (args.length : Int) = callee.argCount)
    (hdest : dest.Settable False frame.function D)
    (harr : frame.function.Arrives next (dest.assigned D)) :
    Passes C (inlineCall frame env callee args dest next) m := by
  unfold inlineCall
  rw [if_neg (not_not_intro hargs)]
  have hwaits : Awaits (⟨frame.function, frame.block, dest, next⟩ :: frame.callers)
      (X ∪ Slot.of frame.callers.length '' D) :=
    .cons hat.awaits hdest (hat.function ▸ hs.has) harr
  have hinner : m.store.Assigned { function := callee, depth := frame.depth + 1, node := env.node }
      (X ∪ Slot.of frame.callers.length '' D) {i | 1 ≤ i ∧ i < (1 : Nat)} := by
    have hempty : {i : Int | 1 ≤ i ∧ i < (1 : Nat)} = ∅ := by
      ext i
      simp
    rw [hempty]
    refine ⟨?_, by simp⟩
    have hholds := hs.holds
    rw [hat.depth, Frame.depth] at hholds
    simpa using hholds
  have hpass := ensures_passArguments (C := C) env.node args hinner (Nat.le_refl 1)
    fun i h₁ h₂ => hcallee.assigns.params i h₁ (by omega)
  refine Triple.bind (Triple.mono (Triple.onStore (hpass.within _).onCopy) (fun _ _ h => h)
    fun _ _ h => h.elim fun _ h => h) fun r m₁ _ h₁ => ?_
  refine Passes.single rfl ⟨_, _, hwaits, .entry, h₁.1.1.holds.mono ?_⟩
  refine Set.union_subset_union_right _ ?_
  rintro x ⟨i, ⟨hi₁, hi₂⟩, rfl⟩
  have hle : i ≤ callee.argCount := hi₂
  exact ⟨i, ⟨hi₁, by omega⟩, rfl⟩

theorem passes_call {callee : String} {args : List Operand} {dest : Option Place}
    (hargs : ∀ x ∈ args, x.ReadsFrom False frame.function D)
    (hdest : ∀ p ∈ dest, p.Settable False frame.function D)
    (harr : ∀ p ∈ dest, frame.function.Arrives next (p.assigned D))
    (hcode : ∀ f ∈ program.functions, f.Sound (C₀ f))
    (hfit : ∀ g, program.function? callee = some g → (args.length : Int) = g.argCount) :
    Passes C (call options program frame env callee args dest next) m := by
  refine .bind False.elim (ensures_operands hs (hat.function ▸ hargs)) fun values m₁ h₁ hlen => ?_
  cases dest with
  | none => exact Triple.pure (by simp)
  | some p =>
    cases hf : (if options.inlineCalls && (frame.depth : Int) < options.maxCallDepth
        then program.function? callee else none) with
    | some f =>
      have hfollowed : options.followed program frame.depth callee = some f := hf
      have hfound : program.function? callee = some f := by
        split at hf
        · exact hf
        · cases hf
      refine passes_inlineCall hat h₁ (hcode f (Options.mem_of_followed hfollowed)) ?_
        (hdest p rfl) (harr p rfl)
      rw [hlen]
      exact hfit f hfound
    | none =>
      have hset : p.Settable False env.function D := by
        rw [hat.function]
        exact hdest p rfl
      refine Triple.bind_of_eq rfl (Passes.bind False.elim (ensures_writeFresh h₁ hset)
        fun n m₂ h₂ _ => ?_)
      exact Passes.single rfl (assigned_fork hat h₂ (harr p rfl) none)

theorem passes_finishCall (hresult : frame.function.Has 0) (hC : frame.callers ≠ [] → 0 ∈ D ∨ C) :
    Passes C (finishCall frame env) m := by
  unfold finishCall
  split
  · exact Triple.pure (by simp)
  · next caller callers hcallers =>
    have hread := (hC (by simp [hcallers])).imp_right fun hC => And.intro hC hresult
    rw [← hat.function] at hread
    refine .bind id ((ensures_readCopy hs hread).within _) fun result m₁ h₁ _ => ?_
    have hwaits := hat.awaits
    rw [hcallers] at hwaits
    -- the slots of the caller and of those before it survive
    cases hwaits with
    | @cons _ _ X' D' hwaits hdest hhas harr =>
      have hdrop : Assigned (outer env caller callers) X' D'
          { m₁.store with memory := m₁.store.memory.drop env.depth } := by
        refine ⟨Memory.Holds.drop (h₁.holds.mono Set.subset_union_left) ?_, hhas⟩
        exact hat.separates.others
      have hcopy : Ensures False (outer env caller callers) X' (caller.dest.assigned D') (do
          drop env.depth
          let name ← writeFresh (outer env caller callers) caller.dest
          assertEqual env.node name (← declaration result).expr)
          m₁.store := by
        refine Triple.bind_of_eq rfl ((ensures_writeFresh hdrop hdest).bind fun n s₂ h₂ _ => ?_)
        exact (ensures_declaration h₂).bind fun d s₃ h₃ _ => ensures_assertEqual h₃
      refine Triple.bind (Triple.mono (Triple.onStore hcopy.onCopy) (fun _ _ h => h)
        fun _ _ h => h.elim fun _ h => h.mono False.elim) fun r m₂ _ h₂ => ?_
      exact Passes.single rfl ⟨X', _, hwaits, harr, h₂.1.1.holds⟩

/-- A block of sound code hands on frames whose memories hold what has been assigned. -/
theorem passes_block {b : Block} (harr : frame.function.Arrives frame.block D)
    (hf : frame.function.AssignsFirst (C₀ frame.function))
    (hb : frame.function.block? frame.block = some b)
    (hcode : ∀ f ∈ program.functions, f.Sound (C₀ f))
    (hfit : ∀ callee args dest next span, b.terminator = .call callee args dest next span →
      ∀ g, program.function? callee = some g → (args.length : Int) = g.argCount)
    (hC₀ : (∃ st ∈ b.statements, C₀ frame.function st) → C)
    (hC : b.terminator = .return → frame.callers ≠ [] → 0 ∈ assignedBy D b.statements ∨ C) :
    Passes C (block options program frame env b) m := by
  obtain ⟨b', hb', hsts, hterm⟩ := hf.blocks _ _ harr
  obtain rfl := Option.mem_unique hb hb'
  have hnext : ∀ t ∈ b.terminator.targets, frame.function.Arrives t
      (b.terminator.assigned (assignedBy D b.statements)) := fun t ht => .step harr hb ht
  refine .bind hC₀ (ensures_statements hs hat.separates (hat.function ▸ hsts)) fun _ m₁ h₁ _ => ?_
  cases hkind : b.terminator with
  | goto target =>
    rw [hkind] at hnext
    exact Passes.single rfl (assigned_fork hat h₁ (hnext target List.mem_cons_self) none)
  | switch x values targets span =>
    rw [hkind] at hnext hterm
    rw [terminator, if_neg (not_not_intro hterm.1)]
    have hx : Ensures False { env with span } X (assignedBy D b.statements)
        (operand { env with span } x) m₁.store :=
      ensures_operand { h₁ with } (hat.function ▸ hterm.2)
    refine .bind False.elim hx fun discr m₂ h₂ _ => ?_
    refine Triple.of_eq_ok (mapM_goOn frame env _ m₂) fun f hf => ?_
    obtain ⟨tg, htg, rfl⟩ := List.mem_map.mp hf
    exact assigned_fork hat { h₂ with } (hnext _ (List.of_mem_zip htg).1) _
  | assert x expected target span =>
    rw [hkind] at hnext hterm
    have hx : Ensures False { env with span } X (assignedBy D b.statements)
        (operand { env with span } x) m₁.store :=
      ensures_operand { h₁ with } (hat.function ▸ hterm)
    refine .bind False.elim hx fun cond m₂ h₂ _ => ?_
    split
    · exact .error rfl
    · refine .bind False.elim (ensures_onGraph h₂) fun _ m₃ h₃ _ => ?_
      exact Passes.single rfl
        (assigned_fork hat { h₃ with } (hnext target List.mem_cons_self) none)
  | call callee args dest next span =>
    rw [hkind] at hnext hterm
    have hat' : At frame { env with span } X := { hat with }
    refine passes_call hat' { h₁ with } hterm.1 hterm.2 ?_ hcode (hfit _ _ _ _ _ hkind)
    rintro p rfl
    exact hnext next List.mem_cons_self
  | «return» => exact passes_finishCall hat h₁ hf.result (hC hkind)
  | unreachable => exact Triple.pure (by simp)
  | missing => exact .error rfl

end Machine

/-! ## Explorations -/

/-- The frame is inside of a call and returns without having assigned the result on some path. -/
def Frame.Forgets (frame : Frame) : Prop :=
  frame.callers ≠ [] ∧ ∃ D b, frame.function.Arrives frame.block D ∧
    frame.function.block? frame.block = some b ∧ b.terminator = .return ∧
    0 ∉ assignedBy D b.statements

namespace Explorer

variable {e : Explorer} {s : Store} {f : Function} {options : Options} {program : Program}
  {fs : List Function} {C : Function → Statement → Prop}

theorem ensures_bindParameters {count k : Nat}
    (hs : s.Assigned { function := f } ∅ {i | 1 ≤ i ∧ i < k}) (hk : 1 ≤ k)
    (hparams : ∀ i : Int, 1 ≤ i → i < k + count → f.Has i) :
    Ensures False { function := f } ∅ {i | 1 ≤ i ∧ i < k + count} (bindParameters f count k) s := by
  induction count generalizing s k with
  | zero =>
    refine .pure ?_ trivial
    simpa using hs
  | succ count ih =>
    have hsum : (k : Int) + (count + 1 : Nat) = (k + 1 : Nat) + count := by omega
    rw [hsum] at hparams ⊢
    obtain ⟨l, hl⟩ := hparams k (by omega) (by omega)
    unfold bindParameters
    rw [hl]
    refine ((Ensures.lift (R := fun _ _ => True) hs (fun _ _ => trivial) fun err =>
      Ty.isUnsupported_of_sort).within _).bind fun sort s₁ h₁ _ => ?_
    have hdeclare : Ensures False { function := f } ∅ {i | 1 ≤ i ∧ i < k}
        (declare sort (some ⟨f.name, k, parameterLabel l k⟩)) s₁ :=
      .of_eq_ok rfl (h₁.of_memory rfl) trivial
    refine hdeclare.bind fun n s₂ h₂ _ => ?_
    refine (ensures_bind h₂ (.of_has ⟨l, hl⟩)).bind fun _ s₃ h₃ _ => ?_
    refine ih (h₃.mono ?_) (by omega) hparams
    rintro i ⟨hi₁, hi₂⟩
    by_cases hik : i = k
    · exact .inl hik
    · exact .inr ⟨hi₁, by omega⟩

/-- At the entry the parameters hold values. -/
theorem ensures_enterFunction (hf : f.AssignsFirst (C f)) :
    Ensures False { function := f } ∅ {i | 1 ≤ i ∧ i ≤ f.argCount} (enterFunction f) {} := by
  have hempty : Assigned { function := f } ∅ {i | 1 ≤ i ∧ i < (1 : Nat)} {} := by
    refine ⟨⟨by simp, fun c b hb => ?_⟩, by simp⟩
    cases c <;> cases hb
  have hrest : ∀ s : Store, s.Assigned { function := f } ∅ {i | 1 ≤ i ∧ i < (1 : Nat)} →
      Ensures False { function := f } ∅ {i | 1 ≤ i ∧ i ≤ f.argCount}
        (bindParameters f f.argCount.toNat 1) s := by
    intro s hs
    refine Triple.mono (ensures_bindParameters hs (Nat.le_refl 1) fun i h₁ h₂ =>
      hf.params i h₁ (by omega)) (fun _ _ h => ⟨h.1.mono ?_, trivial⟩) fun _ _ h => h
    rintro i ⟨hi₁, hi₂⟩
    exact ⟨hi₁, by omega⟩
  obtain ⟨l, hl⟩ := hf.result
  obtain ⟨b, hb, -, -⟩ := hf.blocks _ _ .entry
  unfold enterFunction
  split
  · next hnil =>
    rw [Function.localVar?, hnil] at hl
    cases hl
  · next result rest hlocals =>
    split
    · next hblocks =>
      have hmem := Function.block?_mem hb
      rw [List.isEmpty_iff.mp hblocks] at hmem
      cases hmem
    · split
      · refine ((ensures_writeFresh hempty (.of_has ⟨l, hl⟩)).within _).bind fun _ s₁ h₁ _ =>
          hrest s₁ (h₁.mono ?_)
        exact Set.subset_insert 0 _
      · exact hrest _ hempty

section
variable (hp : ∀ f ∈ program.functions, f ∈ fs) (hcode : ∀ f ∈ fs, f.Sound (C f))
  (hfit : program.CallsFit fs)
include hp hcode hfit

/-- Executing the block of a frame whose memory holds what has been assigned. -/
theorem passes_visit {frame : Frame} {b : Block} {g : Graph} {i : Int} {stats : Stats}
    (hdepth : frame.depth < 0x100000000) (hwithin : frame.Within options fs) (hf : frame.Assigned)
    (hb : frame.function.block? frame.block = some b) :
    Machine.Passes (frame.Forgets ∨ ∃ st ∈ b.statements, C frame.function st)
      (Machine.block options program frame.visit
        { function := frame.function, depth := frame.depth, node := i } b)
      { store := ⟨g, frame.memory⟩, stats } := by
  obtain ⟨X, D, hwaits, harr, hholds⟩ := hf
  have hsound := hcode _ hwithin.function
  have hat : Machine.At frame.visit
      { function := frame.function, depth := frame.depth, node := i } X :=
    ⟨rfl, rfl, hwaits, hdepth, hsound.addressable⟩
  refine Machine.passes_block hat ⟨hholds, hsound.assigns.has harr⟩ harr hsound.assigns hb
    (fun f hf => hcode f (hp f hf)) (hfit _ hwithin.function _ D b harr hb) .inr ?_
  intro hret hcallers
  by_cases h0 : (0 : Int) ∈ assignedBy D b.statements
  · exact .inl h0
  · exact .inr (.inl ⟨hcallers, D, b, harr, hb, hret, h0⟩)

theorem keeps_assigned :
    Keeps options program (fun f => f.depth < 0x100000000) (fun _ => True)
      fun _ f => f.Within options fs ∧ f.Assigned where
  graph_of_decls _ _ _ _ := trivial
  frame_of_decls _ _ _ _ hf := hf
  of_unnumbered g f f' heq hf := by
    have hf' : f.unnumbered.Within options fs ∧ f.unnumbered.Assigned := ⟨{ hf.1 with }, hf.2⟩
    rw [heq] at hf'
    exact ⟨{ hf'.1 with }, hf'.2⟩
  block g i frame b stats result m hdepth _ hf _ hb hrun := by
    refine ⟨trivial, fun f hf => hf, ?_⟩
    rintro next rfl f hmem
    have hvisit : frame.visit.Within options fs := { hf.1 with }
    exact ⟨hvisit.succeeds ((Machine.block_succeeds hrun).1 f hmem) hp,
      (passes_visit hp hcode hfit hdepth hf.1 hf.2 hb).ok _ _ hrun f hmem⟩

end

theorem starts_assigned (hentry : e.entry ∈ fs) (hf : e.entry.AssignsFirst (C e.entry)) :
    e.Starts (fun _ => True) fun _ f => f.Within e.options fs ∧ f.Assigned where
  entered s hs := by
    have hassigned := ((ensures_enterFunction hf).ok _ _ hs).1
    refine ⟨trivial, ⟨hentry, by simp, by simp [Frame.depth], by simp⟩, ∅, _, .nil, .entry, ?_⟩
    exact hassigned.holds
  refused _ _ _ := trivial

/-- A step of an exploration of sound code fails with a fault, with an error about an unsupported
construct, because a callee returns without having assigned its result, or in a block with an
excused statement. -/
theorem Unused.step_admitted (he : e.Unused) (hcode : ∀ f ∈ e.functions, f.Sound (C f))
    (hfit : e.program.CallsFit e.functions) {n : Nat}
    (hdepth : ∀ f ∈ e.framesOf (n + 1), f.depth < 0x100000000) {f? : Option Frame}
    {failure : Failure} (hstep : (e.after n).step.1 = .failed f? failure) :
    failure.Admitted (∃ frame, f? = some frame ∧ frame.Within e.options e.functions ∧
      (frame.Forgets ∨ ∃ b, frame.function.block? frame.block = some b ∧
        ∃ st ∈ b.statements, C frame.function st)) := by
  have hentry : e.entry ∈ e.functions := List.mem_cons_self
  have hp : ∀ f ∈ e.program.functions, f ∈ e.functions := fun f => List.mem_cons_of_mem e.entry
  have hf := (hcode _ hentry).assigns
  rcases he.step_ends n with ⟨rfl, failure', s, hs, -, hstep'⟩ | hends
  · cases hstep'.symm.trans hstep
    exact ((ensures_enterFunction hf).failed _ _ hs).mono False.elim
  · rw [framesOf_succ, List.forall_mem_append] at hdepth
    obtain ⟨hbefore, hnow⟩ := hdepth
    have hheld := (keeps_assigned hp hcode hfit).launched he (starts_assigned hentry hf) n hbefore
    have hsame := he.sameTask_launched n
    generalize (e.after n).chosen? = chosen at hends hnow
    rw [hstep] at hends
    generalize houtcome : Outcome.failed f? failure = outcome at hends
    cases hends with
    | finished => cases houtcome
    | @outside frame hmem hnone =>
      obtain ⟨hwithin, X, D, -, harr, -⟩ := hheld.waiting frame hmem
      obtain ⟨b, hb, -⟩ := (hcode _ hwithin.function).assigns.blocks _ _ harr
      cases hb.symm.trans hnone
    | @executed frame b g root result m hmem hx hopen =>
      obtain ⟨hwithin, hassigned⟩ := hheld.waiting frame hmem
      have hrun := hx.run
      rw [hsame.options, hsame.program] at hrun
      rcases result with (err | fault) | next
      · cases houtcome
        rcases (passes_visit hp hcode hfit (hnow frame List.mem_cons_self) hwithin hassigned
          hx.block).failed _ _ hrun with hun | ⟨hor, err', heq, hcause⟩
        · exact .inl hun
        · cases heq
          exact .inr ⟨⟨_, rfl, { hwithin with }, hor.imp_right fun h => ⟨b, hx.block, h⟩⟩, _, rfl,
            hcause⟩
      · cases houtcome
        exact .inl trivial
      · cases houtcome

end Explorer
end NullPath
