import NullPath.Proofs.ScalarSimulation

/-!
# Runs of scalar blocks and models

This module carries the agreement of model and run through calls and returns, and so through whole
blocks, again in both ways.

* `Scalar.Matches`: a frame and a state of a run agree at all call depths.
* `Scalar.Matches.step`: blocks.
-/

namespace NullPath

namespace Scalar

variable {m m' : Model} {f : Function} {k : Nat} {env : Env} {s s' : Store}
  {memory : Memory} {σ τ : Locals} {p : Place} {g : Function} {next node : Int}
  {options : Options} {program : Program} {callers : List Caller} {calls : List Call}
  {args : List Expr} {cs : List Constant}

/-- A frame and a state of a run stand at the same block with the same values. -/
structure Matches (m : Model) (fr : Frame) (s : State) : Prop where
  function : s.function = fr.function
  block : s.block = fr.block
  stack : Stack m fr.function fr.callers fr.memory s.locals s.calls

theorem Matches.place_eq {fr : Frame} {st : State} (h : Matches m fr st) :
    st.place = (fr.location, fr.depth) := by
  rw [State.place, Frame.location, Frame.depth, h.function, h.block, h.stack.waiting.length_eq]

/-! ## Passing arguments -/

/-- The locals with the arguments of a call in a row of locals. -/
def Locals.pass (σ : Locals) : Nat → List Constant → Locals
  | _, [] => σ
  | k, c :: cs => (σ.set k (some c)).pass (k + 1) cs

theorem Locals.pass_apply (σ : Locals) (k : Nat) (cs : List Constant) (i : Int) :
    σ.pass k cs i =
      if (k : Int) ≤ i ∧ i < k + cs.length then cs[(i - k).toNat]? else σ i := by
  induction cs generalizing σ k with
  | nil =>
    rw [pass, if_neg]
    simp
  | cons c cs ih =>
    rw [pass, ih, set, List.length_cons]
    by_cases hi : i = k
    · subst hi
      rw [if_neg (by omega), if_pos rfl, if_pos (by omega)]
      simp
    · by_cases hk : (k : Int) ≤ i
      · have hindex : (i - k).toNat = (i - (k + 1 : Nat)).toNat + 1 := by omega
        rw [hindex, List.getElem?_cons_succ, if_neg hi]
        by_cases hlt : i < (k : Int) + (cs.length + 1 : Nat)
        · rw [if_pos (by omega), if_pos (by omega)]
        · rw [if_neg (by omega), if_neg (by omega)]
      · rw [if_neg (by omega), if_neg hi, if_neg (by omega)]

/-- Passing arguments gives the parameters their values. -/
theorem Stack.pass (h : Stack m f callers s.memory σ calls) (hat : At env f callers.length)
    (hs : s.Scoped)
    (hargs : ∀ e ∈ args, e.Sorted s.graph.scope ∧ e.DivisionFree)
    (hv : args.map (fun e => e.eval m) = cs.map .ok)
    (hp : Store.passArguments env env.node k args s = (.ok (), s')) :
    FitsLocals m env.node s s' f callers calls (· = σ.pass k cs) := by
  induction args generalizing m s σ k cs with
  | nil =>
    obtain rfl : cs = [] := by simpa using hv.symm
    cases hp
    exact h.unchanged hs rfl
  | cons e args ih =>
    obtain ⟨c, cs, rfl, he, hrest⟩ := List.map_eq_cons_iff.mp hv.symm
    rw [List.forall_mem_cons] at hargs
    obtain ⟨n, s₁, s₂, hw, heq, hp₂⟩ := Store.passArguments_cons_eq_ok.mp hp
    obtain ⟨a, hev, -⟩ := (hs.define_unfolds (D := True)
      (hargs.1.1.mono (Graph.scope_le_uses _ _)) (fun _ => hargs.1.2) hw heq).evolves
    have hargs' : ∀ e ∈ args, e.Sorted s₂.graph.scope ∧ e.DivisionFree :=
      fun e he => ⟨(hargs.2 e he).1.mono (hev.grows.scope_le _), (hargs.2 e he).2⟩
    obtain ⟨es, hev', -⟩ := (hev.scope.passArguments_unfolds (D := True) hargs' hp₂).evolves
    -- the remaining arguments are terms over names that were there before
    have hvs : ∀ m₁, s.Keeps (fun _ => True) m m₁ → args.map (fun e => e.eval m₁) = cs.map .ok := by
      intro m₁ hk
      rw [hrest]
      refine List.map_congr_left fun e he => ?_
      exact hk.eval_eq ((hargs.2 e he).1.mono (Graph.scope_le_uses _ _))
    refine (Fits.bind hat.node hev hev' (h.define hat hs rfl hargs.1.1 he.symm hw heq)
      fun m₁ τ hk _ hτ => ih hτ hev.scope hargs' (hvs m₁ hk) hp₂).congr fun τ => ⟨?_, ?_⟩
    · rintro rfl
      exact ⟨_, rfl, rfl⟩
    · rintro ⟨_, rfl, rfl⟩
      rfl

/-- Each parameter has the sort of its argument. -/
theorem placeSort_of_passArguments {i : Int} {j : Nat} {e : Expr}
    (hp : Store.passArguments env i k args s = (.ok (), s')) (he : args[j]? = some e) :
    env.function.placeSort ⟨k + j, 0⟩ = .ok e.sort := by
  induction args generalizing k s j with
  | nil => cases he
  | cons e₀ args ih =>
    obtain ⟨n, s₁, s₂, hw, heq, hp₂⟩ := Store.passArguments_cons_eq_ok.mp hp
    cases j with
    | zero =>
      cases he
      obtain ⟨-, -, hsort, -⟩ := Store.define_eq_ok hw heq
      simpa using hsort
    | succ j =>
      have hk : (k : Int) + (j + 1 : Nat) = (k + 1 : Nat) + j := by omega
      rw [hk]
      exact ih hp₂ he

theorem Stack.mono (h : Stack m f callers memory σ calls)
    (hσ : ∀ i c, σ i = some c → τ i = some c) : Stack m f callers memory τ calls := by
  refine ⟨h.scalar, h.addressable, h.shallow, ⟨h.agrees.addrs, fun i l n hl hn => ?_⟩, h.waiting⟩
  obtain ⟨c, hc, hv⟩ := h.agrees.values i l n hl hn
  exact ⟨c, hc, hσ i c hv⟩

/-- A callee has been entered, and nothing is bound in it yet. -/
theorem Stack.entered (h : Stack m f callers memory σ calls)
    (hlt : callers.length + 1 < 0x100000000) (hg : g.IsScalar ∧ g.Addressable)
    (hp : p.derefs = 0) (block next : Int) :
    Stack m g (⟨f, block, p, next⟩ :: callers) memory (fun _ => none)
      (⟨f, σ, p, next⟩ :: calls) := by
  refine ⟨hg.1, hg.2, fun x b hx => Nat.le_succ_of_le (h.shallow x b hx),
    ⟨h.agrees.addrs, fun i l n _ hn => ?_⟩,
    .cons rfl rfl rfl h.scalar h.addressable hp h.agrees h.waiting⟩
  have hle := h.shallow _ _ hn
  rw [List.length_cons, depth_slot hlt] at hle
  omega

/-- The arguments are the only locals of a callee that are bound. -/
theorem Enters.of_pass (h : Enters g cs τ) (i : Int) (c : Constant)
    (hc : Locals.pass (fun _ => none) 1 cs i = some c) : τ i = some c := by
  rw [Locals.pass_apply] at hc
  split at hc
  · next hi =>
    obtain ⟨l, sort, -, -, -, hτ⟩ := h.params _ c hc
    have hindex : ((i - (1 : Nat)).toNat : Int) + 1 = i := by omega
    rwa [hindex] at hτ
  · cases hc
theorem exists_local_of_placeSort {i : Int} {sort : ExprSort} (h : f.placeSort ⟨i, 0⟩ = .ok sort) :
    ∃ l, f.localVar? i = some l ∧ l.type.sort = .ok sort := by
  cases hl : f.localVar? i with
  | none =>
    rw [Function.placeSort, Function.placeType, hl] at h
    cases h
  | some l => exact ⟨l, rfl, by rw [← h, placeSort_local rfl hl]⟩

/-- A function can be entered with arguments of the right number and sorts. -/
theorem exists_enters (hg : g.IsScalar) (hcount : cs.length = g.argCount.toNat)
    (hsort : ∀ (j : Nat) c, cs[j]? = some c →
      c.HasSort c.sort ∧ g.placeSort ⟨(1 : Nat) + j, 0⟩ = .ok c.sort) : ∃ τ, Enters g cs τ := by
  obtain ⟨v, hv⟩ : ∃ v : Option Constant, ∀ l, g.localVar? 0 = some l →
      ∃ sort c, l.type.sort = .ok sort ∧ c.HasSort sort ∧ v = some c := by
    cases hl : g.localVar? 0 with
    | none => exact ⟨none, fun l h => nomatch h⟩
    | some l =>
      obtain ⟨sort, hs⟩ := exists_sort hg hl
      obtain ⟨c, hc⟩ := Constant.exists_hasSort (Ty.sort_cases hs)
      refine ⟨some c, fun l' hl' => ?_⟩
      cases hl'
      exact ⟨sort, c, hs, hc, rfl⟩
  refine ⟨(Locals.pass (fun _ => none) 1 cs).set 0 v, hcount, ?_, fun k c hc => ?_, fun i hi => ?_⟩
  · intro l hl
    exact hv l hl
  · have hindex : ((1 : Nat) : Int) + k = k + 1 := by omega
    obtain ⟨l, hl, hs⟩ := exists_local_of_placeSort (hsort k c hc).2
    have hk := lt_length_of_getElem? hc
    rw [hindex] at hl
    refine ⟨l, c.sort, hl, hs, (hsort k c hc).1, ?_⟩
    rw [Locals.set, if_neg (by omega), Locals.pass_apply, if_pos (by omega)]
    have hnat : ((k : Int) + 1 - (1 : Nat)).toNat = k := by omega
    rw [hnat, hc]
  · rw [Locals.set, if_neg (by omega), Locals.pass_apply, if_neg (by omega)]

/-- A callee is entered with its arguments. -/
theorem Stack.enter {block : Int} (h : Stack m f callers s.memory σ calls)
    (hat : At env g (callers.length + 1)) (hs : s.Scoped)
    (hm : m.Exact s.graph.scope) (hg : g.IsScalar ∧ g.Addressable)
    (hp : p.derefs = 0)
    (hargs : ∀ e ∈ args, e.Sorted s.graph.scope ∧ e.DivisionFree)
    (hv : args.map (fun e => e.eval m) = cs.map .ok) (hcount : args.length = g.argCount.toNat)
    (hpass : Store.passArguments env env.node 1 args s = (.ok (), s')) :
    FitsLocals m env.node s s' g (⟨f, block, p, next⟩ :: callers) (⟨f, σ, p, next⟩ :: calls)
      (Enters g cs) := by
  have hfit := (h.entered hat.lt hg hp block next).pass hat hs hargs hv hpass
  have hlength : args.length = cs.length := by
    have := congrArg List.length hv
    rwa [List.length_map, List.length_map] at this
  have hsorts : ∀ (j : Nat) c, cs[j]? = some c →
      c.HasSort c.sort ∧ g.placeSort ⟨(1 : Nat) + j, 0⟩ = .ok c.sort := by
    intro j c hc
    have hj : args[j]?.map (fun e => e.eval m) = some (.ok c) := by
      rw [← List.getElem?_map, hv, List.getElem?_map, hc]
      rfl
    obtain ⟨e, he, hec⟩ := Option.map_eq_some_iff.mp hj
    have hsort := (hargs e (List.mem_of_getElem? he)).1.hasSort hm.respects hec
    rw [hsort.sort_eq, ← hat.function]
    exact ⟨hsort, placeSort_of_passArguments hpass he⟩
  obtain ⟨τ, hτ⟩ := exists_enters hg.1 (by omega) hsorts
  refine ⟨fun τ hτ hr => ?_, fun hm hh y hy => ?_⟩
  · obtain ⟨m', y, hy, hk, hr', hst⟩ := hfit.forward _ rfl hr
    exact ⟨m', y, hy, hk, hr', hst.mono hτ.of_pass⟩
  · obtain ⟨_, rfl, hst⟩ := hfit.backward hm hh y hy
    exact ⟨τ, hτ, hst.mono hτ.of_pass⟩

/-! ## Terminators -/

section Terminators

variable {fr : Frame} {fs : List Frame} {span : Span} {T : State → Prop}

/-- The frame is handed on, its call depth fits its word, and the model makes its guard true. -/
def Leading (fs : List Frame) (m : Model) (f : Frame) : Prop :=
  f ∈ fs ∧ f.callers.length < 0x100000000 ∧ ∀ a, f.guard = some a → m.Satisfies a

/-- A stretch that ends with frames, which the run may go on with. -/
abbrev FitsFrames (m : Model) (i : Int) (s s' : Store) (fs : List Frame) (T : State → Prop) :
    Prop :=
  Fits m i s s' (Leading fs) (fun st => T st ∧ st.calls.length < 0x100000000) Matches

/-- The environment in which a frame executes its block. -/
def frameEnv (fr : Frame) (node : Int) (span : Span) : Env :=
  { function := fr.function, depth := fr.depth, node, span }

theorem at_frameEnv (hlt : fr.callers.length < 0x100000000) (hnode : 0 ≤ node) (span : Span) :
    At (frameEnv fr node span) fr.function fr.callers.length :=
  ⟨rfl, rfl, hlt, hnode⟩

/-- The only frame has no guard. -/
theorem FitsLocals.frame (f' : Frame) {V : Locals → Prop}
    (h : f'.callers.length < 0x100000000 →
      FitsLocals m node s s' f'.function f'.callers calls V)
    (hlen : calls.length = f'.callers.length) (hguard : f'.guard = none)
    (hmemory : f'.memory = s'.memory)
    (hT : ∀ st, T st ↔ ∃ τ, V τ ∧ st = ⟨f'.function, f'.block, τ, calls⟩) :
    FitsFrames m node s s' [f'] T := by
  refine ⟨?_, fun hm hh y hy => ?_⟩
  · rintro st ⟨hst, hlt⟩ hr
    obtain ⟨τ, hτ, rfl⟩ := (hT st).mp hst
    have hlt' : f'.callers.length < 0x100000000 := hlen.symm.trans_lt hlt
    obtain ⟨m', -, -, hk, hr', hstack⟩ := (h hlt').forward τ hτ hr
    rw [← hmemory] at hstack
    refine ⟨m', f', ⟨List.mem_singleton_self _, hlt', fun a ha => ?_⟩, hk, hr', rfl, rfl, hstack⟩
    rw [hguard] at ha
    cases ha
  · obtain ⟨hy, hlt, -⟩ := hy
    obtain rfl := List.mem_singleton.mp hy
    obtain ⟨τ, hτ, hstack⟩ := (h hlt).backward hm hh () trivial
    rw [← hmemory] at hstack
    exact ⟨_, ⟨(hT _).mpr ⟨τ, hτ, rfl⟩, hlen.trans_lt hlt⟩, rfl, rfl, hstack⟩

theorem FitsFrames.nil (hT : ∀ st, ¬T st) : FitsFrames m node s s' [] T :=
  ⟨fun st hst => absurd hst.1 (hT st), fun _ _ _ hy => nomatch hy.1⟩

theorem Waiting.head {caller : Caller} {call : Call}
    (h : Waiting m memory (caller :: callers) (call :: calls)) :
    call.function = caller.function ∧ call.dest = caller.dest ∧ call.next = caller.next ∧
      caller.dest.derefs = 0 := by
  cases h with
  | cons hf hd hn _ _ hp _ _ => exact ⟨hf, hd, hn, hp⟩

section

variable (h : Stack m fr.function fr.callers s.memory σ calls)
  (hlt : fr.callers.length < 0x100000000) (hnode : 0 ≤ node) (hs : s.Scoped)
  (hm : m.Exact s.graph.scope)
include h hlt hnode hs hm

/-- A return reads the result, drops the locals of the callee, and defines the destination by the
result. -/
theorem Stack.result {call : Call} {rest : List Call} (hcalls : calls = call :: rest)
    (hx : Machine.Concludes options program fr (frameEnv fr node span) s .return s' fs) :
    FitsFrames m node s s' fs (Leaves options program fr.function calls .return σ) := by
  subst hcalls
  cases hx with
  | finish hcallers =>
    have hw := h.waiting
    rw [hcallers] at hw
    cases hw
  | @resume caller callers n₀ n decl s₁ s₂ s₃ hcallers hread hw hd heq =>
    obtain ⟨⟨l, hl⟩, hn, rfl⟩ := readCopy_local h.agrees.addrs rfl hread
    obtain ⟨c, hc, hσ⟩ := h.agrees.values 0 l n₀ hl hn
    have hdepth : (frameEnv fr node span).depth = (callers.length + 1 : Nat) := by
      rw [frameEnv, Frame.depth, hcallers]
      rfl
    rw [hdepth] at hw
    rw [hcallers] at h hlt
    obtain ⟨hfun, hdest, hnext, hp⟩ := h.waiting.head
    have hdrop := Store.Evolves.drop (i := node) hs (callers.length + 1 : Nat)
    have hw₁ := (hdrop.scope.writeFresh hw).1
    have he := hw₁.sorted_expr hdrop.scope (hs.mentions n₀ (.value hn)) hd
    have hv : decl.expr.eval m = .ok c := by
      rw [Declaration.expr, (hw₁.scope.tidy n₀.index decl hd).1, Expr.eval, hc]
    have hst : Stack m caller.function callers
        (Store.mk s₁.graph (s₁.memory.drop (callers.length + 1 : Nat))).memory call.locals rest :=
      h.dropped hlt
    have hat : At (Machine.outer (frameEnv fr node span) caller callers) caller.function
        callers.length :=
      ⟨rfl, rfl, Nat.lt_of_succ_lt hlt, hnode⟩
    have hfit := hst.define hat hdrop.scope hp he hv hw heq
    obtain ⟨a, hev, -⟩ := (hdrop.scope.define_unfolds (D := True)
      (he.mono (Graph.scope_le_uses _ _)) (fun _ => trivial) hw heq).evolves
    obtain ⟨-, -, hsort, -⟩ := Store.define_eq_ok hw heq
    have hback := (hdrop.trans hev).back hs
    refine ((FitsLocals.frame (fr.resume s₃.memory caller callers node) (fun _ => hfit)
      hst.waiting.length_eq rfl rfl fun st => ⟨?_, ?_⟩).after hback.scope rfl).before hdrop.scope rfl
    · rintro (_ | _ | _ | _ | _ | ⟨⟨⟩, hσ', -⟩)
      obtain rfl := Option.mem_unique hσ hσ'
      exact ⟨_, rfl, by rw [hfun, hdest, hnext]; rfl⟩
    · rintro ⟨_, rfl, rfl⟩
      have hleaves : Leaves options program fr.function (call :: rest) .return σ _ :=
        .result rfl hσ (by rw [hfun, hdest, (he.hasSort hm.respects hv).sort_eq]; exact hsort)
      rw [hfun, hdest, hnext] at hleaves
      exact hleaves

/-- The exploration of a terminator and a run through it. -/
theorem Stack.leaves {t : Terminator} (ht : t.IsScalar)
    (hprog : ∀ g ∈ program.functions, g.IsScalar ∧ g.Addressable)
    (hx : Machine.Concludes options program fr (frameEnv fr node span) s t s' fs) :
    FitsFrames m node s s' fs (Leaves options program fr.function calls t σ) := by
  have hat := at_frameEnv hlt hnode
  have hlen := h.waiting.length_eq
  cases hx with
  | @goto target =>
    refine FitsLocals.frame (fr.fork s.memory target none node)
      (fun _ => h.unchanged hs rfl) hlen rfl rfl fun st => ⟨?_, ?_⟩
    · rintro ⟨⟩
      exact ⟨σ, rfl, rfl⟩
    · rintro ⟨_, rfl, rfl⟩
      exact .goto
  | @switch x values targets span' discr _ hlen' hd =>
    obtain ⟨c, σ', hc, hv, hg, h₁⟩ := h.operand (hat span') hs ht hd
    obtain ⟨hev, hsorted, -⟩ := hs.operand hd
    refine .of_graph hev.scope hg ?_ fun hm₁ f' hf' => ?_
    · rintro _ ⟨⟨⟩ | ⟨-, hc', htakes, htarget⟩, hlt'⟩ hm₁
      rw [hc] at hc'
      cases hc'
      obtain ⟨a, ha, hmem⟩ := exists_switchGuard hlen' htarget discr
      refine ⟨fr.fork _ _ (some a) node, ⟨List.mem_map.mpr ⟨(_, a), hmem, rfl⟩, hlt, ?_⟩, rfl, rfl,
        h₁⟩
      rintro _ ⟨⟩
      exact (satisfies_switchGuards hsorted hm₁ hv ha).mpr htakes
    · obtain ⟨hmem, -, hguard⟩ := hf'
      obtain ⟨⟨target, a⟩, hpair, rfl⟩ := List.mem_map.mp hmem
      obtain ⟨i, hi⟩ := List.mem_iff_getElem?.mp hpair
      rw [List.getElem?_zip_eq_some] at hi
      have htakes := (satisfies_switchGuards hsorted hm₁ hv hi.2).mp (hguard a rfl)
      exact ⟨_, ⟨.switch hlen' hc htakes hi.1, by rw [hlen]; exact hlt⟩, rfl, rfl, h₁⟩
  | @assert x expected target span' cond s₁ k hd hbool hk =>
    obtain ⟨c, σ', hc, hv, hg, h₁⟩ := h.operand (hat span') hs ht hd
    obtain ⟨hev, hsorted, -⟩ := hs.operand hd
    have hfit : FitsLocals m node s₁ (s₁.asserted node (.mkEq cond (.bool expected))) fr.function
        fr.callers calls fun τ => c = .ofBool expected ∧ τ = σ' := by
      refine ⟨?_, fun hm₁ hh _ _ => ⟨σ', ⟨?_, rfl⟩, h₁⟩⟩
      · rintro _ ⟨hexpected, rfl⟩ hr
        obtain ⟨hsort, htrue⟩ := satisfies_assert _ hsorted hr.exact hbool hv
        exact ⟨m, (), trivial, .refl, hr.asserted (hsort.mono (Graph.scope_le_uses _ _))
          (htrue.mpr hexpected) hnode, h₁⟩
      · have hm₁ : m.Exact s₁.graph.scope := hm₁
        exact (satisfies_assert _ hsorted hm₁ hbool hv).2.mp
          (Store.satisfies_of_asserted hnode hk hh)
    refine (FitsLocals.frame (fr.fork s₁.memory target none node) (fun _ => hfit) hlen rfl rfl
      fun st => ⟨?_, ?_⟩).before hev.scope hg
    · rintro (_ | _ | hc')
      rw [hc] at hc'
      cases hc'
      exact ⟨_, ⟨rfl, rfl⟩, rfl⟩
    · rintro ⟨_, ⟨rfl, rfl⟩, rfl⟩
      exact .assert hc
  | stop | unreachable => exact .nil fun st hst => nomatch hst
  | @enter callee args p next span' values g s₁ s₂ hvalues hfollow hcount hpass =>
    obtain ⟨cs, σ', hops, hvs, hg, h₁⟩ := h.operands (hat span') hs ht.1 hvalues
    obtain ⟨hev, hsorted⟩ := hs.operands hvalues
    obtain ⟨es, hev', -⟩ := (hev.scope.passArguments_unfolds (D := True) hsorted hpass).evolves
    have hcount' : values.length = g.argCount.toNat := by omega
    rw [← hg] at hm
    refine ((FitsLocals.frame (fr.enter s₂.memory g p next node) (fun hlt' => h₁.enter
      ⟨rfl, rfl, hlt', hnode⟩ hev.scope hm (hprog g (Options.mem_of_followed hfollow))
      (ht.2 p rfl) hsorted hvs hcount' hpass) (congrArg Nat.succ hlen) rfl rfl
      fun st => ⟨?_, ?_⟩).after (hev'.back hev.scope).scope rfl).before hev.scope hg
    · rintro (_ | _ | _ | ⟨-, hfollow', -⟩ | ⟨hops', hfollow', hτ⟩)
      · rw [hlen] at hfollow'
        cases hfollow'.symm.trans hfollow
      · rw [hlen] at hfollow'
        rw [hops] at hops'
        cases hops'
        obtain rfl := Option.mem_unique hfollow hfollow'
        exact ⟨_, hτ, rfl⟩
    · rintro ⟨τ, hτ, rfl⟩
      exact .enter hops (by rw [hlen]; exact hfollow) hτ
  | @skip callee args p next span' values n s₁ _ hvalues hfollow hw =>
    obtain ⟨cs, σ', hops, hvs, hg, h₁⟩ := h.operands (hat span') hs ht.1 hvalues
    obtain ⟨hev, -⟩ := hs.operands hvalues
    refine (FitsLocals.frame (fr.fork s'.memory next none node)
      (fun _ => h₁.fresh (hat span') hev.scope (ht.2 p rfl) hw) hlen rfl rfl
      fun st => ⟨?_, ?_⟩).before hev.scope hg
    · rintro (_ | _ | _ | ⟨hops', -, hsort, hc⟩ | ⟨-, hfollow', -⟩)
      · rw [hops] at hops'
        cases hops'
        exact ⟨_, ⟨_, _, hsort, hc, rfl⟩, rfl⟩
      · rw [hlen] at hfollow'
        cases hfollow'.symm.trans hfollow
    · rintro ⟨_, ⟨sort, c, hsort, hc, rfl⟩, rfl⟩
      exact .havoc hops (by rw [hlen]; exact hfollow) hsort hc
  | finish hnil =>
    obtain rfl := List.eq_nil_of_length_eq_zero (hlen.trans (by rw [hnil]; rfl))
    refine .nil fun st => ?_
    rintro (_ | _ | _ | _ | _ | ⟨⟨⟩⟩)
  | resume hcallers hread hw hd heq =>
    cases calls with
    | nil =>
      rw [hcallers] at hlen
      cases hlen
    | cons call rest => exact h.result hlt hnode hs hm rfl (.resume hcallers hread hw hd heq)

end

end Terminators

/-! ## Blocks -/

/-- The exploration of a block and a run through it: the run goes on with one of the frames that the
visit hands on. -/
theorem Matches.step {v : Visit} {i : Nat} {st : State} (hmt : Matches m v.frame st)
    (hv : v.Valid options program i) (hm : m.Exact v.entered.store.graph.scope)
    (hprog : ∀ g ∈ program.functions, g.IsScalar ∧ g.Addressable)
    (hlt : v.frame.callers.length < 0x100000000) :
    FitsFrames m i v.entered.store v.left.store v.next (Step options program st) := by
  obtain ⟨s₁, hs₁, ht⟩ := Machine.block_concludes hv.run
  have hst := hmt.stack
  have hmem := Function.block?_mem hv.block
  have hnode : (0 : Int) ≤ i := Int.natCast_nonneg i
  rw [← hv.memory] at hst
  obtain ⟨es, hev, -⟩ := hv.scope.statements hs₁
  obtain ⟨es', hev'⟩ := ht.evolves hev.scope
  refine (Fits.bind hnode hev hev' (hst.execAll (at_frameEnv hlt hnode {}) hv.scope hm
    (hst.scalar.statements _ hmem) hs₁) fun m' τ _ hm'
      (hτ : Stack m' v.frame.visit.function v.frame.visit.callers s₁.memory τ st.calls) =>
      Stack.leaves hτ hlt hnode hev.scope hm' (hst.scalar.terminators _ hmem) hprog ht).congr
      fun st' => ⟨?_, ?_⟩
  · rintro ⟨⟨hb, hsts, hleaves⟩, hlt'⟩
    rw [hmt.function, hmt.block, hv.block] at hb
    cases hb
    rw [hmt.function] at hsts hleaves
    exact ⟨_, hsts, hleaves, hlt'⟩
  · rintro ⟨τ, hsts, hleaves, hlt'⟩
    have hblock := hv.block
    replace hleaves : Leaves options program v.frame.function st.calls v.block.terminator τ st' :=
      hleaves
    rw [← hmt.function, ← hmt.block] at hblock
    rw [← hmt.function] at hsts hleaves
    exact ⟨.mk hblock hsts hleaves, hlt'⟩

end Scalar
end NullPath
