import NullPath.Proofs.Scalar

/-!
# Runs of scalar code and models

While scalar code is explored, every local that is bound holds a name.  A model gives this name a
value, and a run gives the local a value.  A frame stands inside a stack of suspended calls, and a
run inside a stack of waiting calls; all of them keep their locals in one memory, each at its own
call depth.  If model and run agree at all depths before a statement, they can be made to agree
after it, in two ways.  A run determines the values of the new names, and the assertions are true
for them.  And if a model makes the assertions true, a run can choose what is left open as the
model says.

* `Scalar.Agrees`, `Scalar.Stack`: the bound locals have the values that the model gives their
  names, in one call and in all calls that wait.
* `Scalar.Fits`: a stretch of the exploration and a stretch of a run fit each other, in both ways.
* `Scalar.Stack.operand`, `Scalar.Stack.rvalue`: values are computed alike.
* `Scalar.Stack.exec`, `Scalar.Stack.execAll`: statements.
-/

namespace NullPath

namespace Scalar

variable {m m' : Model} {f : Function} {d d' : Nat} {env : Env} {s s' s₁ s₂ : Store}
  {memory memory' : Memory} {σ σ' : Locals} {i : Int} {l : LocalVar} {n : Name} {p : Place}
  {e : Expr} {c : Constant} {callers : List Caller} {calls : List Call}

/-- The environment of code of a function at a call depth, which fits its word. -/
structure At (env : Env) (f : Function) (d : Nat) : Prop where
  function : env.function = f
  depth : env.depth = d
  lt : d < 0x100000000
  node : 0 ≤ env.node

theorem At.span (hat : At env f d) (span : Span) : At { env with span } f d :=
  ⟨hat.function, hat.depth, hat.lt, hat.node⟩

/-- The bound locals of a call have the values that the model gives their names. -/
structure Agrees (m : Model) (f : Function) (d : Nat) (memory : Memory) (σ : Locals) : Prop where
  addrs : ∀ x, memory.addrs.get? x = none
  values : ∀ i l n, f.localVar? i = some l → memory.locals.get? (.of d i) = some ⟨n, false⟩ →
    ∃ c, m.get? n = some c ∧ σ i = some c

/-- The slots of other call depths hold what they held. -/
def SameElsewhere (d : Nat) (memory memory' : Memory) : Prop :=
  ∀ x : Slot, x.depth ≠ d → memory'.locals.get? x = memory.locals.get? x

theorem depth_slot {i : Int} (hd : d < 0x100000000) : (Slot.of d i).depth = d := by
  rw [Slot.of, Int.emod_eq_of_lt (by omega) (by omega)]
  rfl

namespace SameElsewhere

theorem set {b : Binding} (hd : d < 0x100000000) :
    SameElsewhere d memory (memory.set (.slot (.of d i)) b) := by
  intro x hx
  rw [Memory.set, Assoc.get?_insert, if_neg]
  rintro rfl
  exact hx (depth_slot hd)

theorem unbind (hd : d < 0x100000000) : SameElsewhere d memory (memory.unbind (.of d i)) := by
  intro x hx
  rw [Memory.unbind, Assoc.get?_erase, if_neg]
  rintro rfl
  exact hx (depth_slot hd)

end SameElsewhere

namespace Agrees

/-- A change at another call depth does not show. -/
theorem elsewhere (h : Agrees m f d' memory σ) (hne : d' ≠ d) (hd' : d' < 0x100000000)
    (hsame : SameElsewhere d memory memory') (ha : ∀ x, memory'.addrs.get? x = none) :
    Agrees m f d' memory' σ := by
  refine ⟨ha, fun i l n hl hn => h.values i l n hl ?_⟩
  rw [← hsame (.of d' i) (by rw [depth_slot hd']; exact hne)]
  exact hn

/-- Values of names that are not in the memory do not show. -/
theorem keeps (h : Agrees m f d s.memory σ) (hs : s.Scoped)
    (hk : s.Keeps (fun _ => True) m m') : Agrees m' f d s.memory σ := by
  refine ⟨h.addrs, fun i l n hl hn => ?_⟩
  obtain ⟨c, hc, hσ⟩ := h.values i l n hl hn
  exact ⟨c, by rw [hk n (hs.mentions n (.value hn)), hc], hσ⟩

/-- Binding a local anew. -/
theorem set (h : Agrees m f d memory σ) (hf : f.Addressable) (hd : d < 0x100000000)
    (hl : f.localVar? i = some l) {b : Binding} {v : Option Constant}
    (hv : b.moved = false → ∃ c, m.get? b.name = some c ∧ v = some c) :
    Agrees m f d (memory.set (.slot (.of d i)) b) (σ.set i v) := by
  refine ⟨h.addrs, fun j l' n hl' hn => ?_⟩
  have hslot := hf.slot_eq_iff hl' hl (d := d) (by omega) (by omega)
  rw [Memory.set, Assoc.get?_insert] at hn
  rw [Locals.set]
  by_cases hj : j = i
  · rw [if_pos (hslot.mpr hj), Option.some.injEq] at hn
    obtain ⟨c, hc, rfl⟩ := hv (by rw [hn])
    rw [hn] at hc
    exact ⟨c, hc, if_pos hj⟩
  · rw [if_neg fun heq => hj (hslot.mp heq)] at hn
    rw [if_neg hj]
    exact h.values j l' n hl' hn

/-- Ending the storage of a local. -/
theorem unbind (h : Agrees m f d memory σ) (v : Option Constant) :
    Agrees m f d (memory.unbind (.of d i)) (σ.set i v) := by
  refine ⟨fun x => ?_, fun j l' n hl' hn => ?_⟩
  · rw [Memory.unbind, Assoc.get?_erase, h.addrs]
    exact ite_self none
  · obtain ⟨hne, hn⟩ := Assoc.get?_erase_eq_some.mp hn
    rw [Locals.set, if_neg fun heq => hne (by rw [heq])]
    exact h.values j l' n hl' hn

end Agrees

/-! ## Stacks of calls -/

/-- The waiting calls of a run are the suspended calls of a frame, and the bound locals of each
have the values that the model gives their names. -/
inductive Waiting (m : Model) (memory : Memory) : List Caller → List Call → Prop
  | nil : Waiting m memory [] []
  | cons {caller : Caller} {call : Call} {callers : List Caller} {calls : List Call} :
    call.function = caller.function → call.dest = caller.dest → call.next = caller.next →
      caller.function.IsScalar → caller.function.Addressable → caller.dest.derefs = 0 →
      Agrees m caller.function callers.length memory call.locals → Waiting m memory callers calls →
      Waiting m memory (caller :: callers) (call :: calls)

namespace Waiting

theorem length_eq (h : Waiting m memory callers calls) : calls.length = callers.length := by
  induction h with
  | nil => rfl
  | cons _ _ _ _ _ _ _ _ ih => rw [List.length_cons, List.length_cons, ih]

/-- Waiting calls do not see what happens at a greater call depth. -/
theorem elsewhere (h : Waiting m memory callers calls) (hd : callers.length ≤ d)
    (hlt : d < 0x100000000) (hsame : SameElsewhere d memory memory')
    (ha : ∀ x, memory'.addrs.get? x = none) : Waiting m memory' callers calls := by
  induction h with
  | nil => exact .nil
  | cons hf hdest hnext hs hadd hp hag _ ih =>
    rw [List.length_cons] at hd
    exact .cons hf hdest hnext hs hadd hp (hag.elsewhere (by omega) (by omega) hsame ha)
      (ih (by omega))

theorem keeps (h : Waiting m s.memory callers calls) (hs : s.Scoped)
    (hk : s.Keeps (fun _ => True) m m') : Waiting m' s.memory callers calls := by
  induction h with
  | nil => exact .nil
  | cons hf hdest hnext hsc hadd hp hag _ ih =>
    exact .cons hf hdest hnext hsc hadd hp (hag.keeps hs hk) ih

end Waiting

/-- The locals of a function and of its waiting calls agree with a memory in which nothing deeper
is bound. -/
structure Stack (m : Model) (f : Function) (callers : List Caller) (memory : Memory) (σ : Locals)
    (calls : List Call) : Prop where
  scalar : f.IsScalar
  addressable : f.Addressable
  shallow : ∀ x b, memory.locals.get? x = some b → x.depth ≤ callers.length
  agrees : Agrees m f callers.length memory σ
  waiting : Waiting m memory callers calls

namespace Stack

theorem keeps (h : Stack m f callers s.memory σ calls) (hs : s.Scoped)
    (hk : s.Keeps (fun _ => True) m m') : Stack m' f callers s.memory σ calls :=
  ⟨h.scalar, h.addressable, h.shallow, h.agrees.keeps hs hk, h.waiting.keeps hs hk⟩

/-- The innermost call changes its own locals only. -/
theorem changed (h : Stack m f callers memory σ calls) (hlt : callers.length < 0x100000000)
    (hag : Agrees m f callers.length memory' σ')
    (hsame : SameElsewhere callers.length memory memory') :
    Stack m f callers memory' σ' calls := by
  refine ⟨h.scalar, h.addressable, fun x b hx => ?_, hag,
    h.waiting.elsewhere (Nat.le_refl _) hlt hsame hag.addrs⟩
  by_cases hd : x.depth = callers.length
  · exact Nat.le_of_eq hd
  · rw [hsame x hd] at hx
    exact h.shallow x b hx

/-- The locals of a callee are gone when it returns. -/
theorem dropped {caller : Caller} {call : Call}
    (h : Stack m f (caller :: callers) memory σ (call :: calls))
    (hlt : callers.length + 1 < 0x100000000) :
    Stack m caller.function callers (memory.drop (callers.length + 1 : Nat)) call.locals calls := by
  have hsame : SameElsewhere (callers.length + 1) memory
      (memory.drop (callers.length + 1 : Nat)) := by
    intro x hx
    have hkeep : ((x.depth : Int) != (callers.length + 1 : Nat)) = true :=
      bne_iff_ne.mpr fun heq => hx (by omega)
    rw [Memory.drop, Assoc.get?_filterKeys, if_pos hkeep]
  have ha : ∀ x, (memory.drop (callers.length + 1 : Nat)).addrs.get? x = none := by
    intro x
    rw [Memory.drop, Assoc.get?_filterKeys, h.agrees.addrs]
    exact ite_self none
  cases h.waiting with
  | cons _ _ _ hs hadd _ hag hw =>
    refine ⟨hs, hadd, fun x b hx => ?_, hag.elsewhere (by omega) (by omega) hsame ha,
      hw.elsewhere (by omega) hlt hsame ha⟩
    obtain ⟨hne, hx⟩ := Assoc.get?_filterKeys_eq_some.mp hx
    have hle := h.shallow x b hx
    rw [List.length_cons] at hle
    have hne' : (x.depth : Int) ≠ (callers.length + 1 : Nat) := by simpa using hne
    omega

/-- A local of the innermost call is bound anew. -/
theorem set (h : Stack m f callers memory σ calls) (hlt : callers.length < 0x100000000)
    (hl : f.localVar? i = some l) {b : Binding} {v : Option Constant}
    (hv : b.moved = false → ∃ c, m.get? b.name = some c ∧ v = some c) :
    Stack m f callers (memory.set (.slot (.of callers.length i)) b) (σ.set i v) calls :=
  h.changed hlt (h.agrees.set h.addressable hlt hl hv) (.set hlt)

theorem unbind (h : Stack m f callers memory σ calls) (hlt : callers.length < 0x100000000)
    (i : Int) (v : Option Constant) :
    Stack m f callers (memory.unbind (.of callers.length i)) (σ.set i v) calls :=
  h.changed hlt (h.agrees.unbind v) (.unbind hlt)

end Stack

/-! ## Locals in the memory -/

section
variable (ha : ∀ x, s.memory.addrs.get? x = none) (hp : p.derefs = 0)
include ha hp

/-- The cell of a local whose address was not taken is its slot. -/
theorem resolve_local {cell : Cell} (h : Store.resolve env p s = (.ok cell, s')) :
    (∃ l, env.function.localVar? p.base = some l) ∧ cell = .slot (.of env.depth p.base) ∧
      s' = s := by
  rw [Store.resolve, hp] at h
  obtain ⟨hl, rfl, rfl⟩ := Store.resolveAt_zero_eq_ok.mp h
  exact ⟨hl, by rw [Memory.cellOf, ha], rfl⟩

theorem readCopy_local (h : Store.readCopy env p s = (.ok n, s')) :
    (∃ l, env.function.localVar? p.base = some l) ∧
      s.memory.locals.get? (.of env.depth p.base) = some ⟨n, false⟩ ∧ s' = s := by
  obtain ⟨cell, s₁, hc, hr⟩ := Store.readCopy_eq_ok.mp h
  obtain ⟨hl, rfl, rfl⟩ := resolve_local ha hp hc
  rcases Store.readCell_eq_ok hr with ⟨hn, rfl⟩ | ⟨-, hne, -⟩
  · exact ⟨hl, hn, rfl⟩
  · exact absurd hp hne

theorem readMove_local (h : Store.readMove env p s = (.ok n, s')) :
    (∃ l, env.function.localVar? p.base = some l) ∧
      s.memory.locals.get? (.of env.depth p.base) = some ⟨n, false⟩ ∧
      s' = s.bound (.slot (.of env.depth p.base)) ⟨n, true⟩ := by
  obtain ⟨s₁, cell, s₂, hr, hc, rfl⟩ := Store.readMove_eq_ok.mp h
  obtain ⟨hl, hn, rfl⟩ := readCopy_local ha hp hr
  obtain ⟨-, rfl, rfl⟩ := resolve_local ha hp hc
  exact ⟨hl, hn, rfl⟩

end

theorem placeSort_local (hp : p.derefs = 0) (hl : f.localVar? p.base = some l) :
    f.placeSort p = l.type.sort := by
  rw [Function.placeSort, Function.placeType, hl, hp]
  rfl

theorem exists_sort (hf : f.IsScalar) (hl : f.localVar? i = some l) :
    ∃ sort, l.type.sort = .ok sort := by
  have ht := hf.locals l (Function.localVar?_mem hl)
  cases htype : l.type <;> rw [htype] at ht
  case bool | int => exact ⟨_, rfl⟩
  case untyped | other | pointer => exact ht.elim

theorem sharesName_ne (hf : env.function.IsScalar) (hp : p.derefs = 0) {value : Expr} :
    Store.sharesName env p value ≠ .ok (some n) := by
  intro h
  obtain ⟨sort, rfl⟩ := Store.eq_name_of_sharesName h
  unfold Store.sharesName Function.placeType at h
  cases hl : env.function.localVar? p.base with
  | none =>
    rw [hl] at h
    cases h
  | some l =>
    simp only [hl, hp] at h
    have ht := hf.locals l (Function.localVar?_mem hl)
    cases htype : l.type <;> rw [htype] at ht h
    case bool | int => cases h
    case untyped | other | pointer => exact ht.elim

/-! ## Stretches of a run -/

/-- A stretch of the exploration and a stretch of a run fit each other.  A model of the store before
it and an outcome of the run determine a model of the store after it, at one of the exits.  And a
model of the store after it shows an outcome of the run for every exit. -/
structure Fits {α β : Type} (m : Model) (i : Int) (s s' : Store) (exits : Model → β → Prop)
    (T : α → Prop) (A : Model → β → α → Prop) : Prop where
  forward : ∀ x, T x → s.Realized (fun _ => True) m i →
    ∃ m' y, exits m' y ∧ s.Keeps (fun _ => True) m m' ∧ s'.Realized (fun _ => True) m' i ∧ A m' y x
  backward : m.Exact s'.graph.scope → s'.graph.Holds m i →
    ∀ y, exits m y → ∃ x, T x ∧ A m y x

/-- A stretch that changes the locals of the innermost call, and has one exit. -/
abbrev FitsLocals (m : Model) (i : Int) (s s' : Store) (f : Function) (callers : List Caller)
    (calls : List Call) (T : Locals → Prop) : Prop :=
  Fits m i s s' (fun _ (_ : Unit) => True) T fun m' _ τ => Stack m' f callers s'.memory τ calls

namespace Fits

variable {α β : Type} {exits : Model → β → Prop} {T U : α → Prop} {A : Model → β → α → Prop}

theorem congr (h : Fits m i s s' exits T A) (hU : ∀ x, U x ↔ T x) : Fits m i s s' exits U A := by
  rwa [show U = T from funext fun x => propext (hU x)]

/-- The memory alone has changed before the stretch. -/
theorem before (h : Fits m i s₁ s' exits T A) (hs : s₁.Scoped)
    (hg : s₁.graph = s.graph) : Fits m i s s' exits T A := by
  refine ⟨fun x hx hr => ?_, h.backward⟩
  obtain ⟨m', y, hy, hk, hr', ha⟩ := h.forward x hx (hr.of_graph hs hg)
  exact ⟨m', y, hy, fun n hn => hk n (by rwa [Store.Knows, hg]), hr', ha⟩

/-- The memory alone changes after the stretch. -/
theorem after (h : Fits m i s s₁ exits T A) (hs : s'.Scoped)
    (hg : s'.graph = s₁.graph) : Fits m i s s' exits T A := by
  refine ⟨fun x hx hr => ?_, fun hm hh => h.backward (hg ▸ hm) (hg ▸ hh)⟩
  obtain ⟨m', y, hy, hk, hr', ha⟩ := h.forward x hx hr
  exact ⟨m', y, hy, hk, hr'.of_graph hs hg, ha⟩

/-- A stretch that leaves the graph as it is. -/
theorem of_graph (hs : s'.Scoped) (hg : s'.graph = s.graph)
    (hto : ∀ x, T x → m.Exact s'.graph.scope → ∃ y, exits m y ∧ A m y x)
    (hback : m.Exact s'.graph.scope → ∀ y, exits m y → ∃ x, T x ∧ A m y x) :
    Fits m i s s' exits T A := by
  refine ⟨fun x hx hr => ?_, fun hm _ => hback hm⟩
  have hr' := hr.of_graph hs hg
  obtain ⟨y, hy, ha⟩ := hto x hx hr'.exact
  exact ⟨m, y, hy, .refl, hr', ha⟩

/-- Two stretches in a row. -/
theorem bind {es es' : List Expr} {V : Locals → Prop} {W : Locals → α → Prop} (hi : 0 ≤ i)
    (hev : s.Evolves (fun _ => True) i es s₁) (hev' : s₁.Evolves (fun _ => True) i es' s')
    (h : FitsLocals m i s s₁ f callers calls V)
    (h' : ∀ m' τ, s.Keeps (fun _ => True) m m' → m'.Exact s₁.graph.scope →
      Stack m' f callers s₁.memory τ calls → Fits m' i s₁ s' exits (W τ) A) :
    Fits m i s s' exits (fun x => ∃ τ, V τ ∧ W τ x) A := by
  refine ⟨?_, fun hm hh y hy => ?_⟩
  · rintro x ⟨τ, hτ, hx⟩ hr
    obtain ⟨m₁, -, -, hk₁, hr₁, hst⟩ := h.forward τ hτ hr
    obtain ⟨m₂, y, hy, hk₂, hr₂, ha⟩ := (h' m₁ τ hk₁ hr₁.exact hst).forward x hx hr₁
    exact ⟨m₂, y, hy, hk₁.trans hev hk₂, hr₂, ha⟩
  · have hm₁ := hm.mono (hev'.grows.scope_le _)
    obtain ⟨τ, hτ, hst⟩ := h.backward hm₁ (Store.holds_of_evolves hev' hi hh) () trivial
    obtain ⟨x, hx, ha⟩ := (h' m τ .refl hm₁ hst).backward hm hh y hy
    exact ⟨x, ⟨τ, hτ, hx⟩, ha⟩

end Fits

/-! ## Values -/

namespace Stack

theorem unchanged (h : Stack m f callers s'.memory σ calls) (hs : s'.Scoped)
    (hg : s'.graph = s.graph) : FitsLocals m i s s' f callers calls (· = σ) := by
  refine .of_graph hs hg ?_ fun _ _ _ => ⟨σ, rfl, h⟩
  rintro _ rfl -
  exact ⟨(), trivial, h⟩

section

variable (h : Stack m f callers s.memory σ calls) (hat : At env f callers.length)
  (hs : s.Scoped)
include h hat hs

/-- An operand has the same value in the model and in the run. -/
theorem operand {x : Operand} (hx : x.IsScalar) (ho : Store.operand env x s = (.ok e, s')) :
    ∃ c σ', Scalar.operand σ x = some (c, σ') ∧ e.eval m = .ok c ∧ s'.graph = s.graph ∧
      Stack m f callers s'.memory σ' calls := by
  obtain ⟨rfl, hdepth, hlt, -⟩ := hat
  cases x with
  | copy p =>
    obtain ⟨n, decl, hr, hd, rfl⟩ := Store.operand_copy_eq_ok.mp ho
    obtain ⟨⟨l, hl⟩, hn, rfl⟩ := readCopy_local h.agrees.addrs hx hr
    rw [hdepth] at hn
    obtain ⟨c, hc, hσ⟩ := h.agrees.values _ l n hl hn
    refine ⟨c, σ, by rw [Scalar.operand, hσ]; rfl, ?_, rfl, h⟩
    rw [Declaration.expr, (hs.tidy n.index decl hd).1, Expr.eval]
    rw [hc]
  | move p =>
    obtain ⟨n, decl, hr, hd, rfl⟩ := Store.operand_move_eq_ok.mp ho
    obtain ⟨⟨l, hl⟩, hn, rfl⟩ := readMove_local h.agrees.addrs hx hr
    rw [hdepth] at hn hd ⊢
    obtain ⟨c, hc, hσ⟩ := h.agrees.values _ l n hl hn
    refine ⟨c, σ.set p.base none, by rw [Scalar.operand, hσ]; rfl, ?_, rfl, ?_⟩
    · rw [Declaration.expr, (hs.tidy n.index decl hd).1, Expr.eval]
      rw [hc]
    · exact h.set hlt hl fun hmoved => by cases hmoved
  | const v t =>
    obtain ⟨sort, hsort, rfl, rfl⟩ := Store.operand_const_eq_ok.mp ho
    refine ⟨if sort = .bool then .ofBool (v != 0) else .ofInt v, σ, ?_, ?_, rfl, h⟩
    · rw [Scalar.operand, Ty.literal?, hsort]
      rfl
    · split <;> rfl
  | missing => exact absurd ho Action.error_ne_ok

theorem operands {xs : List Operand} {es : List Expr} (hx : ∀ x ∈ xs, x.IsScalar)
    (ho : Store.operands env xs s = (.ok es, s')) :
    ∃ cs σ', Scalar.operands σ xs = some (cs, σ') ∧ es.map (fun e => e.eval m) = cs.map .ok ∧
      s'.graph = s.graph ∧ Stack m f callers s'.memory σ' calls := by
  induction xs generalizing s es σ with
  | nil =>
    cases ho
    exact ⟨[], σ, rfl, rfl, rfl, h⟩
  | cons x xs ih =>
    obtain ⟨e, s₁, es', he, hes, rfl⟩ := Store.operands_cons_eq_ok.mp ho
    rw [List.forall_mem_cons] at hx
    obtain ⟨c, σ₁, hc, hv, hg₁, h₁⟩ := h.operand hat hs hx.1 he
    obtain ⟨cs, σ₂, hcs, hvs, hg₂, h₂⟩ := ih h₁ (hs.operand he).1.scope hx.2 hes
    refine ⟨c :: cs, σ₂, ?_, by rw [List.map_cons, List.map_cons, hv, hvs], hg₂.trans hg₁, h₂⟩
    rw [Scalar.operands, hc]
    simp [hcs]

/-- A right-hand side has the same value in the model and in the run. -/
theorem rvalue {rv : Rvalue} (hm : m.Exact s.graph.scope) (hrv : rv.IsScalar)
    (hr : Store.rvalue env rv s = (.ok e, s')) :
    ∃ c σ', Scalar.rvalue σ rv = some (c, σ') ∧ e.eval m = .ok c ∧
      e.Sorted s'.graph.scope ∧ s'.graph = s.graph ∧
      Stack m f callers s'.memory σ' calls := by
  cases rv with
  | use x =>
    obtain ⟨c, σ', hc, hv, hev⟩ := h.operand hat hs hrv hr
    exact ⟨c, σ', hc, hv, (hs.operand hr).2.1, hev⟩
  | binary op l r =>
    obtain ⟨a, s₁, b, ha, hb, ht⟩ := Store.rvalue_binary_eq_ok.mp hr
    obtain ⟨hdiv, hrem, hl, hr⟩ := hrv
    obtain ⟨x, σ₁, hx, hxv, hg₁, h₁⟩ := h.operand hat hs hl ha
    obtain ⟨he₁, hsa, hda⟩ := hs.operand ha
    obtain ⟨y, σ₂, hy, hyv, hg₂, h₂⟩ := h₁.operand hat he₁.scope hr hb
    obtain ⟨he₂, hsb, hdb⟩ := he₁.scope.operand hb
    have hsa' := hsa.mono (he₂.grows.scope_le _)
    rw [← hg₁, ← hg₂] at hm
    obtain ⟨o, -, -, hsort, hfree, -⟩ := op.eval_term ht hsa' hsb
    obtain ⟨c, hc⟩ := hsort.sorted.defines (hfree hdiv hrem hda hdb) hm.sorts
    have hvalue := SourceBinOp.value?_eq_eval ht hsa' hsb hm hxv hyv
    rw [hc] at hvalue
    refine ⟨c, σ₂, ?_, hc, hsort.sorted, hg₂.trans hg₁, h₂⟩
    rw [Scalar.rvalue, hx]
    simp [hy, hvalue, Except.toOption]
  | unary op x =>
    obtain ⟨a, ha, ht⟩ := Store.rvalue_unary_eq_ok.mp hr
    obtain ⟨x', σ₁, hx, hxv, hg, h₁⟩ := h.operand hat hs hrv ha
    rw [← hg] at hm
    obtain ⟨hsort, -, hval⟩ := op.eval_term ht (hs.operand ha).2.1
    obtain ⟨c, hc, hvalue⟩ := hval m hm x' hxv
    refine ⟨c, σ₁, ?_, hc, hsort.sorted, hg, h₁⟩
    rw [Scalar.rvalue, hx]
    simp [hvalue]
  | cast x t =>
    obtain ⟨a, ha, ht⟩ := Store.rvalue_cast_eq_ok.mp hr
    obtain ⟨x', σ₁, hx, hxv, hg, h₁⟩ := h.operand hat hs hrv ha
    rw [← hg] at hm
    obtain ⟨hsort, -, hval⟩ := t.eval_castTerm ht (hs.operand ha).2.1
    obtain ⟨c, hc, hvalue⟩ := hval m hm x' hxv
    refine ⟨c, σ₁, ?_, hc, hsort.sorted, hg, h₁⟩
    rw [Scalar.rvalue, hx]
    simp [hvalue]
  | ref p => exact hrv.elim
  | missing => exact absurd hr Action.error_ne_ok

/-! ## Giving a local a value -/

/-- A local that gets a new name can take any value of its sort, and a model gives the name one. -/
theorem fresh (hp : p.derefs = 0) (hw : Store.writeFresh env p s = (.ok n, s')) :
    FitsLocals m env.node s s' f callers calls fun τ => ∃ sort c, f.placeSort p = .ok sort ∧
      c.HasSort sort ∧ τ = σ.set p.base (some c) := by
  obtain ⟨rfl, hdepth, hlt, -⟩ := hat
  obtain ⟨sort, cell, s₁, hsort, hcell, rfl, rfl⟩ := Store.writeFresh_eq_ok.mp hw
  obtain ⟨⟨l, hl⟩, rfl, rfl⟩ := resolve_local h.agrees.addrs hp hcell
  rw [hdepth]
  refine ⟨?_, fun hm _ _ _ => ?_⟩
  · rintro _ ⟨sort', c, hsort', hc, rfl⟩ hr
    rw [hsort] at hsort'
    cases hsort'
    obtain ⟨hfresh, hkeeps⟩ := hr.fresh hc
    have hbound : (s₁.declared sort).Evolves (fun _ => True) env.node []
        ((s₁.declared sort).bound (.slot (.of callers.length p.base)) ⟨s₁.nextName, false⟩) :=
      .bound hfresh.scope (fun q hq => nomatch hq) hs.knows_nextName
    refine ⟨m.insert s₁.nextName c, (), trivial, hkeeps, hfresh.of_graph hbound.scope rfl, ?_⟩
    refine (h.keeps hs hkeeps).set hlt hl fun _ => ⟨c, ?_, rfl⟩
    rw [Assoc.get?_insert, if_pos rfl]
  · obtain ⟨c, hc, hcs⟩ := hm s₁.nextName sort
      ⟨trivial, _, Store.declaration?_declared s₁ sort, rfl⟩
    exact ⟨_, ⟨sort, c, hsort, hcs, rfl⟩, h.set hlt hl fun _ => ⟨c, hc, rfl⟩⟩

/-- A local that is defined by a term takes the value of the term. -/
theorem define (hp : p.derefs = 0) (he : e.Sorted s.graph.scope)
    (hv : e.eval m = .ok c) (hw : Store.writeFresh env p s = (.ok n, s₁))
    (ha : Store.assertEqual env.node n e s₁ = (.ok (), s')) :
    FitsLocals m env.node s s' f callers calls (· = σ.set p.base (some c)) := by
  obtain ⟨rfl, hdepth, hlt, hnode⟩ := hat
  obtain ⟨cell, s₂, hsort, hcell, rfl, ⟨k, hk⟩, rfl⟩ := Store.define_eq_ok hw ha
  obtain ⟨⟨l, hl⟩, rfl, rfl⟩ := resolve_local h.agrees.addrs hp hcell
  rw [hdepth]
  refine ⟨?_, fun hm hh _ _ => ⟨_, rfl, ?_⟩⟩
  · rintro _ rfl hr
    have hloc : s₂.Locates (fun _ => True) (.slot (.of callers.length p.base)) :=
      fun q hq => nomatch hq
    obtain ⟨hdef, hkeeps⟩ := hr.defined hnode hloc (he.mono (Graph.scope_le_uses _ _)) hv
      (he.hasSort hr.exact.respects hv) rfl
    refine ⟨m.insert s₂.nextName c, (), trivial, hkeeps, hdef, ?_⟩
    refine (h.keeps hs hkeeps).set hlt hl fun _ => ⟨c, ?_, rfl⟩
    rw [Assoc.get?_insert, if_pos rfl]
  · have hvalue := Store.value_of_defined hs hnode hk he hm hv hh
    exact h.set hlt hl fun _ => ⟨c, hvalue, rfl⟩

end

/-! ## Statements -/

/-- A local of scalar code that becomes live gets a new name. -/
theorem exists_writeFresh (h : Stack m f callers s.memory σ calls)
    (hat : At env f callers.length) (hs : Store.makeLive env i s = (.ok (), s')) :
    ∃ n, Store.writeFresh env ⟨i, 0⟩ (s.unbound (.of callers.length i)) = (.ok n, s') := by
  obtain ⟨rfl, hdepth, -⟩ := hat
  rw [← hdepth]
  obtain ⟨l, hl, ⟨⟨err, herr⟩, -⟩ | ⟨-, n, hw⟩⟩ := Store.makeLive_eq_ok hs
  · obtain ⟨sort, hsort⟩ := exists_sort h.scalar hl
    rw [herr] at hsort
    cases hsort
  · exact ⟨n, hw⟩

section

variable (h : Stack m f callers s.memory σ calls) (hat : At env f callers.length)
  (hs : s.Scoped) (hm : m.Exact s.graph.scope)
include h hat hs hm

theorem exec {st : Statement} (hst : st.IsScalar) (hx : Store.statement env st s = (.ok (), s')) :
    FitsLocals m env.node s s' f callers calls (Exec f st σ) := by
  have hu : ∀ i, (s.unbound (.of callers.length i)).Scoped :=
    fun i => (Store.Evolves.unbound (i := 0) hs).scope
  cases st with
  | assign p rv span =>
    obtain ⟨e, s₁, hr, ⟨n, hshared, -⟩ | ⟨-, n, s₂, hw, ha⟩⟩ := Store.assign_eq_ok.mp hx
    · refine absurd hshared (sharesName_ne ?_ hst.1)
      exact (congrArg Function.IsScalar hat.function).mpr h.scalar
    · obtain ⟨c, σ', hval, hv, he, hg, h₁⟩ := h.rvalue (hat.span span) hs hm hst.2 hr
      obtain ⟨es, hev, -⟩ := hs.rvalue hr
      have hfit := h₁.define (hat.span span) hev.scope hst.1 he hv hw ha
      obtain ⟨-, -, hsort, -⟩ := Store.define_eq_ok hw ha
      refine (hfit.before hev.scope hg).congr fun τ => ⟨?_, ?_⟩
      · rintro ⟨hval', -⟩
        rw [hval] at hval'
        cases hval'
        rfl
      · rintro rfl
        refine .assign hval ?_
        rw [← hg] at hm
        rw [(he.hasSort hm.respects hv).sort_eq, ← hat.function]
        exact hsort
  | storageLive i =>
    obtain ⟨n, hw⟩ := h.exists_writeFresh hat hx
    have hunbound : Stack m f callers (s.unbound (.of callers.length i)).memory (σ.set i none) calls :=
      h.unbind hat.lt i none
    refine ((hunbound.fresh hat (hu i) rfl hw).before (s := s) (hu i) rfl).congr fun τ => ⟨?_, ?_⟩
    · rintro (_ | ⟨hsort, hc⟩)
      exact ⟨_, _, hsort, hc, by rw [Locals.set_set]⟩
    · rintro ⟨sort, c, hsort, hc, rfl⟩
      rw [Locals.set_set]
      exact .live hsort hc
  | storageDead i =>
    obtain rfl := (Prod.mk.inj hx).2.symm
    rw [hat.depth]
    refine ((h.unbind hat.lt i none).unchanged (s := s) (hu i) rfl).congr fun τ => ⟨?_, ?_⟩
    · rintro ⟨⟩
      rfl
    · rintro rfl
      exact .dead
  | nop =>
    cases hx
    refine (h.unchanged hs rfl).congr fun τ => ⟨?_, ?_⟩
    · rintro ⟨⟩
      rfl
    · rintro rfl
      exact .nop
  | missing => exact absurd hx Action.error_ne_ok

theorem execAll {sts : List Statement} (hst : ∀ st ∈ sts, st.IsScalar)
    (hx : Store.statements env sts s = (.ok (), s')) :
    FitsLocals m env.node s s' f callers calls (ExecAll f sts σ) := by
  induction sts generalizing m s σ with
  | nil =>
    cases hx
    refine (h.unchanged hs rfl).congr fun τ => ⟨?_, ?_⟩
    · rintro ⟨⟩
      rfl
    · rintro rfl
      exact .nil
  | cons st sts ih =>
    rw [List.forall_mem_cons] at hst
    obtain ⟨s₁, h₁, h₂⟩ := Store.statements_cons_eq_ok.mp hx
    obtain ⟨es, hev, -⟩ := hs.statement h₁
    obtain ⟨es', hev', -⟩ := hev.scope.statements h₂
    refine (Fits.bind hat.node hev hev' (h.exec hat hs hm hst.1 h₁) fun m' τ _ hm' hτ =>
      ih hτ hev.scope hm' hst.2 h₂).congr fun τ => ⟨?_, ?_⟩
    · rintro (_ | ⟨hone, hmore⟩)
      exact ⟨_, hone, hmore⟩
    · rintro ⟨_, hone, hmore⟩
      exact .cons hone hmore

end

end Stack

end Scalar
end NullPath
