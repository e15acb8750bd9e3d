import NullPath.Proofs.HeapAccess

/-!
# Running blocks with pointers and exploring them

An exploration of a block computes terms where a run computes values.  The two are related by a
model that describes the cells of the run, and every statement carries the model on: names that are
declared on the way get the values that the run has for them.  What the exploration asserts is then
true, and where the run dereferences a null pointer, the exploration has tagged a name that the
model gives the value zero.

A place for pointers shares the name of the pointer that it is given.  So the typing of the code
matters here: what such a place is given is the name of a pointer, or it is zero.

* `Heap.Tracks.operand`, `Heap.Tracks.rvalue`: values.
* `Heap.Tracks.leaves`: terminators.
* `Heap.Tracks.faults`: a null dereference is marked.
-/

namespace NullPath

theorem Expr.get?_of_eval_name {m : Model} {n : Name} {sort : ExprSort} {v : Constant}
    (h : (Expr.name n sort).eval m = .ok v) : m.get? n = some v := by
  rw [Expr.eval] at h
  split at h
  · next c hc =>
    cases h
    exact hc
  · cases h

namespace Store

variable {env : Env} {p : Place} {t : Ty} {n : Name} {sort : ExprSort} {e : Expr}

theorem isPointer_of_sharesName (ht : env.function.placeType p = .ok t)
    (h : sharesName env p e = .ok (some n)) : t.isPointer = true := by
  obtain ⟨sort, rfl⟩ := eq_name_of_sharesName h
  cases t <;> simp_all [sharesName, Ty.isPointer]

/-- A name is not shared with other places only. -/
theorem not_isPointer_of_sharesName (ht : env.function.placeType p = .ok t)
    (h : sharesName env p (.name n sort) = .ok none) : t.isPointer = false := by
  cases t <;> simp_all [sharesName, Ty.isPointer]

/-- The fact that is recorded for an address is true of a value that is not zero. -/
theorem satisfies_nonzero {s : Store} {m : Model} {a : Int}
    (hn : s.Knows (fun _ => True) n) (hm : m.Exact s.graph.scope)
    (ha : m.get? n = some (.ofInt a)) (hne : a ≠ 0) : m.Satisfies (nonzero n) := by
  have hint := hn.hasSort_int
  have heval : (Expr.name n .int).eval m = .ok (.ofInt a) := by rw [Expr.eval, ha]
  have hzero := Expr.eval_isZero hint.sorted hm.uses.suits heval rfl
  rw [nonzero, Model.satisfies_iff_of_eval (Expr.eval_mkNot hint.isZero.sorted hm.uses.suits hzero)]
  simp [hne]

end Store

namespace Heap

variable {env : Env} {u : View} {m : Model} {s s' s₁ : Store} {st st' : State} {c : Cell} {a : Int}
  {n : Name} {v : Constant} {t : Ty} {p : Place} {e : Expr} {rv : Rvalue}

/-! ## Values -/

/-- The term stands for a pointer of a type: it is the name of a pointer, or its value is zero. -/
inductive View.Points (u : View) (h : Cells) (t : Ty) (v : Constant) : Expr → Prop
  | name {n : Name} {sort : ExprSort} :
    u.pointers n → u.chart.Fits h t.shape v → View.Points u h t v (.name n sort)
  | null {e : Expr} : (∀ n sort, e ≠ .name n sort) → v.value = 0 → View.Points u h t v e

/-- The value of a right-hand side is that of its term. -/
structure Yields (env : Env) (u : View) (st : State) (s : Store) (rv : Rvalue) (e : Expr)
    (u' : View) (m : Model) (v : Constant) : Prop where
  tracks : Tracks env u' m s st
  widens : u.Widens u'
  value : e.eval m = .ok v
  sort : v.HasSort e.sort
  points : ∀ t, t.isPointer = true → rv.GivesPointer env.function t → u'.Points st.cells t v e

/-- The name that a place holds, as a term. -/
theorem Reads.yields {u' : View} {d : Declaration} (h : Reads env u st s n t u' m v)
    (hd : s.graph.declaration? n = some d)
    (hrv : ∀ t', rv.GivesPointer env.function t' → t'.shape = t.shape) :
    Yields env u st s rv d.expr u' m v := by
  have hr := h.tracks.realized
  have hname : d.expr = .name n d.sort := by rw [Declaration.expr, (hr.scope.tidy n.index d hd).1]
  rw [hname]
  refine ⟨h.tracks, h.widens, by rw [Expr.eval, h.value], ?_, fun t' hp hg => ?_⟩
  · obtain ⟨w, hw, hsort⟩ := hr.exact n d.sort ⟨trivial, d, hd, rfl⟩
    rw [h.value] at hw
    cases hw
    exact hsort
  · have hshape := hrv t' hg
    refine .name (h.pointer ?_) ?_
    · rw [← Ty.isPointer_shape, ← hshape, Ty.isPointer_shape, hp]
    · rw [hshape]
      exact h.fits

/-- The value of a term that is computed from values.  It is not a pointer. -/
theorem Yields.computed {u' : View} {rv' : Rvalue} {e' : Expr} {w : Constant}
    (h : Yields env u st s rv e u' m v) (he : e'.Sorted s.graph.scope)
    (hw : e'.eval m = .ok w) (hrv : ∀ t, ¬rv'.GivesPointer env.function t) :
    Yields env u st s rv' e' u' m w :=
  ⟨h.tracks, h.widens, hw, he.hasSort h.tracks.realized.exact.respects hw, fun t _ hg => absurd hg (hrv t)⟩

namespace Tracks

section
variable (h : Tracks env u m s st)
include h

theorem operand {x : Operand} (hx : x.Typed env.function) (ho : Store.operand env x s = (.ok e, s'))
    : Simulates env.node m s s' (Yields env u st s' (.use x) e) (Heap.operand st x) := by
  have hplace : ∀ {p : Place} {t t' : Ty}, env.function.placeType p = .ok t →
      (∃ t'', env.function.placeType p = .ok t'' ∧ t''.shape = t'.shape) → t'.shape = t.shape := by
    rintro p t t' ht ⟨t'', ht'', hshape⟩
    rw [ht] at ht''
    cases ht''
    exact hshape.symm
  cases x with
  | copy p =>
    obtain ⟨n, d, hr, hd, rfl⟩ := Store.operand_copy_eq_ok.mp ho
    obtain ⟨t, ht⟩ := hx
    exact .carried .refl (h.readCopy ht hr) fun _ _ _ hreads =>
      hreads.yields hd fun _ hg => hplace ht hg
  | move p =>
    obtain ⟨n, d, hr, hd, rfl⟩ := Store.operand_move_eq_ok.mp ho
    obtain ⟨t, ht⟩ := hx
    exact .carried .refl (h.readMove ht hr) fun _ _ _ hreads =>
      hreads.yields hd fun _ hg => hplace ht hg
  | const k t =>
    obtain ⟨sort, hsort, rfl, rfl⟩ := Store.operand_const_eq_ok.mp ho
    rw [Heap.operand, Ty.literal?, hsort]
    have hzero : ∀ t', t'.isPointer = true →
        (Rvalue.use (.const k t)).GivesPointer env.function t' → k = 0 := fun _ _ hg => hg
    by_cases hb : sort = .bool
    · simp only [if_pos hb]
      refine .value .refl ⟨h, .refl, rfl, Constant.hasSort_ofBool _,
        fun t' hp hg => .null (fun _ _ hn => nomatch hn) ?_⟩
      rw [hzero t' hp hg]
      rfl
    · simp only [if_neg hb]
      refine .value .refl ⟨h, .refl, rfl, Constant.hasSort_ofInt _,
        fun t' hp hg => .null (fun _ _ hn => nomatch hn) ?_⟩
      rw [hzero t' hp hg]
      rfl
  | missing => exact absurd ho Action.error_ne_ok

/-- The address of a local: a pointer to its storage. -/
theorem storage {i : Int} {l : LocalVar} (hl : env.function.localVar? i = some l)
    (hn : u.pointers n) (hvalue : m.get? n = some (.ofInt (st.storage i))) :
    Yields env u st s (.ref ⟨i, 0⟩) (.name n .int) u m (.ofInt (st.storage i)) := by
  refine ⟨h, .refl, by rw [Expr.eval, hvalue], Constant.hasSort_ofInt _, ?_⟩
  rintro t' - ⟨t'', ht'', hshape⟩
  rw [Function.placeType_of_localVar? hl] at ht''
  cases ht''
  refine .name hn ?_
  rw [hshape]
  have hlaid := h.describes.laid
  exact ⟨Constant.hasSort_ofInt _, fun _ => ⟨hlaid.has i l hl trivial, hlaid.types i l hl trivial⟩⟩

/-- Taking the address of a local for the first time.  The new name has the address of the storage
as value, and this is not zero. -/
theorem addressed {i : Int} {l : LocalVar} (hl : env.function.localVar? i = some l)
    (hnone : s.memory.addrs.get? (.of 0 i) = none) :
    ∃ u' m', s.Carries m m' ((s.addressed (.of 0 i)).asserted env.node
        (Store.nonzero s.nextName)) ∧
      Yields env u st ((s.addressed (.of 0 i)).asserted env.node (Store.nonzero s.nextName))
        (.ref ⟨i, 0⟩) (.name s.nextName .int) u' m' (.ofInt (st.storage i)) := by
  obtain ⟨hfresh, hk, hvalue⟩ := h.fresh (Constant.hasSort_ofInt (st.storage i))
  have hknown : (s.declared .int).Knows (fun _ => True) s.nextName :=
    h.realized.scope.knows_nextName
  have haddressed : Tracks env ⟨u.chart, fun n' => u.pointers n' ∨ n' = s.nextName⟩
      (m.insert s.nextName (.ofInt (st.storage i))) (s.addressed (.of 0 i)) st :=
    { h with
      realized := h.realized.grown (.addressed h.realized.scope) hk.keeps hfresh.realized.exact
      describes := hfresh.describes.giveAddress h.addressable hl hnone hvalue hknown
        h.not_pointers_nextName h.get?_behind_nextName }
  have hne := h.describes.laid.shaped.ne_zero (h.describes.laid.has i l hl trivial)
  have hsort : (Store.nonzero s.nextName).HasSort
      ((s.addressed (.of 0 i)).graph.uses fun _ => True) .bool :=
    Expr.HasSort.mkNot (Store.Knows.hasSort_int hknown).isZero
  obtain ⟨htracks, hk'⟩ := haddressed.asserted hsort
    (Store.satisfies_nonzero hknown hfresh.realized.exact hvalue hne)
  have hyields := htracks.storage hl (.inr rfl) hvalue
  have hk₀ : s.Carries m (m.insert s.nextName (.ofInt (st.storage i))) (s.addressed (.of 0 i)) :=
    ⟨hk.le, hk.keeps⟩
  exact ⟨_, _, hk₀.trans hk', { hyields with widens := ⟨rfl, fun _ hn => .inl hn⟩ }⟩

/-- The address of a place. -/
theorem ref (ht : env.function.placeType p = .ok t) (hr : Store.rvalue env (.ref p) s = (.ok e, s'))
    : Simulates env.node m s s' (Yields env u st s' (.ref p) e) (Heap.rvalue st (.ref p)) := by
  obtain ⟨n, isNew, s₁, hn, rfl, rfl⟩ := Store.rvalue_ref_eq_ok hr
  obtain ⟨base, k⟩ := p
  rcases Store.ref_eq_ok hn with ⟨q, hq, rfl, hread⟩ | ⟨hq, ⟨l, hl⟩, hcases⟩
  · -- the address of what a pointer leads to is the pointer
    cases k with
    | zero => cases hq
    | succ k =>
      cases hq
      obtain ⟨name, hptr⟩ := Function.exists_pointer_of_placeType ht
      refine .carried .refl (h.readCopy hptr hread) fun u' m' v hreads => ?_
      refine ⟨hreads.tracks, hreads.widens, by rw [Expr.eval, hreads.value], hreads.fits.1, ?_⟩
      rintro t' - ⟨t'', ht'', hshape⟩
      rw [ht] at ht''
      cases ht''
      refine .name (hreads.pointer rfl) ?_
      rw [hshape]
      exact hreads.fits
  · cases k with
    | succ k => cases hq
    | zero =>
      rw [h.depth] at hcases
      rcases hcases with ⟨ha, rfl, rfl⟩ | ⟨hnone, rfl, rfl, rfl⟩
      · obtain ⟨hp, hvalue⟩ := h.describes.address base l n hl ha
        exact .value .refl (h.storage hl hp hvalue)
      · obtain ⟨u', m', hk, hyields⟩ := h.addressed hl hnone
        exact .value hk hyields

theorem rvalue (hrv : rv.Typed env.function) (hr : Store.rvalue env rv s = (.ok e, s')) :
    Simulates env.node m s s' (Yields env u st s' rv e) (Heap.rvalue st rv) := by
  cases rv with
  | use x => exact h.operand hrv hr
  | binary op l r =>
    obtain ⟨a, s₁, b, ha, hb, hterm⟩ := Store.rvalue_binary_eq_ok.mp hr
    obtain ⟨hev₁, hsa, -⟩ := h.realized.scope.operand ha
    obtain ⟨hev₂, hsb, -⟩ := hev₁.scope.operand hb
    refine (h.operand hrv.1 ha).bind hev₂ fun u₁ m₁ x _ hx => ?_
    refine (hx.tracks.operand hrv.2 hb).bind (.refl hev₂.scope) fun u₂ m₂ y hk hy => ?_
    have hxv : a.eval m₂ = .ok x := by
      rw [hk.keeps.eval_eq (hsa.mono (Graph.scope_le_uses _ _)), hx.value]
    have hsa' := hsa.mono (hev₂.grows.scope_le _)
    have hexact := hy.tracks.realized.exact
    rw [SourceBinOp.value?_eq_eval hterm hsa' hsb hexact hxv hy.value]
    obtain ⟨o, -, -, hsort, -⟩ := op.eval_term hterm hsa' hsb
    cases hv : e.eval m₂ with
    | error err => exact .stuck
    | ok v =>
      have hyields : Yields env u₁ st s' (.binary op l r) e u₂ m₂ v :=
        hy.computed hsort.sorted hv fun _ hg => hg
      exact .value .refl { hyields with widens := hx.widens.trans hy.widens }
  | unary op x =>
    obtain ⟨a, ha, hterm⟩ := Store.rvalue_unary_eq_ok.mp hr
    obtain ⟨hev, hsa, -⟩ := h.realized.scope.operand ha
    refine (h.operand hrv ha).bind (.refl hev.scope) fun u₁ m₁ x _ hx => ?_
    obtain ⟨hsort, -, hval⟩ := op.eval_term hterm hsa
    obtain ⟨v, hv, hvalue⟩ := hval m₁ hx.tracks.realized.exact x hx.value
    rw [hvalue]
    exact .value .refl (hx.computed hsort.sorted hv fun _ hg => hg)
  | cast x t =>
    obtain ⟨a, ha, hterm⟩ := Store.rvalue_cast_eq_ok.mp hr
    obtain ⟨hev, hsa, -⟩ := h.realized.scope.operand ha
    refine (h.operand hrv ha).bind (.refl hev.scope) fun u₁ m₁ x _ hx => ?_
    obtain ⟨hsort, -, hval⟩ := t.eval_castTerm hterm hsa
    obtain ⟨v, hv, hvalue⟩ := hval m₁ hx.tracks.realized.exact x hx.value
    rw [hvalue]
    exact .value .refl (hx.computed hsort.sorted hv fun _ hg => hg)
  | ref p =>
    obtain ⟨t, ht⟩ := hrv
    exact h.ref ht hr
  | missing => exact absurd hr Action.error_ne_ok

end

/-! ## Assignments -/

/-- A place that gets a new name with the value of a term.  A place for pointers gets one only for
zero. -/
theorem defined (h : Tracks env u m s st) (hat : u.At env.function m s.memory st c a)
    (he : e.Sorted s.graph.uses) (hv : e.eval m = .ok v) (hsort : v.HasSort e.sort)
    (hfits : u.chart.Fits st.cells (u.chart.types a) v)
    (hnull : (u.chart.types a).isPointer = true → v.value = 0) :
    ∃ u' m', s.Carries m m' (s.defined e.sort c env.node e) ∧
      Tracks env u' m' (s.defined e.sort c env.node e) { st with cells := st.cells.set a v } := by
  obtain ⟨hbound, hk, hvalue⟩ := h.named hat hsort hfits fun hp hne => absurd (hnull hp) hne
  obtain ⟨hbool, htrue⟩ := Store.satisfies_defined h.realized.scope he
    hbound.realized.exact (by rw [hk.keeps.eval_eq he, hv]) hvalue
  obtain ⟨htracks, hk'⟩ := hbound.asserted hbool (htrue.mpr rfl)
  exact ⟨_, _, hk.trans hk', htracks⟩

end Tracks

namespace Yields

variable {u₀ : View}

/-- A place is given the name of a pointer. -/
theorem share {sort : ExprSort} (h : Yields env u₀ st s rv (.name n sort) u m v)
    (ht : env.function.placeType p = .ok t) (hp : t.isPointer = true)
    (hg : rv.GivesPointer env.function t) (hknown : s.Knows (fun _ => True) n)
    (hb : Store.bind env p n s = (.ok (), s')) :
    Simulates env.node m s s' (fun u' m' st' => Tracks env u' m' s' st')
      (st.address p >>= fun a => .ok { st with cells := st.cells.set a v }) := by
  obtain ⟨c, s₁, hc, rfl⟩ := Store.bind_eq_ok.mp hb
  obtain ⟨hev, hloc⟩ := h.tracks.realized.scope.resolve hc
  refine (h.tracks.resolve ht hc).bind (.bound hev.scope hloc (hev.knows hknown))
    fun u' m' a hk hleads => ?_
  have hvalue : m'.get? n = some v := by
    rw [hk.keeps n hknown]
    exact Expr.get?_of_eval_name h.value
  cases h.points t hp hg with
  | name hn hfits =>
    obtain ⟨htracks, hk'⟩ := hleads.tracks.rebind false hleads.cell
      (hleads.type ▸ hleads.widens.fits hfits) hvalue (hev.knows hknown)
      fun _ => .inl (hleads.widens.pointers n hn)
    exact .value hk' htracks
  | null hne _ => exact absurd rfl (hne n sort)

variable (h : Yields env u₀ st s rv e u m v) (ht : env.function.placeType p = .ok t)
  (hp : t.isPointer = true → rv.GivesPointer env.function t)
  (hshared : Store.sharesName env p e = .ok none)
include h ht hp hshared

/-- A value whose name is not shared belongs to the type of the place, and it is zero if the place
is for pointers. -/
theorem fits_of_not_shared (hsort : t.sort = .ok e.sort) :
    u.chart.Fits st.cells t.shape v ∧ (t.isPointer = true → v.value = 0) := by
  cases hpt : t.isPointer with
  | false => exact ⟨Chart.fits_of_hasSort hsort hpt h.sort, fun hne => nomatch hne⟩
  | true =>
    cases h.points t hpt (hp hpt) with
    | name _ _ =>
      rw [Store.not_isPointer_of_sharesName ht hshared] at hpt
      cases hpt
    | null _ hzero =>
      have hint : e.sort = .int := by
        cases t with
        | pointer _ _ => exact (Except.ok.inj hsort).symm
        | untyped | other _ | bool _ | int _ => cases hpt
      have hv := h.sort
      rw [hint] at hv
      refine ⟨?_, fun _ => hzero⟩
      rw [hv.eq_ofInt, hzero]
      exact Chart.fits_null hpt

/-- A place gets a new name that is defined by a term. -/
theorem define (he : e.Sorted s.graph.uses)
    (hw : Store.writeFresh env p s = (.ok n, s₁))
    (ha : Store.assertEqual env.node n e s₁ = (.ok (), s')) :
    Simulates env.node m s s' (fun u' m' st' => Tracks env u' m' s' st')
      (st.address p >>= fun a => .ok { st with cells := st.cells.set a v }) := by
  obtain ⟨c, s₂, hsort, hc, rfl, -, rfl⟩ := Store.define_eq_ok hw ha
  rw [Function.placeSort_of_placeType ht] at hsort
  obtain ⟨hfits, hnull⟩ := h.fits_of_not_shared ht hp hshared hsort
  obtain ⟨hev, hloc⟩ := h.tracks.realized.scope.resolve hc
  have he' := he.mono (hev.grows.uses_le fun _ => True)
  refine (h.tracks.resolve ht hc).bind (.defined hev.scope hloc he') fun u' m' a hk hleads => ?_
  have hv : e.eval m' = .ok v := by rw [hk.keeps.eval_eq he, h.value]
  obtain ⟨u'', m'', hk', htracks⟩ := hleads.tracks.defined hleads.cell he' hv h.sort
    (hleads.type ▸ hleads.widens.fits hfits)
    fun hpt => hnull (by rwa [hleads.type, Ty.isPointer_shape] at hpt)
  exact .value hk' htracks

end Yields

namespace Tracks

theorem assign {span : Span} (h : Tracks env u m s st)
    (hst : (Statement.assign p rv span).Typed env.function)
    (ha : Store.assign env p rv s = (.ok (), s')) :
    Simulates env.node m s s' (fun u' m' st' => Tracks env u' m' s' st')
      (Heap.assign st p rv) := by
  obtain ⟨hrv, t, ht, hp⟩ := hst
  obtain ⟨e, s₁, hr, hcases⟩ := Store.assign_eq_ok.mp ha
  obtain ⟨es, hev, he⟩ := h.realized.scope.rvalue hr
  rcases hcases with ⟨n, hshared, hb⟩ | ⟨hshared, n, s₂, hw, heq⟩
  · obtain ⟨sort, rfl⟩ := Store.eq_name_of_sharesName hshared
    have hpt := Store.isPointer_of_sharesName ht hshared
    have hknown : s₁.Knows (fun _ => True) n := by
      obtain ⟨⟨-, d, hd, -⟩, -⟩ := he
      exact ⟨trivial, lt_length_of_getElem? hd⟩
    refine (h.rvalue hrv hr).bind (hev.scope.bind hknown hb) fun u' m' v _ hy => ?_
    exact hy.share ht hpt (hp hpt) hknown hb
  · obtain ⟨es₁, hev₁, -⟩ := (hev.scope.define_unfolds he False.elim hw heq).evolves
    refine (h.rvalue hrv hr).bind hev₁ fun u' m' v _ hy => ?_
    exact hy.define ht hp hshared he hw heq

/-! ## Statements -/

variable (h : Tracks env u m s st)
include h

/-- New storage for a local, whose slot is then unbound. -/
theorem renew {i : Int} (hr : Renews env.function i st v st') :
    ∃ u', Tracks env u' m (s.unbound (.of 0 i)) st' ∧ s.Carries m m (s.unbound (.of 0 i)) := by
  obtain ⟨γ, hd, -⟩ := h.describes.renew h.addressable hr
  have hev : s.Evolves (fun _ => True) env.node [] (s.unbound (.of 0 i)) :=
    .unbound h.realized.scope
  exact ⟨_, { h with
    realized := h.realized.grown hev .refl h.realized.exact
    describes := hd }, .of_evolves hev .refl⟩

/-- A local that becomes live gets new storage with an arbitrary value, and a name for it if its
type has a sort. -/
theorem makeLive {i : Int} (hr : Renews env.function i st v st')
    (hs : Store.makeLive env i s = (.ok (), s')) :
    ∃ u' m', s.Carries m m' s' ∧ Tracks env u' m' s' st' := by
  obtain ⟨u₁, htracks, hk⟩ := h.renew hr
  obtain ⟨l, hl, ⟨-, rfl⟩ | ⟨-, n, hw⟩⟩ := Store.makeLive_eq_ok hs
  · rw [h.depth]
    exact ⟨u₁, m, hk, htracks⟩
  · rw [h.depth] at hw
    obtain ⟨sort, c, s₁, hsort, hc, rfl, rfl⟩ := Store.writeFresh_eq_ok.mp hw
    obtain ⟨-, rfl, rfl⟩ := Store.resolveAt_zero_eq_ok.mp hc
    rw [Function.placeSort_of_placeType (Function.placeType_of_localVar? hl)] at hsort
    have hcell : (s.unbound (.of 0 i)).memory.cellOf (.of 0 i) = .slot (.of 0 i) := by
      rw [Memory.cellOf, Store.unbound, Memory.unbind, Assoc.get?_erase, if_pos rfl]
    have hnone : (s.unbound (.of 0 i)).memory.get? (.slot (.of 0 i)) = none := by
      rw [Store.unbound, Memory.get?_unbind, if_pos rfl]
    have hat := htracks.describes.at_local hl
    rw [hcell] at hat
    obtain ⟨m', w, -, hk', hreads⟩ := htracks.look hat hnone
      (htracks.describes.laid.types i l hl trivial) hsort
    rw [h.depth]
    rw [hcell]
    exact ⟨_, m', hk.trans hk', hreads.tracks⟩

/-- A run of a statement carries the model on. -/
theorem exec {x : Statement} (ht : x.Typed env.function) (hx : Exec env.function x st st')
    (hs : Store.statement env x s = (.ok (), s')) :
    ∃ u' m', s.Carries m m' s' ∧ Tracks env u' m' s' st' := by
  cases hx with
  | @assign p rv span _ _ ha =>
    have hsim := (h.at_span span).assign ht hs
    rw [ha] at hsim
    obtain ⟨u', m', hk, htracks⟩ := hsim.exists_of_ok
    exact ⟨u', m', hk, htracks.at_span env.span⟩
  | live hr => exact h.makeLive hr hs
  | dead hr =>
    obtain rfl := (Prod.mk.inj hs).2.symm
    obtain ⟨u', htracks, hk⟩ := h.renew hr
    rw [h.depth]
    exact ⟨u', m, hk, htracks⟩
  | nop =>
    obtain ⟨-, rfl⟩ := Action.pure_eq_ok.mp hs
    exact ⟨u, m, .refl, h⟩

theorem execAll {xs : List Statement} (ht : ∀ x ∈ xs, x.Typed env.function)
    (hx : ExecAll env.function xs st st') (hs : Store.statements env xs s = (.ok (), s')) :
    ∃ u' m', s.Carries m m' s' ∧ Tracks env u' m' s' st' := by
  induction hx generalizing u m s with
  | nil =>
    cases hs
    exact ⟨u, m, .refl, h⟩
  | cons hone _ ih =>
    rw [List.forall_mem_cons] at ht
    obtain ⟨s₁, h₁, h₂⟩ := Store.statements_cons_eq_ok.mp hs
    obtain ⟨u₁, m₁, hk₁, htracks⟩ := h.exec ht.1 hone h₁
    obtain ⟨u₂, m₂, hk₂, htracks'⟩ := ih htracks ht.2 h₂
    exact ⟨u₂, m₂, hk₁.trans hk₂, htracks'⟩

end Tracks

/-! ## Terminators -/

section Terminators

variable {options : Options} {program : Program} {frame : Frame} {fs : List Frame}
  {x : Terminator}

/-- The frame goes on at a block with a memory, in the same call and if a model makes its guard
true. -/
structure GoesTo (m : Model) (frame : Frame) (memory : Memory) (b : Int) (f : Frame) : Prop where
  function : f.function = frame.function
  callers : f.callers = frame.callers
  block : f.block = b
  memory : f.memory = memory
  guard : ∀ g, f.guard = some g → m.Satisfies g

/-- Where a run goes on after a terminator, one of the frames goes on. -/
theorem Tracks.leaves {b : Int} (h : Tracks env u m s st) (ht : x.Typed env.function)
    (hx : Leaves st x b) (hrun : Machine.Concludes options program frame env s x s' fs) :
    ∃ u' m', s.Carries m m' s' ∧ Tracks env u' m' s' st ∧
      ∃ f ∈ fs, GoesTo m' frame s'.memory b f := by
  cases hx with
  | goto =>
    cases hrun
    exact ⟨u, m, .refl, h, _, List.mem_singleton_self _, rfl, rfl, rfl, rfl,
      fun g hg => by cases hg⟩
  | @switch y values targets span c i b hc htakes htarget =>
    obtain _ | ⟨hlen, hd⟩ := hrun
    have hsim := (h.at_span span).operand ht hd
    rw [hc] at hsim
    obtain ⟨u', m', hk, hy⟩ := hsim.exists_of_ok
    obtain ⟨-, hsorted, -⟩ := h.realized.scope.operand hd
    obtain ⟨g, hg, hmem⟩ := exists_switchGuard hlen htarget _
    refine ⟨u', m', hk, hy.tracks.at_span env.span, frame.fork s'.memory b (some g) env.node,
      List.mem_map.mpr ⟨(b, g), hmem, rfl⟩, rfl, rfl, rfl, rfl, fun g' hg' => ?_⟩
    · cases hg'
      exact (satisfies_switchGuards hsorted hy.tracks.realized.exact hy.value hg).mpr htakes
  | @assert y expected b span hc =>
    obtain _ | _ | ⟨hd, hbool, -⟩ := hrun
    have hsim := (h.at_span span).operand ht hd
    rw [hc] at hsim
    obtain ⟨u', m', hk, hy⟩ := hsim.exists_of_ok
    obtain ⟨-, hsorted, -⟩ := h.realized.scope.operand hd
    obtain ⟨hsort, htrue⟩ := satisfies_assert expected hsorted hy.tracks.realized.exact hbool
      hy.value
    obtain ⟨htracks, hk'⟩ := (hy.tracks.at_span env.span).asserted
      (hsort.mono (Graph.scope_le_uses _ _)) (htrue.mpr rfl)
    exact ⟨u', m', hk.trans hk', htracks, _, List.mem_singleton_self _, rfl, rfl, rfl, rfl,
      fun g hg => by cases hg⟩

/-- A null dereference in a terminator is marked. -/
theorem Tracks.marked_of_reads {y : Operand} (h : Tracks env u m s st)
    (ht : x.Typed env.function) (hy : reads? x = some y) (hnull : Heap.operand st y = .error .null)
    (hrun : Machine.Concludes options program frame env s x s' fs) :
    ∃ m', s.Carries m m' s' ∧ s'.Marked m' env.node := by
  cases hrun with
  | @switch _ _ _ span _ _ _ hd =>
    cases hy
    have hsim := (h.at_span span).operand ht hd
    rw [hnull] at hsim
    exact hsim.exists_of_null
  | @assert _ expected _ span cond s₁ _ hd hbool =>
    cases hy
    have hsim := (h.at_span span).operand ht hd
    rw [hnull] at hsim
    obtain ⟨m₁, hk₁, hmarked⟩ := hsim.exists_of_null
    obtain ⟨hev, hsorted, -⟩ := h.realized.scope.operand hd
    have hfact : (Expr.mkEq cond (.bool expected)).HasSort s₁.graph.uses .bool :=
      Expr.HasSort.mkEq ⟨hsorted.mono (Graph.scope_le_uses _ _), hbool⟩ (.bool expected)
    obtain ⟨m₂, hk₂, hmarked'⟩ := hmarked.carry (.asserted hev.scope hfact)
    exact ⟨m₂, hk₁.trans hk₂, hmarked'⟩
  | goto | stop | enter | skip | finish | resume | unreachable => cases hy

/-- **A null dereference is marked.**  If the rest of a block dereferences a null pointer in a run,
then exploring the rest of the block tags a name whose value is zero. -/
theorem Tracks.faults {xs : List Statement} (h : Tracks env u m s st)
    (hxs : ∀ y ∈ xs, y.Typed env.function) (hx : x.Typed env.function)
    (hf : Faults env.function xs x st) (hs : Store.statements env xs s = (.ok (), s₁))
    (hrun : Machine.Concludes options program frame env s₁ x s' fs) :
    ∃ m', s.Carries m m' s' ∧ s'.Marked m' env.node := by
  induction hf generalizing u m s with
  | @here p rv span ss x st hnull =>
    rw [List.forall_mem_cons] at hxs
    obtain ⟨s₁, h₁, h₂⟩ := Store.statements_cons_eq_ok.mp hs
    have hsim := (h.at_span span).assign hxs.1 h₁
    rw [hnull] at hsim
    obtain ⟨m₁, hk₁, hmarked⟩ := hsim.exists_of_null
    obtain ⟨es, hev, -⟩ := h.realized.scope.statement h₁
    obtain ⟨es₁, hev₁, -⟩ := hev.scope.statements h₂
    obtain ⟨es₂, hev₂⟩ := hrun.evolves hev₁.scope
    obtain ⟨m₂, hk₂, hmarked'⟩ := hmarked.carry (hev₁.trans hev₂)
    exact ⟨m₂, hk₁.trans hk₂, hmarked'⟩
  | later hone _ ih =>
    rw [List.forall_mem_cons] at hxs
    obtain ⟨s₁, h₁, h₂⟩ := Store.statements_cons_eq_ok.mp hs
    obtain ⟨u₁, m₁, hk₁, htracks⟩ := h.exec hxs.1 hone h₁
    obtain ⟨m₂, hk₂, hmarked⟩ := ih htracks hxs.2 hx h₂ hrun
    exact ⟨m₂, hk₁.trans hk₂, hmarked⟩
  | last hy hnull =>
    obtain ⟨-, hM⟩ := Action.pure_eq_ok.mp hs
    rw [← hM] at h ⊢
    exact h.marked_of_reads hx hy hnull hrun

end Terminators

end Heap
end NullPath
