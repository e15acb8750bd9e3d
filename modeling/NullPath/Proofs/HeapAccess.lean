import NullPath.Proofs.HeapDescription

/-!
# Following places

While an exploration resolves a place, it reads one pointer after the other and tags each of them.
A run that follows the same place finds a cell, or it meets a pointer that is zero.  In the first
case the cell that the exploration ends at stands for the cell of the run.  In the second case the
name of the pointer has the value zero, and it has just been tagged.

The model grows on the way, because the first read of a cell declares a name for its content.

* `Heap.Simulates.bind`: one part after the other.
* `Heap.Tracks.fresh`, `Heap.Tracks.named`, `Heap.Tracks.look`: new names, and new names for cells.
* `Heap.Tracks.resolve`, `Heap.Tracks.readCopy`, `Heap.Tracks.readMove`: places and their contents.
-/

namespace NullPath

/-! ## Types of places -/

theorem Ty.exists_pointer_of_derefTimes {k : Nat} {t t' : Ty}
    (h : t.derefTimes (k + 1) = .ok t') : ∃ name, t.derefTimes k = .ok (.pointer name t') := by
  induction k generalizing t with
  | zero =>
    cases t with
    | pointer name elem =>
      cases elem <;> cases h <;> exact ⟨name, rfl⟩
    | untyped | other _ | bool _ | int _ => cases h
  | succ k ih =>
    rw [derefTimes] at h
    cases helem : t.elem? with
    | none =>
      rw [helem] at h
      cases h
    | some elem =>
      rw [helem] at h
      obtain ⟨name, hname⟩ := ih h
      refine ⟨name, ?_⟩
      rw [derefTimes, helem]
      exact hname

namespace Function

variable {f : Function} {i : Int} {l : LocalVar} {t : Ty} {p : Place}

theorem placeType_of_localVar? (hl : f.localVar? i = some l) : f.placeType ⟨i, 0⟩ = .ok l.type := by
  rw [placeType, hl]
  rfl

theorem placeSort_of_placeType (h : f.placeType p = .ok t) : f.placeSort p = t.sort := by
  rw [placeSort, h]

theorem exists_placeType {sort : ExprSort} (h : f.placeSort p = .ok sort) :
    ∃ t, f.placeType p = .ok t ∧ t.sort = .ok sort := by
  unfold placeSort at h
  split at h
  · next t ht => exact ⟨t, ht, h⟩
  · cases h

/-- What is dereferenced last is a pointer. -/
theorem exists_pointer_of_placeType {k : Nat} (h : f.placeType ⟨i, k + 1⟩ = .ok t) :
    ∃ name, f.placeType ⟨i, k⟩ = .ok (.pointer name t) := by
  cases hl : f.localVar? i with
  | none =>
    rw [placeType, hl] at h
    cases h
  | some l =>
    cases ht : l.type.derefTimes (k + 1) with
    | error t' => simp [placeType, hl, ht] at h
    | ok t' =>
      obtain rfl : t' = t := by simpa [placeType, hl, ht] using h
      obtain ⟨name, hname⟩ := Ty.exists_pointer_of_derefTimes ht
      exact ⟨name, by simp [placeType, hl, hname]⟩

end Function

namespace Heap

/-! ## Outcomes -/

/-- Another view of the same cells, with more pointers. -/
structure View.Widens (u u' : View) : Prop where
  types : u'.chart.types = u.chart.types
  pointers : ∀ n, u.pointers n → u'.pointers n

namespace View.Widens

variable {u u' u'' : View} {h : Cells} {t : Ty} {v : Constant}

theorem refl {u : View} : u.Widens u :=
  ⟨rfl, fun _ hn => hn⟩

theorem trans (hw : u.Widens u') (hw' : u'.Widens u'') : u.Widens u'' :=
  ⟨hw'.types.trans hw.types, fun n hn => hw'.pointers n (hw.pointers n hn)⟩

theorem see (u : View) (a : Int) (n : Name) : u.Widens (u.see a n) :=
  ⟨rfl, fun _ hn => .inl hn⟩

theorem fits (hw : u.Widens u') (hf : u.chart.Fits h t v) : u'.chart.Fits h t v := by
  cases t with
  | pointer _ elem =>
    refine ⟨hf.1, fun hv => ?_⟩
    rw [hw.types]
    exact hf.2 hv
  | untyped | other _ | bool _ | int _ => exact hf

end View.Widens

/-- An exploration at work on a node follows a run: a model makes what the node asserts true, and
describes the cells of the run. -/
structure Tracks (env : Env) (u : View) (m : Model) (s : Store) (st : State) : Prop where
  depth : env.depth = 0
  addressable : env.function.Addressable
  node : 0 ≤ env.node
  realized : s.Realized (fun _ => True) m env.node
  describes : Describes env.function u m s st

/-- A part of an exploration against the outcome of the same part of a run.  If the run has a
result, the model can be carried on and is related to it; if the run dereferences a null pointer,
this is marked at the node.  Nothing is said about a run that is stuck. -/
inductive Simulates {α : Type} (i : Int) (m : Model) (s s' : Store)
    (R : View → Model → α → Prop) : Except Stop α → Prop
  | value {u : View} {m' : Model} {a : α} :
    s.Carries m m' s' → R u m' a → Simulates i m s s' R (.ok a)
  | null {m' : Model} : s.Carries m m' s' → s'.Marked m' i → Simulates i m s s' R (.error .null)
  | stuck : Simulates i m s s' R (.error .stuck)

namespace Simulates

variable {α β : Type} {i : Int} {m m₁ : Model} {s s₁ s' : Store} {es : List Expr}
  {R R₁ : View → Model → α → Prop} {R' : View → Model → β → Prop}

theorem exists_of_ok {a : α} (h : Simulates i m s s' R (.ok a)) :
    ∃ u m', s.Carries m m' s' ∧ R u m' a := by
  cases h with
  | value hk hr => exact ⟨_, _, hk, hr⟩

theorem exists_of_null (h : Simulates i m s s' R (.error .null)) :
    ∃ m', s.Carries m m' s' ∧ s'.Marked m' i := by
  cases h with
  | null hk hmarked => exact ⟨_, hk, hmarked⟩

/-- An outcome against a model that was carried on before. -/
theorem carried {x : Except Stop α} (hk : s.Carries m m₁ s₁) (h : Simulates i m₁ s₁ s' R x)
    (hR : ∀ u m' a, R u m' a → R₁ u m' a) : Simulates i m s s' R₁ x := by
  cases h with
  | value hk' hr => exact .value (hk.trans hk') (hR _ _ _ hr)
  | null hk' hmarked => exact .null (hk.trans hk') hmarked
  | stuck => exact .stuck

/-- Two parts one after the other.  If the first one ends at a null pointer, the mark is still there
after the second one. -/
theorem bind {x : Except Stop α} {g : α → Except Stop β} (h : Simulates i m s s₁ R x)
    (hev : s₁.Evolves (fun _ => True) i es s')
    (hg : ∀ u m₁ a, s.Carries m m₁ s₁ → R u m₁ a → Simulates i m₁ s₁ s' R' (g a)) :
    Simulates i m s s' R' (x >>= g) := by
  cases h with
  | value hk hr => exact (hg _ _ _ hk hr).carried hk fun _ _ _ h => h
  | null hk hmarked =>
    obtain ⟨m', hk', hmarked'⟩ := hmarked.carry hev
    exact .null (hk.trans hk') hmarked'
  | stuck => exact .stuck

end Simulates

/-! ## Steps of an exploration without a step of the run -/

variable {env : Env} {u u₀ : View} {m m' : Model} {s s' : Store} {st : State} {c : Cell} {a : Int}
  {n : Name} {v : Constant} {t : Ty} {p : Place} {d : Declaration}

/-- New names and their values do not change what a cell of the memory stands for. -/
theorem View.At.grown {f : Function} (h : u.At f m s.memory st c a)
    (hd : Describes f u m s st) (hk : s.Carries m m' s') (hmem : s'.memory = s.memory) :
    u.At f m' s'.memory st c a := by
  cases h with
  | slot hl ha =>
    rw [← hmem] at ha
    exact .slot hl ha
  | behind hn hm ha =>
    rw [← hk.keeps _ (hd.known _ hn)] at hm
    exact .behind hn hm ha

/-- The content of a cell of a type, under a name of the exploration. -/
structure Reads (env : Env) (u : View) (st : State) (s : Store) (n : Name) (t : Ty) (u' : View)
    (m : Model) (v : Constant) : Prop where
  tracks : Tracks env u' m s st
  widens : u.Widens u'
  value : m.get? n = some v
  fits : u'.chart.Fits st.cells t.shape v
  pointer : t.isPointer = true → u'.pointers n

/-- The cell of a place of a type, which a cell of the memory stands for. -/
structure Leads (env : Env) (u : View) (st : State) (s : Store) (c : Cell) (t : Ty) (u' : View)
    (m : Model) (a : Int) : Prop where
  tracks : Tracks env u' m s st
  widens : u.Widens u'
  cell : u'.At env.function m s.memory st c a
  type : u'.chart.types a = t.shape

namespace Tracks

variable {sort : ExprSort}

section

variable (h : Tracks env u m s st)
include h

theorem at_span (span : Span) : Tracks { env with span } u m s st :=
  ⟨h.depth, h.addressable, h.node, h.realized, h.describes⟩

/-- A cell of the memory that stands for something lies behind a known name, if it lies behind
one. -/
theorem locates (hat : u.At env.function m s.memory st c a) : s.Locates (fun _ => True) c := by
  rintro q rfl
  cases hat with
  | behind hn _ _ => exact h.describes.known q hn

/-- A new name can take any value of its sort, and it is not a pointer yet. -/
theorem fresh (hv : v.HasSort sort) :
    Tracks env u (m.insert s.nextName v) (s.declared sort) st ∧
      s.Carries m (m.insert s.nextName v) (s.declared sort) ∧
      (m.insert s.nextName v).get? s.nextName = some v := by
  obtain ⟨hr, hkeeps⟩ := h.realized.fresh hv
  have hk : s.Carries m (m.insert s.nextName v) (s.declared sort) := by
    refine ⟨?_, hkeeps⟩
    rw [Store.declared, Graph.length_declare]
    exact Nat.le_succ _
  refine ⟨{ h with realized := hr, describes := h.describes.grown h.realized.scope hk rfl }, hk, ?_⟩
  rw [Assoc.get?_insert, if_pos rfl]

theorem not_pointers_nextName : ¬u.pointers s.nextName :=
  fun hn => absurd (h.describes.known _ hn).2 (Nat.lt_irrefl _)

theorem get?_behind_nextName : s.memory.get? (.behind s.nextName) = none := by
  cases hb : s.memory.get? (.behind s.nextName) with
  | none => rfl
  | some b => exact absurd (h.realized.scope.mentions _ (.pointer hb)).2 (Nat.lt_irrefl _)

/-- Binding a cell of the memory to a name, and writing the value of the name to the cell that it
stands for. -/
theorem rebind (moved : Bool) (hat : u.At env.function m s.memory st c a)
    (hv : u.chart.Fits st.cells (u.chart.types a) v) (hn : m.get? n = some v)
    (hknown : s.Knows (fun _ => True) n)
    (hp : (u.chart.types a).isPointer = true → u.Admits s.memory st a n v) :
    Tracks env (u.see a n) m (s.bound c ⟨n, moved⟩) { st with cells := st.cells.set a v } ∧
      s.Carries m m (s.bound c ⟨n, moved⟩) := by
  have hev : s.Evolves (fun _ => True) env.node [] (s.bound c ⟨n, moved⟩) :=
    .bound h.realized.scope (h.locates hat) hknown
  refine ⟨{ h with
    realized := h.realized.grown hev .refl h.realized.exact
    describes := h.describes.rebind hv hn hp h.addressable hat hknown }, .of_evolves hev .refl⟩

/-- Binding a cell of the memory to a new name.  If the name is for a pointer that is not null,
then it is what an unread cell holds. -/
theorem named (hat : u.At env.function m s.memory st c a) (hsort : v.HasSort sort)
    (hfits : u.chart.Fits st.cells (u.chart.types a) v)
    (hp : (u.chart.types a).isPointer = true → v.value ≠ 0 →
      u.chart.unread a ∧ st.cells a = some v) :
    Tracks env (u.see a s.nextName) (m.insert s.nextName v)
        ((s.declared sort).bound c ⟨s.nextName, false⟩) { st with cells := st.cells.set a v } ∧
      s.Carries m (m.insert s.nextName v) ((s.declared sort).bound c ⟨s.nextName, false⟩) ∧
      (m.insert s.nextName v).get? s.nextName = some v := by
  obtain ⟨hfresh, hk, hvalue⟩ := h.fresh hsort
  obtain ⟨hbound, hk'⟩ := hfresh.rebind false (hat.grown h.describes hk rfl) hfits hvalue
    h.realized.scope.knows_nextName
    fun hpt => .inr ⟨h.not_pointers_nextName, h.get?_behind_nextName, hp hpt⟩
  exact ⟨hbound, hk.trans hk', hvalue⟩

/-- A true assertion is no change for the cells. -/
theorem asserted {e : Expr} (he : e.HasSort s.graph.uses .bool)
    (ht : m.Satisfies e) :
    Tracks env u m (s.asserted env.node e) st ∧ s.Carries m m (s.asserted env.node e) := by
  have hk : s.Carries m m (s.asserted env.node e) := ⟨Nat.le_refl _, .refl⟩
  exact ⟨{ h with
    realized := h.realized.asserted he ht h.node
    describes := h.describes.grown h.realized.scope hk rfl }, hk⟩

/-- Tagging a name is no change for the cells. -/
theorem tagged (hn : s.Knows (fun _ => True) n) :
    Tracks env u m (s.tagged env n d) st ∧ s.Carries m m (s.tagged env n d) := by
  have hev : s.Evolves (fun _ => True) env.node [] (s.tagged env n d) :=
    .tagged h.realized.scope hn
  have hk := Store.Carries.of_evolves hev (.refl (m := m))
  have hmem : (s.tagged env n d).memory = s.memory := by
    unfold Store.tagged
    split <;> rfl
  have hlen : (s.tagged env n d).graph.decls.length = s.graph.decls.length := by
    unfold Store.tagged
    split
    · rfl
    · exact List.length_modify _ _ _
  refine ⟨{ h with
    realized := h.realized.grown hev .refl ?_
    describes := h.describes.grown h.realized.scope hk hmem }, hk⟩
  rintro q sort ⟨-, d', hd', hsort⟩
  have hlt := lt_length_of_getElem? hd'
  rw [hlen] at hlt
  exact h.realized.exact q sort ⟨trivial, (hev.grows.declares_iff hlt).mp ⟨d', hd', hsort⟩⟩

/-- Looking at a cell for the first time: a new name gets the content as value. -/
theorem look (hat : u.At env.function m s.memory st c a) (hnone : s.memory.get? c = none)
    (ht : u.chart.types a = t.shape) (hsort : t.sort = .ok sort) :
    ∃ m' v, st.cells a = some v ∧
      s.Carries m m' ((s.declared sort).bound c ⟨s.nextName, false⟩) ∧
      Reads env u st ((s.declared sort).bound c ⟨s.nextName, false⟩) s.nextName t
        (u.see a s.nextName) m' v := by
  obtain ⟨v, hv⟩ := h.describes.has hat
  have hfits := (h.describes.laid.shaped.typed a v hv).2
  obtain ⟨hbound, hk, hvalue⟩ := h.named hat (Chart.Fits.hasSort (ht ▸ hfits) hsort) hfits
    fun _ _ => ⟨h.describes.unbound c a hat hnone, hv⟩
  rw [Cells.set_eq_self hv] at hbound
  refine ⟨_, v, hv, hk, hbound, .see u a _, hvalue, ?_, fun hp => .inr ⟨rfl, ?_⟩⟩
  · rw [← ht]
    exact (View.Widens.see u a _).fits hfits
  · rw [ht, Ty.isPointer_shape, hp]

end

end Tracks

/-! ## Places -/

/-- The content of the cell that was found. -/
theorem Leads.readCell (h : Leads env u₀ st s c t u m a) (ht : env.function.placeType p = .ok t)
    (hr : Store.readCell env p c s = (.ok n, s')) :
    ∃ u' m' v, st.cells a = some v ∧ s.Carries m m' s' ∧ Reads env u₀ st s' n t u' m' v := by
  rcases Store.readCell_eq_ok hr with ⟨hb, rfl⟩ | ⟨hnone, -, sort, hsort, rfl, rfl⟩
  · obtain ⟨v, hv⟩ := h.tracks.describes.has h.cell
    obtain ⟨hval, hpt⟩ := h.tracks.describes.bound c a _ h.cell hb
    refine ⟨u, m, v, hv, .refl, h.tracks, h.widens, hval.trans hv, ?_, fun hp => hpt ?_⟩
    · rw [← h.type]
      exact (h.tracks.describes.laid.shaped.typed a v hv).2
    · rw [h.type, Ty.isPointer_shape, hp]
  · rw [Function.placeSort_of_placeType ht] at hsort
    obtain ⟨m', v, hv, hk, hreads⟩ := h.tracks.look h.cell hnone h.type hsort
    exact ⟨_, m', v, hv, hk, { hreads with widens := h.widens.trans hreads.widens }⟩

/-- A name that has been tagged has a tag for the node. -/
theorem exists_tag_of_tagged (hd : s.graph.declaration? n = some d) :
    ∃ d' tag, (s.tagged env n d).graph.declaration? n = some d' ∧ tag ∈ d'.derefs ∧
      tag.node = env.node := by
  unfold Store.tagged
  split
  · next hat =>
    obtain ⟨tag, htag, hnode⟩ := List.any_eq_true.mp hat
    exact ⟨d, tag, hd, htag, beq_iff_eq.mp hnode⟩
  · refine ⟨_, ⟨env.node, env.span⟩, Graph.getElem?_tag hd, ?_, rfl⟩
    rw [if_pos rfl]
    exact List.mem_append_right _ (List.mem_singleton_self _)

/-- Following a pointer that has been read.  Its name is tagged, whatever its value. -/
theorem Reads.follow {name : String} (h : Reads env u₀ st s n (.pointer name t) u m v)
    (hd : s.graph.declaration? n = some d) :
    Simulates env.node m s (s.tagged env n d)
      (Leads env u₀ st (s.tagged env n d) (.behind n) t) (State.follow v) := by
  have hn : u.pointers n := h.pointer rfl
  obtain ⟨htracks, hk⟩ := h.tracks.tagged (h.tracks.describes.known n hn)
  have hint : v = .ofInt v.value := h.fits.1.eq_ofInt
  have hvalue : m.get? n = some (.ofInt v.value) := by rw [h.value, ← hint]
  unfold State.follow
  split
  · next hzero =>
    obtain ⟨d', tag, hd', htag, hnode⟩ := exists_tag_of_tagged hd
    rw [hzero] at hvalue
    exact .null hk ⟨htracks.realized.exact, n, d', tag, hd', htag, hnode, hvalue⟩
  · next hne => exact .value hk ⟨htracks, h.widens, .behind hn hvalue hne, (h.fits.2 hne).2⟩

namespace Tracks

theorem resolveAt {base : Int} {k : Nat} (h : Tracks env u m s st)
    (ht : env.function.placeType ⟨base, k⟩ = .ok t)
    (hr : Store.resolveAt env base k s = (.ok c, s')) :
    Simulates env.node m s s' (Leads env u st s' c t) (st.addressAt base k) := by
  induction k generalizing t c s' with
  | zero =>
    obtain ⟨⟨l, hl⟩, rfl, rfl⟩ := Store.resolveAt_zero_eq_ok.mp hr
    rw [Function.placeType_of_localVar? hl] at ht
    cases ht
    refine .value .refl ⟨h, .refl, ?_, h.describes.laid.types base l hl trivial⟩
    rw [h.depth]
    exact h.describes.at_local hl
  | succ k ih =>
    obtain ⟨c₀, s₁, pointer, s₂, d, hc₀, hp, hd, rfl, rfl⟩ := Store.resolveAt_succ_eq_ok hr
    obtain ⟨name, hptr⟩ := Function.exists_pointer_of_placeType ht
    obtain ⟨h₁, hloc⟩ := h.realized.scope.resolveAt hc₀
    obtain ⟨h₂, hknown⟩ := h₁.scope.readCell (i := env.node) hloc hp
    have h₃ : s₂.Evolves (fun _ => True) env.node [] (s₂.tagged env pointer d) :=
      .tagged h₂.scope hknown
    refine (ih hptr hc₀).bind (h₂.trans h₃) fun u₁ m₁ a _ hleads => ?_
    obtain ⟨u₂, m₂, v, hv, hk, hreads⟩ := hleads.readCell hptr hp
    rw [hv]
    exact (hreads.follow hd).carried hk fun _ _ _ hl => hl

theorem resolve (h : Tracks env u m s st) (ht : env.function.placeType p = .ok t)
    (hr : Store.resolve env p s = (.ok c, s')) :
    Simulates env.node m s s' (Leads env u st s' c t) (st.address p) :=
  h.resolveAt ht hr

theorem readCopy (h : Tracks env u m s st) (ht : env.function.placeType p = .ok t)
    (hr : Store.readCopy env p s = (.ok n, s')) :
    Simulates env.node m s s' (Reads env u st s' n t) (st.read p) := by
  obtain ⟨c, s₁, hc, hn⟩ := Store.readCopy_eq_ok.mp hr
  obtain ⟨h₁, hloc⟩ := h.realized.scope.resolve hc
  obtain ⟨h₂, -⟩ := h₁.scope.readCell hloc hn
  refine (h.resolve ht hc).bind h₂ fun u₁ m₁ a _ hleads => ?_
  obtain ⟨u₂, m₂, v, hv, hk, hreads⟩ := hleads.readCell ht hn
  rw [hv]
  exact .value hk hreads

end Tracks

theorem State.read_eq_ok (h : st.read p = .ok v) :
    ∃ a, st.address p = .ok a ∧ st.cells a = some v := by
  unfold State.read at h
  cases haddr : st.address p with
  | error stop =>
    rw [haddr] at h
    cases h
  | ok a =>
    refine ⟨a, rfl, ?_⟩
    rw [haddr] at h
    cases hcell : st.cells a with
    | none =>
      simp only [Bind.bind, Except.bind, hcell, orStuck] at h
      cases h
    | some w =>
      simp only [Bind.bind, Except.bind, hcell, orStuck] at h
      cases h
      rfl

/-- Binding the cell of a place to a name that has its content already, as a move does. -/
theorem Leads.rebind_self (h : Leads env u₀ st s c t u m a) (hv : st.cells a = some v)
    (hn : m.get? n = some v) (hknown : s.Knows (fun _ => True) n)
    (hp : t.isPointer = true → u.pointers n) :
    Tracks env (u.see a n) m (s.bound c ⟨n, true⟩) st ∧ s.Carries m m (s.bound c ⟨n, true⟩) := by
  have hfits := (h.tracks.describes.laid.shaped.typed a v hv).2
  have hadmits : (u.chart.types a).isPointer = true → u.Admits s.memory st a n v := by
    intro ht
    rw [h.type, Ty.isPointer_shape] at ht
    exact .inl (hp ht)
  have hbound := h.tracks.rebind true h.cell hfits hn hknown hadmits
  rwa [Cells.set_eq_self hv] at hbound

/-- A move reads a place and finds it a second time.  The content stays where it was. -/
theorem Tracks.readMove (h : Tracks env u m s st) (ht : env.function.placeType p = .ok t)
    (hr : Store.readMove env p s = (.ok n, s')) :
    Simulates env.node m s s' (Reads env u st s' n t) (st.read p) := by
  obtain ⟨s₁, c, s₂, hn, hc, rfl⟩ := Store.readMove_eq_ok.mp hr
  obtain ⟨h₁, hknown⟩ := h.realized.scope.readCopy hn
  obtain ⟨h₂, hloc⟩ := h₁.scope.resolve hc
  have h₃ : s₂.Evolves (fun _ => True) env.node [] (s₂.bound c ⟨n, true⟩) :=
    .bound h₂.scope hloc (h₂.knows hknown)
  cases hread : st.read p with
  | error stop =>
    have hsim := h.readCopy ht hn
    rw [hread] at hsim
    cases stop with
    | null =>
      obtain ⟨m₁, hk₁, hmarked⟩ := hsim.exists_of_null
      obtain ⟨m₂, hk₂, hmarked'⟩ := hmarked.carry (h₂.trans h₃)
      exact .null (hk₁.trans hk₂) hmarked'
    | stuck => exact .stuck
  | ok v =>
    have hsim := h.readCopy ht hn
    rw [hread] at hsim
    obtain ⟨u₁, m₁, hk₁, hreads⟩ := hsim.exists_of_ok
    -- the place has an address, so it is found again
    obtain ⟨a, ha, hv⟩ := State.read_eq_ok hread
    have hsim₂ := hreads.tracks.resolve ht hc
    rw [ha] at hsim₂
    obtain ⟨u₂, m₂, hk₂, hleads⟩ := hsim₂.exists_of_ok
    have hvalue : m₂.get? n = some v := by rw [hk₂.keeps n hknown, hreads.value]
    have hpointer : t.isPointer = true → u₂.pointers n := fun hp =>
      hleads.widens.pointers n (hreads.pointer hp)
    obtain ⟨htracks, hk₃⟩ := hleads.rebind_self hv hvalue (h₂.knows hknown) hpointer
    have hwidens := (hreads.widens.trans hleads.widens).trans (.see u₂ a n)
    exact .value (hk₁.trans (hk₂.trans hk₃)) ⟨htracks, hwidens, hvalue,
      (hleads.widens.trans (.see u₂ a n)).fits hreads.fits, fun hp => .inl (hpointer hp)⟩

end Heap
end NullPath
