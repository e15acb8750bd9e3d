import NullPath.Proofs.Heap

/-!
# The shape of the cells

Cells have types, and a pointer leads to a cell of the type behind its own.  Some cells have not
been looked at since they were new.  A run knows nothing about their contents, and this can be
said more precisely: what an unread cell leads to is unread as well, no two unread cells lead to
the same cell, and nothing else leads there.  New storage brings in unread cells and hides nothing
that was there before.

* `Heap.Chart.Grows`, `Heap.Chart.see`: new cells, and cells that have been looked at.
* `Heap.Chart.Laid`: the storage of locals among the cells.
* `Heap.Chart.Laid.renew`, `Heap.Stores.exists_chart`: new storage, and the entry.
-/

namespace NullPath

@[simp] theorem Ty.isPointer_shape (t : Ty) : t.shape.isPointer = t.isPointer := by
  cases t <;> rfl

namespace Heap

namespace Cells

variable {h : Cells} {a b : Int} {v w : Constant}

/-- There is a cell with this address. -/
def Has (h : Cells) (a : Int) : Prop :=
  ∃ v, h a = some v

theorem Has.of_eq (hv : h a = some v) : h.Has a :=
  ⟨v, hv⟩

theorem not_has (hn : h a = none) : ¬h.Has a := by
  rintro ⟨v, hv⟩
  rw [hn] at hv
  cases hv

@[simp] theorem set_same (h : Cells) (a : Int) (v : Constant) : h.set a v a = some v :=
  if_pos rfl

theorem set_of_ne (h : Cells) (v : Constant) (hne : b ≠ a) : h.set a v b = h b :=
  if_neg hne

/-- Writing what a cell holds changes nothing. -/
theorem set_eq_self (hv : h a = some v) : h.set a v = h := by
  funext b
  by_cases hb : b = a
  · rw [hb, set_same, hv]
  · exact set_of_ne h v hb

theorem Has.set (hb : h.Has b) : (h.set a v).Has b := by
  obtain ⟨w, hw⟩ := hb
  by_cases hba : b = a
  · exact ⟨v, by rw [hba, set_same]⟩
  · exact ⟨w, by rw [set_of_ne h v hba, hw]⟩

/-- Writing a new cell leaves the others alone. -/
theorem set_new (ha : h a = none) (hw : h b = some w) : h.set a v b = some w := by
  rw [set_of_ne h v, hw]
  rintro rfl
  rw [ha] at hw
  cases hw

end Cells

/-! ## Charts -/

/-- What is known about cells beyond their contents: their types, and which of them have not been
looked at since they were new. -/
structure Chart where
  types : Int → Ty
  unread : Int → Prop

namespace Chart

variable {γ γ' : Chart} {h h' : Cells} {t : Ty} {a b : Int} {v w : Constant}
  {sort : ExprSort}

/-- The value belongs to a type.  A pointer is zero or leads to a cell of the type behind it. -/
def Fits (γ : Chart) (h : Cells) : Ty → Constant → Prop
  | .int _, v => v.HasSort .int
  | .bool _, v => v.HasSort .bool
  | .pointer _ elem, v => v.HasSort .int ∧ (v.value ≠ 0 → h.Has v.value ∧ γ.types v.value = elem)
  | _, _ => True

theorem Fits.pointer (hf : γ.Fits h t v) (ht : t.isPointer = true) :
    v = .ofInt v.value ∧ (v.value ≠ 0 → h.Has v.value) := by
  cases t with
  | pointer _ _ => exact ⟨hf.1.eq_ofInt, fun hv => (hf.2 hv).1⟩
  | untyped | other _ | bool _ | int _ => cases ht

/-- A value of a type that has a sort is a value of this sort. -/
theorem Fits.hasSort (hf : γ.Fits h t.shape v) (ht : t.sort = .ok sort) : v.HasSort sort := by
  cases t with
  | untyped | other _ => cases ht
  | bool _ | int _ =>
    cases ht
    exact hf
  | pointer _ _ =>
    cases ht
    exact hf.1

/-- A value of the sort of a type belongs to the type, unless this is a pointer type. -/
theorem fits_of_hasSort (ht : t.sort = .ok sort) (hp : t.isPointer = false) (hv : v.HasSort sort) :
    γ.Fits h t.shape v := by
  cases t with
  | untyped | other _ => cases ht
  | bool _ | int _ =>
    cases ht
    exact hv
  | pointer _ _ => cases hp

theorem fits_null (hp : t.isPointer = true) : γ.Fits h t.shape (.ofInt 0) := by
  cases t with
  | pointer _ _ => exact ⟨rfl, absurd rfl⟩
  | untyped | other _ | bool _ | int _ => cases hp

/-- An unread cell leads to this cell. -/
def Hides (γ : Chart) (h : Cells) (b : Int) : Prop :=
  b ≠ 0 ∧ ∃ a v, γ.unread a ∧ (γ.types a).isPointer = true ∧ h a = some v ∧ v.value = b

/-- The chart describes the cells.  Contents have the types of their cells; what an unread cell
leads to is unread, and no two unread cells lead to one. -/
structure Shaped (γ : Chart) (h : Cells) : Prop where
  typed : ∀ a v, h a = some v → a ≠ 0 ∧ γ.Fits h (γ.types a) v
  unread : ∀ a, γ.unread a → h.Has a
  beyond : ∀ b, γ.Hides h b → γ.unread b
  distinct : ∀ a b v w, γ.unread a → γ.unread b → (γ.types a).isPointer = true →
    (γ.types b).isPointer = true → h a = some v → h b = some w → v.value = w.value →
    v.value ≠ 0 → a = b

theorem Shaped.ne_zero (hs : γ.Shaped h) (ha : h.Has a) : a ≠ 0 := by
  obtain ⟨v, hv⟩ := ha
  exact (hs.typed a v hv).1

/-- What is hidden exists. -/
theorem Shaped.has_of_hides (hs : γ.Shaped h) (hb : γ.Hides h b) : h.Has b :=
  hs.unread b (hs.beyond b hb)

/-! ## New cells -/

/-- New cells are unread and hide none of the old ones, and these keep their contents and their
charts. -/
structure Grows (γ : Chart) (h : Cells) (γ' : Chart) (h' : Cells) : Prop where
  cells : ∀ a v, h a = some v → h' a = some v
  types : ∀ a, h.Has a → γ'.types a = γ.types a
  unread : ∀ a, h'.Has a → (γ'.unread a ↔ (h.Has a → γ.unread a))
  hides : ∀ b, h.Has b → γ'.Hides h' b → γ.Hides h b

namespace Grows

theorem refl {γ : Chart} {h : Cells} : γ.Grows h γ h :=
  ⟨fun _ _ hv => hv, fun _ _ => rfl, fun _ ha => ⟨fun hu _ => hu, fun hu => hu ha⟩,
    fun _ _ hb => hb⟩

theorem has (hg : γ.Grows h γ' h') (ha : h.Has a) : h'.Has a := by
  obtain ⟨v, hv⟩ := ha
  exact ⟨v, hg.cells a v hv⟩

theorem unread_iff (hg : γ.Grows h γ' h') (ha : h.Has a) : γ'.unread a ↔ γ.unread a :=
  (hg.unread a (hg.has ha)).trans (forall_prop_of_true ha)

end Grows

/-- The chart with a new unread cell. -/
def alloc (γ : Chart) (a : Int) (t : Ty) : Chart where
  types b := if b = a then t else γ.types b
  unread b := γ.unread b ∨ b = a

theorem types_alloc_of_ne (hne : b ≠ a) : (γ.alloc a t).types b = γ.types b :=
  if_neg hne

@[simp] theorem types_alloc_same : (γ.alloc a t).types a = t :=
  if_pos rfl

/-- A new cell hides only what it leads to. -/
theorem hides_alloc (hb : (γ.alloc a t).Hides (h.set a v) b) :
    γ.Hides h b ∨ (t.isPointer = true ∧ v.value = b ∧ b ≠ 0) := by
  obtain ⟨hb₀, c, w, hc, ht, hw, hwb⟩ := hb
  by_cases hca : c = a
  · subst hca
    rw [types_alloc_same] at ht
    rw [Cells.set_same] at hw
    cases hw
    exact .inr ⟨ht, hwb, hb₀⟩
  · rw [types_alloc_of_ne hca] at ht
    rw [Cells.set_of_ne h v hca] at hw
    exact .inl ⟨hb₀, c, w, hc.resolve_right hca, ht, hw, hwb⟩

/-- Chart and cells grow by a new cell that leads to nothing old. -/
theorem Grows.alloc (hg : γ.Grows h γ' h') (ha : h' a = none)
    (hnew : t.isPointer = true → v.value ≠ 0 → ¬h.Has v.value) :
    γ.Grows h (γ'.alloc a t) (h'.set a v) := by
  have hne : ∀ b, h.Has b → b ≠ a := by
    rintro b hb rfl
    exact Cells.not_has ha (hg.has hb)
  refine ⟨fun b w hw => Cells.set_new ha (hg.cells b w hw), fun b hb => ?_, fun b hb => ?_,
    fun b hb hh => ?_⟩
  · rw [types_alloc_of_ne (hne b hb), hg.types b hb]
  · by_cases hba : b = a
    · refine iff_of_true (.inr hba) fun hold => absurd hba (hne b hold)
    · obtain ⟨w, hw⟩ := hb
      rw [Cells.set_of_ne h' v hba] at hw
      exact (or_iff_left hba).trans (hg.unread b ⟨w, hw⟩)
  · rcases hides_alloc hh with hold | ⟨ht, rfl, hv⟩
    · exact hg.hides b hb hold
    · exact absurd hb (hnew ht hv)

/-- A new cell may lead to an unread cell that nothing else leads to. -/
theorem Shaped.alloc (hs : γ.Shaped h) (ha₀ : a ≠ 0) (ha : h a = none) (hv : γ.Fits h t v)
    (hfree : t.isPointer = true → v.value ≠ 0 → γ.unread v.value ∧ ¬γ.Hides h v.value) :
    (γ.alloc a t).Shaped (h.set a v) := by
  have hfits : ∀ t' w, γ.Fits h t' w → (γ.alloc a t).Fits (h.set a v) t' w := by
    intro t' w hw
    cases t' with
    | pointer _ elem =>
      refine ⟨hw.1, fun hw₀ => ?_⟩
      obtain ⟨hhas, htype⟩ := hw.2 hw₀
      have hne : w.value ≠ a := by
        intro heq
        rw [heq] at hhas
        exact Cells.not_has ha hhas
      exact ⟨hhas.set, by rw [types_alloc_of_ne hne, htype]⟩
    | untyped | other _ | bool _ | int _ => exact hw
  refine ⟨fun b w hw => ?_, fun b hb => ?_, fun b hb => ?_, ?_⟩
  · by_cases hba : b = a
    · subst hba
      rw [Cells.set_same] at hw
      cases hw
      rw [types_alloc_same]
      exact ⟨ha₀, hfits t v hv⟩
    · rw [Cells.set_of_ne h v hba] at hw
      rw [types_alloc_of_ne hba]
      exact ⟨(hs.typed b w hw).1, hfits _ w (hs.typed b w hw).2⟩
  · rcases hb with hb | rfl
    · exact (hs.unread b hb).set
    · exact ⟨v, Cells.set_same h b v⟩
  · rcases hides_alloc hb with hold | ⟨ht, rfl, hv₀⟩
    · exact .inl (hs.beyond b hold)
    · exact .inl (hfree ht hv₀).1
  · -- two unread cells with one content: both are old, or the old one would hide the content
    have hnew : ∀ c w, γ.unread c → c ≠ a → ((γ.alloc a t).types c).isPointer = true →
        h.set a v c = some w → t.isPointer = true → v.value = w.value → v.value ≠ 0 → False := by
      intro c w hc hca htc hw ht heq hv₀
      rw [types_alloc_of_ne hca] at htc
      rw [Cells.set_of_ne h v hca] at hw
      exact (hfree ht hv₀).2 ⟨hv₀, c, w, hc, htc, hw, heq.symm⟩
    intro b c w x hb hc htb htc hw hx heq hw₀
    by_cases hba : b = a <;> by_cases hca : c = a
    · rw [hba, hca]
    · subst hba
      rw [types_alloc_same] at htb
      rw [Cells.set_same] at hw
      cases hw
      exact (hnew c x (hc.resolve_right hca) hca htc hx htb heq hw₀).elim
    · subst hca
      rw [types_alloc_same] at htc
      rw [Cells.set_same] at hx
      cases hx
      exact (hnew b w (hb.resolve_right hba) hba htb hw htc heq.symm (heq ▸ hw₀)).elim
    · rw [types_alloc_of_ne hba] at htb
      rw [types_alloc_of_ne hca] at htc
      rw [Cells.set_of_ne h v hba] at hw
      rw [Cells.set_of_ne h v hca] at hx
      exact hs.distinct b c w x (hb.resolve_right hba) (hc.resolve_right hca) htb htc hw hx heq hw₀

/-- Nothing leads to a new cell. -/
theorem Shaped.not_hides_alloc (hs : γ.Shaped h) (ha : h a = none) (hv : γ.Fits h t v) :
    ¬(γ.alloc a t).Hides (h.set a v) a := by
  intro hh
  rcases hides_alloc hh with hold | ⟨ht, hva, ha₀⟩
  · exact Cells.not_has ha (hs.has_of_hides hold)
  · rw [← hva] at ha₀
    have hhas := (hv.pointer ht).2 ha₀
    rw [hva] at hhas
    exact Cells.not_has ha hhas

/-! ## Looking at cells and writing them -/

/-- The chart once some cells have been looked at. -/
def see (γ : Chart) (A : Int → Prop) : Chart where
  types := γ.types
  unread b := γ.unread b ∧ ¬A b

variable {A : Int → Prop}

theorem fits_see : (γ.see A).Fits h t v ↔ γ.Fits h t v := by
  cases t <;> rfl

/-- Looking at cells hides nothing. -/
theorem hides_of_see (hb : (γ.see A).Hides h b) : γ.Hides h b := by
  obtain ⟨hb₀, c, w, ⟨hc, -⟩, ht, hw, hwb⟩ := hb
  exact ⟨hb₀, c, w, hc, ht, hw, hwb⟩

/-- Cells that are not hidden can be looked at. -/
theorem Shaped.see (hs : γ.Shaped h) (hA : ∀ a, A a → ¬γ.Hides h a) : (γ.see A).Shaped h := by
  refine ⟨fun a v hv => ?_, fun a ha => hs.unread a ha.1, fun b hb => ?_, ?_⟩
  · exact ⟨(hs.typed a v hv).1, fits_see.mpr (hs.typed a v hv).2⟩
  · have hold := hides_of_see hb
    exact ⟨hs.beyond b hold, fun hAb => hA b hAb hold⟩
  · intro b c w x hb hc
    exact hs.distinct b c w x hb.1 hc.1

/-- Writing a cell that has been looked at hides nothing. -/
theorem hides_of_set (hu : ¬γ.unread a) (hb : γ.Hides (h.set a v) b) : γ.Hides h b := by
  obtain ⟨hb₀, c, w, hc, ht, hw, hwb⟩ := hb
  have hca : c ≠ a := by
    rintro rfl
    exact hu hc
  rw [Cells.set_of_ne h v hca] at hw
  exact ⟨hb₀, c, w, hc, ht, hw, hwb⟩

theorem Fits.set (hf : γ.Fits h t w) : γ.Fits (h.set a v) t w := by
  cases t with
  | pointer _ elem => exact ⟨hf.1, fun hw => ⟨(hf.2 hw).1.set, (hf.2 hw).2⟩⟩
  | untyped | other _ | bool _ | int _ => exact hf

/-- A cell that has been looked at can be written. -/
theorem Shaped.set (hs : γ.Shaped h) (ha : h.Has a) (hu : ¬γ.unread a)
    (hv : γ.Fits h (γ.types a) v) : γ.Shaped (h.set a v) := by
  have hne : ∀ b, γ.unread b → b ≠ a := by
    rintro b hb rfl
    exact hu hb
  refine ⟨fun b w hw => ?_, fun b hb => (hs.unread b hb).set,
    fun b hb => hs.beyond b (hides_of_set hu hb), ?_⟩
  · by_cases hba : b = a
    · subst hba
      rw [Cells.set_same] at hw
      cases hw
      exact ⟨hs.ne_zero ha, hv.set⟩
    · rw [Cells.set_of_ne h v hba] at hw
      exact ⟨(hs.typed b w hw).1, (hs.typed b w hw).2.set⟩
  · intro b c w x hb hc htb htc hw hx
    rw [Cells.set_of_ne h v (hne b hb)] at hw
    rw [Cells.set_of_ne h v (hne c hc)] at hx
    exact hs.distinct b c w x hb hc htb htc hw hx

end Chart

variable {f : Function} {γ : Chart} {h h' : Cells} {t : Ty} {v : Constant} {st st' : State}
  {K : Int → Prop} {i : Int} {l : LocalVar}

/-- An arbitrary value brings in unread cells, and a pointer among them leads to one that nothing
else leads to. -/
theorem Arbitrary.exists_chart (ha : Arbitrary t h v h') (hs : γ.Shaped h) :
    ∃ γ', γ'.Shaped h' ∧ γ.Grows h γ' h' ∧ γ'.Fits h' t.shape v ∧
      (t.isPointer = true → v.value ≠ 0 →
        ¬h.Has v.value ∧ γ'.unread v.value ∧ ¬γ'.Hides h' v.value) := by
  induction ha with
  | int v => exact ⟨γ, hs, .refl, rfl, fun ht => (nomatch ht)⟩
  | bool v => exact ⟨γ, hs, .refl, Constant.hasSort_ofBool v, fun ht => (nomatch ht)⟩
  | null => exact ⟨γ, hs, .refl, Chart.fits_null rfl, fun _ hv => absurd rfl hv⟩
  | @pointer s elem h h' v a harb ha₀ hnone ih =>
    obtain ⟨γ', hs', hg, hfits, hfree⟩ := ih hs
    rw [← Ty.isPointer_shape elem] at hfree
    refine ⟨γ'.alloc a elem.shape, ?_, ?_, ⟨rfl, fun _ => ?_⟩, fun _ _ => ⟨?_, .inr rfl, ?_⟩⟩
    · exact hs'.alloc ha₀ hnone hfits fun ht hv => (hfree ht hv).2
    · exact hg.alloc hnone fun ht hv => (hfree ht hv).1
    · exact ⟨⟨v, Cells.set_same h' a v⟩, Chart.types_alloc_same⟩
    · exact fun hhas => Cells.not_has hnone (hg.has hhas)
    · exact hs'.not_hides_alloc hnone hfits
  | untyped v | other v => exact ⟨γ, hs, .refl, trivial, fun ht => (nomatch ht)⟩

/-! ## Storage -/

/-- Some locals have storage: cells of their types, one for each, that no unread cell leads to. -/
structure Chart.Laid (γ : Chart) (f : Function) (K : Int → Prop) (st : State) : Prop where
  shaped : γ.Shaped st.cells
  has : ∀ i l, f.localVar? i = some l → K i → st.cells.Has (st.storage i)
  types : ∀ i l, f.localVar? i = some l → K i → γ.types (st.storage i) = l.type.shape
  shown : ∀ i l, f.localVar? i = some l → K i → ¬γ.Hides st.cells (st.storage i)
  separate : ∀ i j l l', f.localVar? i = some l → f.localVar? j = some l' → K i → K j →
    st.storage i = st.storage j → i = j

section
variable (hl : γ.Laid f K st)
include hl

theorem Chart.Laid.isPointer_storage (hi : f.localVar? i = some l) (hK : K i) :
    (γ.types (st.storage i)).isPointer = l.type.isPointer := by
  rw [hl.types i l hi hK, Ty.isPointer_shape]

/-- Unread storage for a pointer hides what the pointer leads to. -/
theorem Chart.Laid.pointer_storage (hi : f.localVar? i = some l) (hK : K i)
    (ht : l.type.isPointer = true) (hu : γ.unread (st.storage i)) :
    ∃ a, st.cells (st.storage i) = some (.ofInt a) ∧ (a ≠ 0 → γ.Hides st.cells a) := by
  obtain ⟨v, hv⟩ := hl.has i l hi hK
  have htype := (hl.isPointer_storage hi hK).trans ht
  have hofInt := ((hl.shaped.typed _ v hv).2.pointer htype).1
  rw [hofInt] at hv
  exact ⟨v.value, hv, fun ha => ⟨ha, _, _, hu, htype, hv, rfl⟩⟩

theorem Chart.Laid.mono {K' : Int → Prop} (hK : ∀ i l, f.localVar? i = some l → K' i → K i) :
    γ.Laid f K' st :=
  ⟨hl.shaped, fun i l hi hi' => hl.has i l hi (hK i l hi hi'),
    fun i l hi hi' => hl.types i l hi (hK i l hi hi'),
    fun i l hi hi' => hl.shown i l hi (hK i l hi hi'),
    fun i j l l' hi hj hi' hj' => hl.separate i j l l' hi hj (hK i l hi hi') (hK j l' hj hj')⟩

theorem Chart.Laid.see {A : Int → Prop} (hA : ∀ a, A a → ¬γ.Hides st.cells a) :
    (γ.see A).Laid f K st :=
  ⟨hl.shaped.see hA, hl.has, hl.types,
    fun i l hi hK hh => hl.shown i l hi hK (Chart.hides_of_see hh), hl.separate⟩

theorem Chart.Laid.set {a : Int} (ha : st.cells.Has a) (hu : ¬γ.unread a)
    (hv : γ.Fits st.cells (γ.types a) v) : γ.Laid f K { st with cells := st.cells.set a v } :=
  ⟨hl.shaped.set ha hu hv, fun i l hi hK => (hl.has i l hi hK).set, hl.types,
    fun i l hi hK hh => hl.shown i l hi hK (Chart.hides_of_set hu hh), hl.separate⟩

end

/-- What has new storage, and how this storage lies among the cells. -/
structure Chart.Renewed (γ : Chart) (i : Int) (st : State) (v : Constant) (γ' : Chart)
    (st' : State) : Prop where
  grows : γ.Grows st.cells γ' st'.cells
  others : ∀ j, j ≠ i → st'.storage j = st.storage j
  fresh : ¬st.cells.Has (st'.storage i)
  unread : γ'.unread (st'.storage i)
  holds : st'.cells (st'.storage i) = some v

/-- New storage for a local. -/
theorem Chart.Laid.renew (hl : γ.Laid f K st) (hr : Renews f i st v st') :
    ∃ γ', γ'.Laid f (fun j => K j ∨ j = i) st' ∧ γ.Renewed i st v γ' st' := by
  obtain @⟨l, h, a, hlocal, harb, ha₀, hnone⟩ := hr
  obtain ⟨γ', hs', hg, hfits, hfree⟩ := harb.exists_chart hl.shaped
  rw [← Ty.isPointer_shape l.type] at hfree
  have hshaped := hs'.alloc ha₀ hnone hfits fun ht hv => (hfree ht hv).2
  have hgrows := hg.alloc hnone fun ht hv => (hfree ht hv).1
  have hfresh : ¬st.cells.Has a := fun hhas => Cells.not_has hnone (hg.has hhas)
  have hold : ∀ j, ¬j = i → (if j = i then a else st.storage j) = st.storage j := fun j hj =>
    if_neg hj
  refine ⟨γ'.alloc a l.type.shape, ⟨hshaped, fun j l' hj hK => ?_, fun j l' hj hK => ?_,
    fun j l' hj hK => ?_, fun j k l' l'' hj hk hKj hKk heq => ?_⟩,
    ⟨hgrows, hold, ?_, ?_, ?_⟩⟩
  · by_cases hji : j = i
    · simp only [if_pos hji]
      exact ⟨v, Cells.set_same h a v⟩
    · simp only [if_neg hji]
      exact hgrows.has (hl.has j l' hj (hK.resolve_right hji))
  · by_cases hji : j = i
    · subst hji
      rw [hlocal] at hj
      cases hj
      simp
    · simp only [if_neg hji]
      rw [hgrows.types _ (hl.has j l' hj (hK.resolve_right hji))]
      exact hl.types j l' hj (hK.resolve_right hji)
  · by_cases hji : j = i
    · simp only [if_pos hji]
      exact hs'.not_hides_alloc hnone hfits
    · simp only [if_neg hji]
      have hK' := hK.resolve_right hji
      exact fun hh => hl.shown j l' hj hK' (hgrows.hides _ (hl.has j l' hj hK') hh)
  · -- the new storage is none of the old cells
    by_cases hji : j = i <;> by_cases hki : k = i
    · rw [hji, hki]
    · simp only [if_pos hji, if_neg hki] at heq
      exact absurd (heq ▸ hl.has k l'' hk (hKk.resolve_right hki)) hfresh
    · simp only [if_neg hji, if_pos hki] at heq
      exact absurd (heq ▸ hl.has j l' hj (hKj.resolve_right hji)) hfresh
    · simp only [if_neg hji, if_neg hki] at heq
      exact hl.separate j k l' l'' hj hk (hKj.resolve_right hji) (hKk.resolve_right hki) heq
  · simpa using hfresh
  · simp [Chart.alloc]
  · simp

/-- The entry of a function: all cells are unread, and the storage of a parameter holds the
argument. -/
theorem Stores.exists_chart {args : List Constant} {k : Nat} (hst : Stores f args k st) :
    ∃ γ : Chart, γ.Laid f (fun i => 0 ≤ i ∧ i < k) st ∧ (∀ a, st.cells.Has a → γ.unread a) ∧
      ∀ j c, j + 1 < k → args[j]? = some c →
        st.cells (st.storage (j + 1 : Nat)) = some c := by
  induction hst with
  | none =>
    refine ⟨⟨fun _ => .untyped, fun _ => False⟩, ⟨⟨fun a v hv => (nomatch hv), fun a ha => ha.elim,
      ?_, fun a b v w ha => ha.elim⟩, ?_, ?_, ?_, ?_⟩, ?_, ?_⟩
    · rintro b ⟨-, a, v, ha, -⟩
      exact ha
    · exact fun i l _ hK => absurd hK.2 (by omega)
    · exact fun i l _ hK => absurd hK.2 (by omega)
    · exact fun i l _ hK => absurd hK.2 (by omega)
    · exact fun i j l l' _ _ hK => absurd hK.2 (by omega)
    · rintro a ⟨v, hv⟩
      cases hv
    · exact fun j c hj => absurd hj (by omega)
  | @next k st st' v hst hr harg ih =>
    obtain ⟨γ, hl, hall, hargs⟩ := ih
    obtain ⟨γ', hl', hren⟩ := hl.renew hr
    refine ⟨γ', hl'.mono fun i l _ hi => ?_, fun a ha => ?_, fun j c hj hc => ?_⟩
    · show (0 ≤ i ∧ i < k) ∨ i = k
      omega
    · exact (hren.grows.unread a ha).mpr (hall a)
    · by_cases hjk : j + 1 = k
      · subst hjk
        rw [← harg j c rfl hc]
        exact hren.holds
      · have hne : ((j + 1 : Nat) : Int) ≠ k := by omega
        rw [hren.others _ hne]
        exact hren.grows.cells _ c (hargs j c (by omega) hc)

end Heap
end NullPath
