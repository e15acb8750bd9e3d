import NullPath.Proofs.HeapShape

/-!
# Cells and the memory of an exploration

An exploration knows cells by names.  The slot of a local stands for its storage, and the cell
behind a pointer stands for what the pointer leads to, so a model that gives the names their values
describes the cells.  For this to work there must be one cell of the memory for each cell: a local
whose address was taken lives behind the address only, and two names with one address as value
would be two cells of the memory for one cell.

A cell of the memory that holds nothing yet stands for an unread cell.  When it is read for the
first time, a new name takes the content as value.  If the content is a pointer, nothing else has
led to its target so far, and the new name is the only one for this address.

* `Store.Carries`, `Store.Marked`: a model of a growing store, and a null pointer that is tagged.
* `Heap.View.At`: which cell a cell of the memory stands for.
* `Heap.Describes.rebind`, `Heap.Describes.giveAddress`, `Heap.Describes.renew`: what changes the
  memory, and what changes the cells.
* `Heap.Describes.start`: the entry.
-/

namespace NullPath

open Memory

/-! ## Memories after a change -/

namespace Memory

variable {memory : Memory} {n : Name}

theorem get?_set (memory : Memory) (c c' : Cell) (b : Binding) :
    (memory.set c b).get? c' = if c' = c then some b else memory.get? c' := by
  cases c <;> cases c' <;> simp [set, get?, Assoc.get?_insert]

theorem addrs_set (memory : Memory) (c : Cell) (b : Binding) :
    (memory.set c b).addrs = memory.addrs := by
  cases c <;> rfl

theorem get?_unbind (memory : Memory) (x : Slot) (c : Cell) :
    (memory.unbind x).get? c = if c = .slot x then none else memory.get? c := by
  cases c <;> simp [unbind, get?, Assoc.get?_erase]

theorem get?_addrs_unbind (memory : Memory) (x y : Slot) :
    (memory.unbind x).addrs.get? y = if y = x then none else memory.addrs.get? y :=
  Assoc.get?_erase ..

theorem get?_addrs_giveAddress (memory : Memory) (x y : Slot) (n : Name) :
    (memory.giveAddress x n).addrs.get? y = if y = x then some n else memory.addrs.get? y := by
  unfold giveAddress
  split <;> exact Assoc.get?_insert _ _ _ _

/-- What the slot held is behind the new address. -/
theorem get?_giveAddress (hn : memory.pointees.get? n = none) (x : Slot) (c : Cell) :
    (memory.giveAddress x n).get? c =
      if c = .behind n then memory.locals.get? x
      else if c = .slot x then none else memory.get? c := by
  unfold giveAddress
  cases hx : memory.locals.get? x with
  | some b => cases c <;> simp [get?, Assoc.get?_insert, Assoc.get?_erase]
  | none =>
    cases c with
    | slot y =>
      by_cases hy : y = x
      · simp [get?, hy, hx]
      · simp [get?, hy]
    | behind p =>
      by_cases hp : p = n
      · simp [get?, hp, hn]
      · simp [get?, hp]

end Memory

/-! ## Models of growing stores -/

namespace Store

variable {m m' m'' : Model} {s s' s'' : Store} {i : Int} {es : List Expr}

/-- The model of a store is carried on to a later store. -/
structure Carries (m m' : Model) (s s' : Store) : Prop where
  le : s.graph.decls.length ≤ s'.graph.decls.length
  keeps : s.Keeps (fun _ => True) m m'

namespace Carries

theorem refl {m : Model} {s : Store} : Carries m m s s :=
  ⟨Nat.le_refl _, .refl⟩

theorem trans (h : Carries m m' s s') (h' : Carries m' m'' s' s'') : Carries m m'' s s'' :=
  ⟨h.le.trans h'.le, fun n hn =>
    (h'.keeps n ⟨trivial, Nat.lt_of_lt_of_le hn.2 h.le⟩).trans (h.keeps n hn)⟩

theorem of_evolves (hev : s.Evolves (fun _ => True) i es s')
    (hk : s.Keeps (fun _ => True) m m') : Carries m m' s s' :=
  ⟨hev.grows.length_le, hk⟩

end Carries

/-- The model gives the value zero to a name that is tagged at a node. -/
structure Marked (m : Model) (i : Int) (s : Store) : Prop where
  exact : m.Exact s.graph.scope
  null : ∃ n d t, s.graph.declaration? n = some d ∧ t ∈ d.derefs ∧ t.node = i ∧
    m.get? n = some (.ofInt 0)

/-- A mark stays, whatever happens at the node afterwards. -/
theorem Marked.carry (h : s.Marked m i) (hev : s.Evolves (fun _ => True) i es s') :
    ∃ m', Carries m m' s s' ∧ s'.Marked m' i := by
  obtain ⟨m', hkeeps, hexact⟩ := h.exact.exists_extends (fun _ _ => hev.grows.declares)
    hev.scope.tidy
  obtain ⟨n, d, t, hd, ht, hi, hm⟩ := h.null
  obtain ⟨d', hd', hgain⟩ := hev.grows.decls n.index d hd
  obtain ⟨ts, hts, -⟩ := hgain.derefs
  refine ⟨m', .of_evolves hev hkeeps, hexact, n, d', t, hd', ?_, hi, ?_⟩
  · rw [hts]
    exact List.mem_append_left ts ht
  · rw [hkeeps n ⟨trivial, lt_length_of_getElem? hd⟩, hm]

end Store

namespace Heap

/-- What is known about a run beside its state: the chart of its cells, and the names whose values
are pointers to them. -/
structure View where
  chart : Chart
  pointers : Name → Prop

/-- The cell of the memory stands for the cell at an address: the slot of a local stands for its
storage until its address is taken, and the cell behind a pointer for what the pointer leads to. -/
inductive View.At (u : View) (f : Function) (m : Model) (memory : Memory) (st : State) :
    Cell → Int → Prop
  | slot {i : Int} {l : LocalVar} :
    f.localVar? i = some l → memory.addrs.get? (.of 0 i) = none →
      View.At u f m memory st (.slot (.of 0 i)) (st.storage i)
  | behind {n : Name} {a : Int} :
    u.pointers n → m.get? n = some (.ofInt a) → a ≠ 0 → View.At u f m memory st (.behind n) a

/-- The memory and the model describe the cells.  Pointers with one value have one name, so that
every cell is described once; what a cell of the memory holds has the value of the cell it stands
for, and where it holds nothing the cell is unread. -/
structure Describes (f : Function) (u : View) (m : Model) (s : Store) (st : State) : Prop where
  laid : u.chart.Laid f (fun _ => True) st
  known : ∀ n, u.pointers n → s.Knows (fun _ => True) n
  pointer : ∀ n, u.pointers n → ∃ a, m.get? n = some (.ofInt a) ∧
    (a ≠ 0 → st.cells.Has a ∧ ¬u.chart.Hides st.cells a)
  unique : ∀ n n' a, u.pointers n → u.pointers n' → m.get? n = some (.ofInt a) →
    m.get? n' = some (.ofInt a) → a ≠ 0 → n = n'
  address : ∀ i l n, f.localVar? i = some l → s.memory.addrs.get? (.of 0 i) = some n →
    u.pointers n ∧ m.get? n = some (.ofInt (st.storage i))
  apart : ∀ i l n, f.localVar? i = some l → s.memory.addrs.get? (.of 0 i) = none →
    u.pointers n → m.get? n ≠ some (.ofInt (st.storage i))
  bound : ∀ c a b, u.At f m s.memory st c a → s.memory.get? c = some b →
    m.get? b.name = st.cells a ∧ ((u.chart.types a).isPointer = true → u.pointers b.name)
  unbound : ∀ c a, u.At f m s.memory st c a → s.memory.get? c = none → u.chart.unread a

theorem ofInt_inj {a b : Int} (h : some (Constant.ofInt a) = some (Constant.ofInt b)) : a = b :=
  congrArg Constant.value (Option.some.inj h)

/-- The view once a cell has been looked at and a name holds its content. -/
def View.see (u : View) (a : Int) (n : Name) : View where
  chart := u.chart.see (· = a)
  pointers n' := u.pointers n' ∨ (n' = n ∧ (u.chart.types a).isPointer = true)

/-- A name can be bound to a cell for pointers: it is a pointer, or it is a new name that gets the
content of an unread cell or zero. -/
def View.Admits (u : View) (memory : Memory) (st : State) (a : Int) (n : Name) (v : Constant) :
    Prop :=
  u.pointers n ∨ (¬u.pointers n ∧ memory.get? (.behind n) = none ∧
    (v.value ≠ 0 → u.chart.unread a ∧ st.cells a = some v))

namespace Describes

variable {f : Function} {u : View} {m m' : Model} {s s' : Store} {st st' : State} {c c' : Cell}
  {a a' i : Int} {n n' : Name} {v : Constant} {l : LocalVar} {moved : Bool} {γ : Chart}

/-! ## Which cell stands for which -/

section
variable (h : Describes f u m s st) (hat : u.At f m s.memory st c a)
include h hat

theorem has_shown : st.cells.Has a ∧ ¬u.chart.Hides st.cells a := by
  cases hat with
  | slot hl _ => exact ⟨h.laid.has _ _ hl trivial, h.laid.shown _ _ hl trivial⟩
  | behind hn hm ha =>
    obtain ⟨b, hb, hcell⟩ := h.pointer _ hn
    rw [hm] at hb
    cases ofInt_inj hb
    exact hcell ha

theorem has : st.cells.Has a :=
  (h.has_shown hat).1

theorem shown : ¬u.chart.Hides st.cells a :=
  (h.has_shown hat).2

/-- No two cells of the memory stand for one. -/
theorem cell_unique (hat' : u.At f m s.memory st c' a') (haa : a = a') : c = c' := by
  cases hat with
  | @slot i l hl hnone =>
    cases hat' with
    | @slot j l' hl' hnone' => rw [h.laid.separate i j l l' hl hl' trivial trivial haa]
    | behind hn hm _ =>
      rw [← haa] at hm
      exact absurd hm (h.apart i l _ hl hnone hn)
  | @behind n a hn hm ha =>
    cases hat' with
    | @slot j l' hl' hnone' =>
      rw [haa] at hm
      exact absurd hm (h.apart j l' n hl' hnone' hn)
    | behind hn' hm' _ =>
      rw [← haa] at hm'
      rw [h.unique _ _ a hn hn' hm hm' ha]

end

/-- A cell of the memory stands for one cell. -/
theorem address_unique (hf : f.Addressable) (hat : u.At f m s.memory st c a)
    (hat' : u.At f m s.memory st c' a') (hcc : c = c') : a = a' := by
  cases hat with
  | @slot i l hl hnone =>
    cases hat' with
    | @slot j l' hl' hnone' =>
      have hslot : Slot.of 0 i = Slot.of 0 j := Cell.slot.inj hcc
      rw [(hf.slot_zero_eq_iff hl hl').mp hslot]
    | behind _ _ _ => cases hcc
  | behind hn hm ha =>
    cases hat' with
    | slot _ _ => cases hcc
    | behind hn' hm' ha' =>
      cases hcc
      rw [hm] at hm'
      exact ofInt_inj hm'

/-- The cell of a local stands for its storage. -/
theorem at_local (h : Describes f u m s st) (hl : f.localVar? i = some l) :
    u.At f m s.memory st (s.memory.cellOf (.of 0 i)) (st.storage i) := by
  unfold cellOf
  cases ha : s.memory.addrs.get? (.of 0 i) with
  | none => exact .slot hl ha
  | some n =>
    obtain ⟨hn, hm⟩ := h.address i l n hl ha
    exact .behind hn hm (h.laid.shaped.ne_zero (h.laid.has i l hl trivial))

/-! ## What keeps the description -/

/-- New names and their values do not show in the cells. -/
theorem grown (h : Describes f u m s st) (hs : s.Scoped)
    (hk : s.Carries m m' s') (hmem : s'.memory = s.memory) : Describes f u m' s' st := by
  have hget : ∀ n, u.pointers n → m'.get? n = m.get? n := fun n hn => hk.keeps n (h.known n hn)
  have hat : ∀ c a, u.At f m' s'.memory st c a → u.At f m s.memory st c a := by
    intro c a hat
    cases hat with
    | slot hl ha =>
      rw [hmem] at ha
      exact .slot hl ha
    | behind hn hm ha =>
      rw [hget _ hn] at hm
      exact .behind hn hm ha
  refine ⟨h.laid, fun n hn => ⟨trivial, Nat.lt_of_lt_of_le (h.known n hn).2 hk.le⟩, fun n hn => ?_,
    fun n n' a hn hn' hm hm' => ?_, fun i l n hl ha => ?_, fun i l n hl ha hn => ?_,
    fun c a b hc hb => ?_, fun c a hc hnone => ?_⟩
  · rw [hget n hn]
    exact h.pointer n hn
  · rw [hget n hn] at hm
    rw [hget n' hn'] at hm'
    exact h.unique n n' a hn hn' hm hm'
  · rw [hmem] at ha
    obtain ⟨hn, hm⟩ := h.address i l n hl ha
    exact ⟨hn, by rw [hget n hn, hm]⟩
  · rw [hmem] at ha
    rw [hget n hn]
    exact h.apart i l n hl ha hn
  · rw [hmem] at hb
    rw [hk.keeps b.name (hs.mentions _ (.of_get? hb))]
    exact h.bound c a b (hat c a hc) hb
  · rw [hmem] at hnone
    exact h.unbound c a (hat c a hc) hnone

/-- A name becomes a pointer when it is bound to the content of a cell. -/
structure Uncovers (u : View) (m : Model) (memory : Memory) (st : State) (a : Int) (n : Name)
    (v : Constant) : Prop where
  new : ¬u.pointers n
  value : m.get? n = some (.ofInt v.value)
  unbound : memory.get? (.behind n) = none
  hidden : v.value ≠ 0 → u.chart.Hides st.cells v.value
  shown : v.value ≠ 0 → ¬(u.chart.see (· = a)).Hides (st.cells.set a v) v.value

theorem Uncovers.hides {memory : Memory} {b : Int} (h : Uncovers u m memory st a n v)
    (hb : m.get? n = some (.ofInt b)) (hb₀ : b ≠ 0) : u.chart.Hides st.cells b := by
  have hval := h.value
  rw [hb] at hval
  cases ofInt_inj hval
  exact h.hidden hb₀

/-- What the new pointer leads to was hidden, so none of the old ones leads there. -/
theorem not_uncovers (h : Describes f u m s st) (hn' : u.pointers n')
    (hb' : m.get? n' = some (.ofInt a')) (hb : m.get? n = some (.ofInt a')) (ha' : a' ≠ 0) :
    ¬Uncovers u m s.memory st a n v := by
  intro hnew
  have hat : u.At f m s.memory st (.behind n') a' := .behind hn' hb' ha'
  exact h.shown hat (hnew.hides hb ha')

section
variable (h : Describes f u m s st) (hv : u.chart.Fits st.cells (u.chart.types a) v)
  (hn : m.get? n = some v) (hp : (u.chart.types a).isPointer = true → u.Admits s.memory st a n v)
include h hv hn hp

/-- A pointer is an old one, or it leads to what the cell has hidden so far. -/
theorem pointers_of_see (hn' : (u.see a n).pointers n') :
    u.pointers n' ∨ (n' = n ∧ Uncovers u m s.memory st a n v) := by
  rcases hn' with hn' | ⟨rfl, hpt⟩
  · exact .inl hn'
  · rcases hp hpt with hold | ⟨hnew, hnone, hcell⟩
    · exact .inl hold
    · refine .inr ⟨rfl, hnew, by rw [hn, ← (hv.pointer hpt).1], hnone, fun hv₀ => ?_,
        fun hv₀ => ?_⟩
      · obtain ⟨hu, hc⟩ := hcell hv₀
        exact ⟨hv₀, a, v, hu, hpt, hc, rfl⟩
      · obtain ⟨hu, hc⟩ := hcell hv₀
        rintro ⟨-, b, w, ⟨hb, hba⟩, htb, hw, hwv⟩
        rw [Cells.set_of_ne _ v hba] at hw
        exact hba (h.laid.shaped.distinct a b v w hu hb hpt htb hc hw hwv.symm hv₀).symm

/-- A cell of the memory stands for the same cell as before, or lies behind the new pointer. -/
theorem at_of_see (hat : (u.see a n).At f m (s.bound c ⟨n, moved⟩).memory
      { st with cells := st.cells.set a v } c' a') : u.At f m s.memory st c' a' ∨
      (c' = .behind n ∧ Uncovers u m s.memory st a n v ∧ u.chart.Hides st.cells a') := by
  cases hat with
  | slot hl ha =>
    rw [Store.bound, addrs_set] at ha
    exact .inl (.slot hl ha)
  | behind hn' hm' ha' =>
    rcases h.pointers_of_see hv hn hp hn' with hold | ⟨rfl, hnew⟩
    · exact .inl (.behind hold hm' ha')
    · exact .inr ⟨rfl, hnew, hnew.hides hm' ha'⟩

/-- Binding a cell of the memory to a name, and writing the value of the name to the cell that it
stands for.  This covers writing a value, and also reading for the first time, where the value is
the content. -/
theorem rebind (hf : f.Addressable) (hat : u.At f m s.memory st c a)
    (hk : s.Knows (fun _ => True) n) :
    Describes f (u.see a n) m (s.bound c ⟨n, moved⟩) { st with cells := st.cells.set a v } := by
  have hhas := h.has hat
  have hshown := h.shown hat
  have hseen : ¬(u.chart.see (· = a)).unread a := fun hu => hu.2 rfl
  have hcases : ∀ n', (u.see a n).pointers n' →
      u.pointers n' ∨ (n' = n ∧ Uncovers u m s.memory st a n v) :=
    fun n' => h.pointers_of_see hv hn hp
  have hlaid : (u.chart.see (· = a)).Laid f (fun _ => True) st :=
    h.laid.see fun b hb => by rw [hb]; exact hshown
  refine ⟨hlaid.set hhas hseen (Chart.fits_see.mpr hv), fun n' hn' => ?_, fun n' hn' => ?_,
    fun n₁ n₂ b hn₁ hn₂ hb₁ hb₂ hb₀ => ?_, fun i l n' hl ha => ?_, fun i l n' hl ha hn' hm' => ?_,
    fun c' a' b hat' hb => ?_, fun c' a' hat' hnone => ?_⟩
  · rcases hcases n' hn' with hold | ⟨rfl, -⟩
    · exact h.known n' hold
    · exact hk
  · rcases hcases n' hn' with hold | ⟨rfl, hnew⟩
    · obtain ⟨b, hb, hcell⟩ := h.pointer n' hold
      exact ⟨b, hb, fun hb₀ =>
        ⟨(hcell hb₀).1.set, fun hh =>
          (hcell hb₀).2 (Chart.hides_of_see (Chart.hides_of_set hseen hh))⟩⟩
    · exact ⟨v.value, hnew.value, fun hv₀ =>
        ⟨(h.laid.shaped.has_of_hides (hnew.hidden hv₀)).set, hnew.shown hv₀⟩⟩
  · rcases hcases n₁ hn₁ with hold₁ | ⟨rfl, hnew₁⟩ <;> rcases hcases n₂ hn₂ with hold₂ | ⟨rfl, hnew₂⟩
    · exact h.unique n₁ n₂ b hold₁ hold₂ hb₁ hb₂ hb₀
    · exact absurd hnew₂ (h.not_uncovers hold₁ hb₁ hb₂ hb₀)
    · exact absurd hnew₁ (h.not_uncovers hold₂ hb₂ hb₁ hb₀)
    · rfl
  · rw [Store.bound, addrs_set] at ha
    obtain ⟨hn', hm'⟩ := h.address i l n' hl ha
    exact ⟨.inl hn', hm'⟩
  · rw [Store.bound, addrs_set] at ha
    rcases hcases n' hn' with hold | ⟨rfl, hnew⟩
    · exact h.apart i l n' hl ha hold hm'
    · have hne := h.laid.shaped.ne_zero (h.laid.has i l hl trivial)
      exact h.laid.shown i l hl trivial (hnew.hides hm' hne)
  · rw [Store.bound, get?_set] at hb
    by_cases hcc : c' = c
    · rw [if_pos hcc] at hb
      cases hb
      rcases h.at_of_see hv hn hp hat' with hold | ⟨rfl, hnew, -⟩
      · rw [address_unique hf hold hat hcc]
        exact ⟨by rw [hn]; simp, fun ht => .inr ⟨rfl, ht⟩⟩
      · rw [← hcc] at hat
        cases hat with
        | behind hpn _ _ => exact absurd hpn hnew.new
    · rw [if_neg hcc] at hb
      rcases h.at_of_see hv hn hp hat' with hold | ⟨rfl, hnew, -⟩
      · have hne : a' ≠ a := fun haa => hcc (h.cell_unique hold hat haa)
        obtain ⟨hval, hpt⟩ := h.bound c' a' b hold hb
        exact ⟨by rw [hval]; exact (Cells.set_of_ne _ v hne).symm, fun ht => .inl (hpt ht)⟩
      · rw [hnew.unbound] at hb
        cases hb
  · rw [Store.bound, get?_set] at hnone
    by_cases hcc : c' = c
    · rw [if_pos hcc] at hnone
      cases hnone
    · rw [if_neg hcc] at hnone
      rcases h.at_of_see hv hn hp hat' with hold | ⟨-, -, hhide⟩
      · exact ⟨h.unbound c' a' hold hnone, fun haa => hcc (h.cell_unique hold hat haa)⟩
      · refine ⟨h.laid.shaped.beyond a' hhide, ?_⟩
        rintro rfl
        exact hshown hhide

end

/-- A cell of the memory holds what the cell held that stood for the same cell before. -/
theorem at_of_giveAddress (hl : f.localVar? i = some l) (ha : s.memory.addrs.get? (.of 0 i) = none)
    (hn : m.get? n = some (.ofInt (st.storage i))) (hnew : ¬u.pointers n)
    (hnone : s.memory.pointees.get? n = none)
    (hat : View.At ⟨u.chart, fun n' => u.pointers n' ∨ n' = n⟩ f m
      (s.memory.giveAddress (.of 0 i) n) st c a) :
    ∃ c', u.At f m s.memory st c' a ∧
      (s.memory.giveAddress (.of 0 i) n).get? c = s.memory.get? c' := by
  rw [get?_giveAddress hnone]
  cases hat with
  | slot hj hfree =>
    rw [get?_addrs_giveAddress] at hfree
    split at hfree
    · cases hfree
    · next hne => exact ⟨_, .slot hj hfree, by simp [hne]⟩
  | behind hn' hm' hb =>
    rcases hn' with hn' | rfl
    · refine ⟨_, .behind hn' hm' hb, ?_⟩
      rw [if_neg, if_neg (by simp)]
      rintro hc
      cases hc
      exact hnew hn'
    · rw [hn] at hm'
      cases ofInt_inj hm'
      exact ⟨_, .slot hl ha, if_pos rfl⟩

/-- Giving a local an address.  The address is a pointer to its storage. -/
theorem giveAddress (h : Describes f u m s st) (hf : f.Addressable)
    (hl : f.localVar? i = some l) (ha : s.memory.addrs.get? (.of 0 i) = none)
    (hn : m.get? n = some (.ofInt (st.storage i))) (hk : s.Knows (fun _ => True) n)
    (hnew : ¬u.pointers n) (hnone : s.memory.pointees.get? n = none) :
    Describes f ⟨u.chart, fun n' => u.pointers n' ∨ n' = n⟩ m
      { s with memory := s.memory.giveAddress (.of 0 i) n } st := by
  refine ⟨h.laid, ?_, ?_, ?_, ?_, ?_, ?_, ?_⟩
  · rintro n' (hn' | rfl)
    · exact h.known n' hn'
    · exact hk
  · rintro n' (hn' | rfl)
    · exact h.pointer n' hn'
    · exact ⟨_, hn, fun _ => ⟨h.laid.has i l hl trivial, h.laid.shown i l hl trivial⟩⟩
  · rintro n₁ n₂ b (hn₁ | rfl) (hn₂ | rfl) hb₁ hb₂ hb₀
    · exact h.unique n₁ n₂ b hn₁ hn₂ hb₁ hb₂ hb₀
    · rw [hn] at hb₂
      rw [← hb₂] at hb₁
      exact absurd hb₁ (h.apart i l n₁ hl ha hn₁)
    · rw [hn] at hb₁
      rw [← hb₁] at hb₂
      exact absurd hb₂ (h.apart i l n₂ hl ha hn₂)
    · rfl
  · intro j l' n' hj hn'
    rw [get?_addrs_giveAddress] at hn'
    split at hn'
    · next heq =>
      cases hn'
      rw [(hf.slot_zero_eq_iff hj hl).mp heq]
      exact ⟨.inr rfl, hn⟩
    · obtain ⟨hp, hm⟩ := h.address j l' n' hj hn'
      exact ⟨.inl hp, hm⟩
  · intro j l' n' hj hn' hp hm
    rw [get?_addrs_giveAddress] at hn'
    split at hn'
    · cases hn'
    · next hne =>
      rcases hp with hp | rfl
      · exact h.apart j l' n' hj hn' hp hm
      · rw [hn] at hm
        refine hne ((hf.slot_zero_eq_iff hj hl).mpr ?_)
        exact h.laid.separate j i l' l hj hl trivial trivial (ofInt_inj hm).symm
  · intro c a b hc hb
    obtain ⟨c', hold, hget⟩ := at_of_giveAddress hl ha hn hnew hnone hc
    obtain ⟨hval, hpt⟩ := h.bound c' a b hold (hget.symm.trans hb)
    exact ⟨hval, fun ht => .inl (hpt ht)⟩
  · intro c a hc hb
    obtain ⟨c', hold, hget⟩ := at_of_giveAddress hl ha hn hnew hnone hc
    exact h.unbound c' a hold (hget.symm.trans hb)

/-- A cell of the memory stands for the same cell as before, or it is the slot that was unbound. -/
theorem at_of_unbind (hf : f.Addressable) (hl : f.localVar? i = some l)
    (hothers : ∀ j, j ≠ i → st'.storage j = st.storage j)
    (hat : View.At ⟨γ, u.pointers⟩ f m (s.memory.unbind (.of 0 i)) st' c a) :
    (u.At f m s.memory st c a ∧ (s.memory.unbind (.of 0 i)).get? c = s.memory.get? c) ∨
      (a = st'.storage i ∧ (s.memory.unbind (.of 0 i)).get? c = none) := by
  rw [get?_unbind]
  cases hat with
  | @slot j l' hj hnone =>
    by_cases hji : j = i
    · rw [hji]
      exact .inr ⟨rfl, if_pos rfl⟩
    · have hslot : Slot.of 0 j ≠ Slot.of 0 i := fun heq => hji ((hf.slot_zero_eq_iff hj hl).mp heq)
      rw [get?_addrs_unbind, if_neg hslot] at hnone
      rw [hothers j hji]
      exact .inl ⟨.slot hj hnone, if_neg fun heq => hslot (Cell.slot.inj heq)⟩
  | behind hn hm ha => exact .inl ⟨.behind hn hm ha, if_neg nofun⟩

/-- New storage for a local, whose slot is then unbound. -/
theorem renew (h : Describes f u m s st) (hf : f.Addressable) (hr : Renews f i st v st') :
    ∃ γ, Describes f ⟨γ, u.pointers⟩ m (s.unbound (.of 0 i)) st' ∧
      u.chart.Renewed i st v γ st' := by
  obtain ⟨γ, hlaid, hren⟩ := h.laid.renew hr
  have hg := hren.grows
  obtain ⟨l, hl⟩ : ∃ l, f.localVar? i = some l := by
    cases hr with
    | mk hl => exact ⟨_, hl⟩
  have hslot : ∀ j l', f.localVar? j = some l' → j ≠ i → Slot.of 0 j ≠ Slot.of 0 i :=
    fun j l' hj hji heq => hji ((hf.slot_zero_eq_iff hj hl).mp heq)
  refine ⟨γ, ⟨hlaid.mono fun _ _ _ _ => .inl trivial, h.known, ?_, h.unique, ?_, ?_, ?_, ?_⟩, hren⟩
  · intro n hn
    obtain ⟨a, ha, hcell⟩ := h.pointer n hn
    refine ⟨a, ha, fun ha₀ => ⟨hg.has (hcell ha₀).1, fun hh => ?_⟩⟩
    exact (hcell ha₀).2 (hg.hides a (hcell ha₀).1 hh)
  · intro j l' n hj hn
    by_cases hji : j = i
    · rw [hji, Store.unbound, get?_addrs_unbind, if_pos rfl] at hn
      cases hn
    · rw [Store.unbound, get?_addrs_unbind, if_neg (hslot j l' hj hji)] at hn
      rw [hren.others j hji]
      exact h.address j l' n hj hn
  · intro j l' n hj hnone hn hm
    by_cases hji : j = i
    · -- the new storage is not one of the old cells, to which all pointers lead
      rw [hji] at hm
      obtain ⟨a, ha, hcell⟩ := h.pointer n hn
      rw [hm] at ha
      have ha₀ : st'.storage i ≠ 0 := hlaid.shaped.ne_zero (.of_eq hren.holds)
      rw [← ofInt_inj ha] at hcell
      exact hren.fresh (hcell ha₀).1
    · rw [Store.unbound, get?_addrs_unbind, if_neg (hslot j l' hj hji)] at hnone
      rw [hren.others j hji] at hm
      exact h.apart j l' n hj hnone hn hm
  · intro c a b hc hb
    rcases at_of_unbind hf hl hren.others hc with ⟨hold, hget⟩ | ⟨-, hnone⟩
    · obtain ⟨hval, hpt⟩ := h.bound c a b hold (hget.symm.trans hb)
      obtain ⟨w, hw⟩ := h.has hold
      rw [hg.types a ⟨w, hw⟩]
      exact ⟨by rw [hval, hw, hg.cells a w hw], hpt⟩
    · cases hnone.symm.trans hb
  · intro c a hc hb
    rcases at_of_unbind hf hl hren.others hc with ⟨hold, hget⟩ | ⟨rfl, -⟩
    · exact (hg.unread_iff (h.has hold)).mpr (h.unbound c a hold (hget.symm.trans hb))
    · exact hren.unread

/-! ## The entry -/

/-- The view at the entry: the storage of the bound locals has been looked at, and the pointers are
the names that they hold. -/
def entryView (γ : Chart) (f : Function) (memory : Memory) (st : State) : View where
  chart := γ.see fun a => ∃ i l n, f.localVar? i = some l ∧
    memory.locals.get? (.of 0 i) = some ⟨n, false⟩ ∧ st.storage i = a
  pointers n := ∃ i l, f.localVar? i = some l ∧ l.type.isPointer = true ∧
    memory.locals.get? (.of 0 i) = some ⟨n, false⟩

/-- At the entry nothing is known about the cells but the values of the bound locals. -/
theorem of_entry {count : Nat} (hlaid : γ.Laid f (fun _ => True) st)
    (hall : ∀ a, st.cells.Has a → γ.unread a) (hs : s.Scoped) (he : f.Entered count s)
    (hm : ∀ i l n, f.localVar? i = some l → s.memory.locals.get? (.of 0 i) = some ⟨n, false⟩ →
      m.get? n = st.cells (st.storage i)) : Describes f (entryView γ f s.memory st) m s st := by
  -- a pointer that is not zero leads to a cell that was hidden by the storage of its local
  have hvalue : ∀ i l n, f.localVar? i = some l → l.type.isPointer = true →
      s.memory.locals.get? (.of 0 i) = some ⟨n, false⟩ →
      ∃ a, st.cells (st.storage i) = some (.ofInt a) ∧ m.get? n = some (.ofInt a) ∧
        (a ≠ 0 → γ.Hides st.cells a) := by
    intro i l n hl ht hn
    have hu := hall _ (hlaid.has i l hl trivial)
    obtain ⟨a, ha, hhide⟩ := hlaid.pointer_storage hl trivial ht hu
    exact ⟨a, ha, by rw [hm i l n hl hn, ha], hhide⟩
  have hshown : ∀ i l, f.localVar? i = some l → ¬γ.Hides st.cells (st.storage i) :=
    fun i l hl => hlaid.shown i l hl trivial
  refine ⟨hlaid.see ?_, ?_, ?_, ?_, ?_, ?_, ?_, ?_⟩
  · rintro a ⟨i, l, n, hl, -, rfl⟩
    exact hshown i l hl
  · rintro n ⟨i, l, -, -, hn⟩
    exact hs.mentions n (.value hn)
  · rintro n ⟨i, l, hl, ht, hn⟩
    obtain ⟨a, hcell, hna, hhide⟩ := hvalue i l n hl ht hn
    refine ⟨a, hna, fun ha => ⟨hlaid.shaped.has_of_hides (hhide ha), ?_⟩⟩
    rintro ⟨-, b, w, ⟨hb, hbound⟩, htb, hw, hwa⟩
    have htype := (hlaid.isPointer_storage hl trivial).trans ht
    refine hbound ⟨i, l, n, hl, hn, ?_⟩
    exact hlaid.shaped.distinct _ b _ w (hall _ (.of_eq hcell)) hb htype htb hcell hw hwa.symm ha
  · rintro n n' a ⟨i, l, hl, ht, hn⟩ ⟨j, l', hl', ht', hn'⟩ hna hna' ha
    have htype := (hlaid.isPointer_storage hl trivial).trans ht
    have htype' := (hlaid.isPointer_storage hl' trivial).trans ht'
    rw [hm i l n hl hn] at hna
    rw [hm j l' n' hl' hn'] at hna'
    have hsame := hlaid.shaped.distinct _ _ _ _ (hall _ (.of_eq hna)) (hall _ (.of_eq hna')) htype
      htype' hna hna' rfl ha
    rw [hlaid.separate i j l l' hl hl' trivial trivial hsame, hn'] at hn
    cases hn
    rfl
  · intro i l n _ hn
    rw [he.addrs] at hn
    cases hn
  · rintro i l n hl - ⟨j, l', hl', ht', hn'⟩ hna
    obtain ⟨a, -, hna', hhide⟩ := hvalue j l' n hl' ht' hn'
    rw [hna] at hna'
    have ha := ofInt_inj hna'
    refine hshown i l hl ?_
    rw [ha]
    refine hhide ?_
    rw [← ha]
    exact hlaid.shaped.ne_zero (hlaid.has i l hl trivial)
  · intro c a b hat hb
    cases hat with
    | @slot i l hl _ =>
      obtain ⟨name, moved⟩ := b
      obtain rfl := (he.bound _ _ hb).1
      exact ⟨hm i l name hl hb,
        fun ht => ⟨i, l, hl, (hlaid.isPointer_storage hl trivial).symm.trans ht, hb⟩⟩
    | behind _ _ _ =>
      rw [get?, he.pointees] at hb
      cases hb
  · intro c a hat hb
    cases hat with
    | @slot i l hl _ =>
      refine ⟨hall _ (hlaid.has i l hl trivial), ?_⟩
      rintro ⟨j, l', n, hl', hn, hsame⟩
      rw [hlaid.separate j i l' l hl' hl trivial trivial hsame] at hn
      rw [get?, hn] at hb
      cases hb
    | @behind n a hn hna ha =>
      obtain ⟨i, l, hl, ht, hn⟩ := hn
      obtain ⟨a', -, hna', hhide⟩ := hvalue i l n hl ht hn
      rw [hna] at hna'
      cases ofInt_inj hna'
      refine ⟨hlaid.shaped.beyond a (hhide ha), ?_⟩
      rintro ⟨j, l', n', hl', -, rfl⟩
      exact hshown j l' hl' (hhide ha)

/-- A model for the beginning of a run. -/
theorem start {args : List Constant} (hb : Begins f args st) (hf : f.Addressable)
    (hs : s.Scoped) (he : f.Entered (f.argCount.toNat + 1) s) :
    ∃ u m, m.Exact s.graph.scope ∧ Describes f u m s st ∧ f.Given s m args := by
  obtain ⟨γ, hlaid, hall, hargs⟩ := hb.stores.exists_chart
  replace hlaid : γ.Laid f (fun _ => True) st :=
    hlaid.mono fun i l hl _ => Function.lt_of_localVar? hl
  have hsorted : ∀ k, k < f.argCount.toNat + 1 → ∀ l sort, f.localVar? k = some l →
      l.type.sort = .ok sort → ∃ c, st.cells (st.storage k) = some c ∧ c.HasSort sort := by
    intro k _ l sort hl hsort
    obtain ⟨v, hv⟩ := hlaid.has k l hl trivial
    have hfits := (hlaid.shaped.typed _ v hv).2
    rw [hlaid.types k l hl trivial] at hfits
    exact ⟨v, hv, hfits.hasSort hsort⟩
  obtain ⟨m, hexact, hm⟩ := he.exists_model (σ := fun i => st.cells (st.storage i)) hf hsorted
  refine ⟨entryView γ f s.memory st, m, hexact, of_entry hlaid hall hs he fun i l n hl hn => ?_,
    fun k n hk hn => ?_⟩
  · obtain ⟨-, k, hk, hslot⟩ := he.bound _ _ hn
    obtain ⟨l', hl', -⟩ := he.slots k hk
    obtain rfl := (hf.slot_zero_eq_iff hl hl').mp hslot
    exact hm k n hk hn
  · have hlt : k < args.length := by
      rw [hb.count]
      exact hk
    obtain ⟨l, hl, -⟩ := he.slots (k + 1) (by omega)
    have hlocal := Function.lt_of_localVar? hl
    rw [hm (k + 1) n (by omega) hn, List.getElem?_eq_getElem hlt]
    exact hargs k _ (by omega) (List.getElem?_eq_getElem hlt)

end Describes
end Heap
end NullPath
