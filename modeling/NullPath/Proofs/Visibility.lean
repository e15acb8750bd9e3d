import NullPath.Proofs.Aliasing

/-!
# Who sees a write

A write goes to one cell, the one that its place denotes.  Every place that denotes this cell sees
the new name, and every other place shows what it showed before: it does not matter whether the
places are locals, addressed locals, or reached over pointers of any depth.  The one exception are
places that are reached over the written cell itself.  They lead elsewhere after the write.

Finding the place of a write may make up values behind pointers.  These are new names, and nothing
that a memory has leads to a cell behind a new name.  So a cell that a place denotes is written
exactly if the written place denotes it too, in the memory as it was before the write.

* `Store.Sound.cellAt?_or_new`: the cell of a place was there, or it lies behind a new name.
* `Store.Sound.resolve_iff`: which known cell a place is led to.
* `Bank.write_seen`: what is seen after a write.
-/

namespace NullPath

open Action

/-- The cell that a place denotes in a memory.  There is none while a pointer on the way has no
value or has lost it. -/
def Memory.denoted? (m : Memory) (env : Env) (p : Place) : Option Cell :=
  m.cellAt? (.of env.depth p.base) p.derefs

namespace Memory

variable {m : Memory} {x : Slot} {k : Nat}

/-- The walk to a cell passes through cells. -/
theorem exists_cellAt?_of_le {c : Cell} {j : Nat} (h : m.cellAt? x k = some c) (hj : j ≤ k) :
    ∃ c', m.cellAt? x j = some c' := by
  induction k generalizing c with
  | zero =>
    obtain rfl := Nat.le_zero.mp hj
    exact ⟨c, h⟩
  | succ k ih =>
    rcases Nat.le_succ_iff.mp hj with hle | rfl
    · obtain ⟨n, hn, -⟩ := cellAt?_succ_eq_some.mp h
      obtain ⟨c₀, hc₀, -⟩ := nameAt?_eq_some.mp hn
      exact ih hc₀ hle
    · exact ⟨c, h⟩

end Memory

namespace Store

variable {s s' : Store} {env env' : Env} {p q : Place} {c c' : Cell} {n : Name} {b : Binding}
  {base : Int} {k : Nat} {x : Slot}

/-! ## Cells of a sound memory -/

namespace Sound

theorem offers_cellAt? (hs : s.Sound) (h : s.memory.cellAt? x k = some c) : s.Offers c := by
  cases k with
  | zero =>
    cases h
    exact Memory.Sound.offers_cellOf hs x
  | succ k =>
    obtain ⟨n, hn, rfl⟩ := Memory.cellAt?_succ_eq_some.mp h
    obtain ⟨c₀, -, hget⟩ := Memory.nameAt?_eq_some.mp hn
    exact Memory.Sound.declared hs n (.of_get? hget)

/-- A place is led to the cell that it denotes, or to one behind a name that is new. -/
theorem cellAt?_or_new (hs : s.Sound) (h : resolveAt env base k s = (.ok c, s')) :
    s.memory.cellAt? (.of env.depth base) k = some c ∨
      ∃ n, c = .behind n ∧ s.graph.decls.length ≤ n.index := by
  induction k generalizing c s' with
  | zero =>
    obtain ⟨-, rfl, -⟩ := resolveAt_zero_eq_ok.mp h
    exact .inl rfl
  | succ k ih =>
    obtain ⟨c₀, t₁, pointer, t₂, d, hc₀, hr, -, rfl, -⟩ := resolveAt_succ_eq_ok h
    have hlearns : s.Learns t₂ := (Learns.of_resolveAt hc₀).trans (.of_readCell hr)
    rcases hlearns.news c₀ _ (get?_of_readCell hr) with hold | hnew
    · rcases ih hc₀ with hcell | ⟨n, rfl, hlt⟩
      · have hname := Memory.nameAt?_eq_some.mpr ⟨c₀, hcell, hold⟩
        exact .inl (Memory.cellAt?_succ_eq_some.mpr ⟨pointer, hname, rfl⟩)
      · -- behind a new name there was nothing
        have hdeclared : n.index < s.graph.decls.length :=
          Memory.Sound.declared hs n (.pointer hold)
        omega
    · exact .inr ⟨pointer, rfl, hnew⟩

/-- Of the cells that are known, a place is led to the one that it denotes. -/
theorem resolve_iff (hs : s.Sound) (h : resolve env p s = (.ok c, s')) (hc' : s.Offers c') :
    c' = c ↔ s.memory.denoted? env p = some c' := by
  constructor
  · rintro rfl
    rcases hs.cellAt?_or_new h with hcell | ⟨n, rfl, hle⟩
    · exact hcell
    · have hlt : n.index < s.graph.decls.length := hc'
      omega
  · intro hcell
    have hfound := (Learns.of_resolveAt h).cellAt? hcell
    exact Option.some.inj (hfound.symm.trans (cellAt?_of_resolveAt h))

/-- A place that denotes a cell is led there, and memory stays as it is. -/
theorem exists_resolveAt (hs : s.Sound) {l : LocalVar} (hl : env.function.localVar? base = some l)
    (h : s.memory.cellAt? (.of env.depth base) k = some c) :
    ∃ s', resolveAt env base k s = (.ok c, s') ∧ s'.memory = s.memory := by
  induction k generalizing c with
  | zero =>
    cases h
    exact ⟨s, resolveAt_zero_eq_ok.mpr ⟨⟨l, hl⟩, rfl, rfl⟩, rfl⟩
  | succ k ih =>
    obtain ⟨n, hn, rfl⟩ := Memory.cellAt?_succ_eq_some.mp h
    obtain ⟨c₀, hc₀, hget⟩ := Memory.nameAt?_eq_some.mp hn
    obtain ⟨s₁, hs₁, hmem⟩ := ih hc₀
    have hread : readCell env ⟨base, k⟩ c₀ s₁ = (.ok n, s₁) :=
      readCell_of_get? (by rw [hmem]; exact hget)
    have hlt : n.index < s₁.graph.decls.length :=
      Nat.lt_of_lt_of_le (Memory.Sound.declared hs n (.of_get? hget))
        (Learns.of_resolveAt hs₁).length_le
    obtain ⟨s', hs', hmem'⟩ := resolveAt_succ_of hs₁ hread hlt
    exact ⟨s', hs', hmem'.trans hmem⟩

/-- A place shows the name in the cell that it denotes. -/
theorem readCopy_of_denoted? (hs : s.Sound) {l : LocalVar}
    (hl : env.function.localVar? p.base = some l) (hc : s.memory.denoted? env p = some c)
    (hn : s.memory.get? c = some ⟨n, false⟩) : (readCopy env p s).1 = .ok n := by
  obtain ⟨s', hs', -⟩ := hs.exists_resolveAt hl hc
  exact Binding.shown_iff_eq_ok.mp (shown_readCopy hs' hn)

/-! ## Places after a write -/

/-- A place that is not reached over a written cell denotes the same cell after the write. -/
theorem denoted?_set (hs : s.Sound) (hw : resolve env' q s = (.ok c, s'))
    (hp : s.memory.denoted? env p = some c')
    (hpast : ∀ j < p.derefs, s.memory.denoted? env ⟨p.base, j⟩ ≠ s.memory.denoted? env' q) :
    (s'.memory.set c b).denoted? env p = some c' := by
  have hlearns : s.Learns s' := .of_resolveAt hw
  have hthere : s'.memory.denoted? env p = some c' := hlearns.cellAt? hp
  refine (Memory.cellAt?_set fun j hj hcell => ?_).trans hthere
  obtain ⟨c₁, hc₁⟩ := Memory.exists_cellAt?_of_le hp (Nat.le_of_lt hj)
  -- the written cell would be one that the walk to the place passes through
  obtain rfl := Option.some.inj ((hlearns.cellAt? hc₁).symm.trans hcell)
  have hwritten := (hs.resolve_iff hw (hs.offers_cellAt? hc₁)).mp rfl
  exact hpast j hj (hc₁.trans hwritten.symm)

end Sound
end Store

namespace Bank

variable {b : Bank} {m : Memory} {env env' : Env} {p q : Place} {old new : Name} {s s' : Store}

/-- **A write is seen by exactly the places that denote the written cell.**  Take a memory of any
bank, a place that has been read, and a second place that is written then.  If the first place is
not reached over the cell that the second one denotes, it shows the new name if both denote the same
cell, and otherwise the name that it showed before.  Here a slot is a cell, what lies behind a
pointer is one, and the cell of an addressed local is what lies behind its address. -/
theorem write_seen {g : Graph} (h : Leads { graph := g } b) (hm : m ∈ b.memories)
    (hread : Store.readCopy env p ⟨b.graph, m⟩ = (.ok old, s))
    (hwrite : Store.writeFresh env' q s = (.ok new, s'))
    (hpast : ∀ j < p.derefs, s.memory.denoted? env ⟨p.base, j⟩ ≠ s.memory.denoted? env' q) :
    (Store.readCopy env p s').1 =
      .ok (if s.memory.denoted? env p = s.memory.denoted? env' q then new else old) := by
  have hbank : Store.Sound ⟨b.graph, m⟩ := (h.sound (sound_start g)).1 m hm
  have hs : s.Sound := ((Store.keepsSound_readCopy hbank).ok old s hread).1
  have hs' : s'.Sound := ((Store.keepsSound_writeFresh hs).ok new s' hwrite).1
  obtain ⟨c₀, t₀, hc₀, -⟩ := Store.readCopy_eq_ok.mp hread
  obtain ⟨l, hl⟩ := Store.exists_localVar?_of_resolveAt hc₀
  obtain ⟨c, hc, hold⟩ := Memory.nameAt?_eq_some.mp (Store.nameAt?_of_readCopy hread)
  obtain ⟨sort, w, t, -, hw, -, rfl⟩ := Store.writeFresh_eq_ok.mp hwrite
  -- the place still denotes its cell, and only the content of the written cell is new
  have hc' : (t.memory.set w ⟨new, false⟩).denoted? env p = some c :=
    hs.denoted?_set hw hc hpast
  refine hs'.readCopy_of_denoted? hl hc' ?_
  have hsame : c = w ↔ s.memory.denoted? env p = s.memory.denoted? env' q := by
    rw [hs.resolve_iff hw (hs.offers_cellAt? hc), show s.memory.denoted? env p = some c from hc,
      eq_comm]
  show (t.memory.set w ⟨new, false⟩).get? c = _
  rw [Memory.get?_set]
  by_cases hcw : c = w
  · rw [if_pos hcw, if_pos (hsame.mp hcw)]
  · rw [if_neg hcw, if_neg (mt hsame.mpr hcw)]
    exact (Store.Learns.of_resolveAt hw).cells c _ hold

/-! ## A write to an addressed local -/

/-- The pointer has the address of the parameter as value. -/
def pointed : Bank :=
  (valued.step (.operate 0 (.ref pointerEnv ⟨1, 0⟩))).step
    (.operate 0 (.bind pointerEnv ⟨2, 0⟩ ⟨1⟩))

theorem leads_pointed : Leads { graph := (Graph.declare {} .int none).2 } pointed := by
  have hvalued : Leads { graph := (Graph.declare {} .int none).2 } valued :=
    leads_step Nat.zero_lt_one
  have href : valued.Leads (valued.step (.operate 0 (.ref pointerEnv ⟨1, 0⟩))) :=
    leads_step trivial
  exact (hvalued.trans href).trans (leads_step Nat.one_lt_two)

/-- A write to the parameter is seen through the pointer, and a write to the result is not. -/
theorem pointed_write_seen :
    ∃ m s s₁ s₂, m ∈ pointed.memories ∧
      Store.readCopy pointerEnv ⟨2, 1⟩ ⟨pointed.graph, m⟩ = (.ok ⟨0⟩, s) ∧
      Store.writeFresh pointerEnv ⟨1, 0⟩ s = (.ok ⟨2⟩, s₁) ∧
      (Store.readCopy pointerEnv ⟨2, 1⟩ s₁).1 = .ok ⟨2⟩ ∧
      Store.writeFresh pointerEnv ⟨0, 0⟩ s = (.ok ⟨2⟩, s₂) ∧
      (Store.readCopy pointerEnv ⟨2, 1⟩ s₂).1 = .ok ⟨0⟩ := by
  obtain ⟨m, hm⟩ : ∃ m, pointed.memories = [m] := ⟨_, rfl⟩
  have hmem : m ∈ pointed.memories := by rw [hm]; exact List.mem_cons_self
  obtain ⟨s, s₁, s₂, hread, h₁, h₂, hpast₁, hpast₂, hsame₁, hsame₂⟩ : ∃ s s₁ s₂,
      Store.readCopy pointerEnv ⟨2, 1⟩ ⟨pointed.graph, m⟩ = (.ok ⟨0⟩, s) ∧
      Store.writeFresh pointerEnv ⟨1, 0⟩ s = (.ok ⟨2⟩, s₁) ∧
      Store.writeFresh pointerEnv ⟨0, 0⟩ s = (.ok ⟨2⟩, s₂) ∧
      (∀ j < 1, s.memory.denoted? pointerEnv ⟨2, j⟩ ≠ s.memory.denoted? pointerEnv ⟨1, 0⟩) ∧
      (∀ j < 1, s.memory.denoted? pointerEnv ⟨2, j⟩ ≠ s.memory.denoted? pointerEnv ⟨0, 0⟩) ∧
      s.memory.denoted? pointerEnv ⟨2, 1⟩ = s.memory.denoted? pointerEnv ⟨1, 0⟩ ∧
      s.memory.denoted? pointerEnv ⟨2, 1⟩ ≠ s.memory.denoted? pointerEnv ⟨0, 0⟩ := by
    cases hm
    exact ⟨_, _, _, rfl, rfl, rfl, by decide, by decide, rfl, by decide⟩
  have hseen := write_seen leads_pointed hmem hread h₁ hpast₁
  have hunseen := write_seen leads_pointed hmem hread h₂ hpast₂
  rw [if_pos hsame₁] at hseen
  rw [if_neg hsame₂] at hunseen
  exact ⟨m, s, s₁, s₂, hmem, hread, h₁, hseen, h₂, hunseen⟩

end Bank
end NullPath
