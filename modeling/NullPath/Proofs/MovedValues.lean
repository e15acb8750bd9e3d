import NullPath.Proofs.Aliasing

/-!
# Values that have been moved out

A value that is moved out of a place leaves a mark in its cell.  As long as nothing is written there
and the storage lasts, the mark stays: reads leave it alone, even those that fail, a move out of the
cell is refused, and what happens to other cells does not reach it.  Only the cell itself may go
elsewhere.  When the address of a local is taken, all that its slot holds goes behind the address,
and the mark with it.

So the cell has to be followed through a history of its memory and of the copies of it.  Wherever
the cell is then, each place that leads there finds the mark.

* `Memory.relocated`: where the content of a cell is found after an operation.
* `Memory.Operation.retains_moved`: one operation keeps the mark.
* `Bank.Stays`: a cell through a history in which it gets no value and its storage does not end.
* `Bank.moved_unreadable`: the mark is found at the end.
-/

namespace NullPath

open Action

/-! ## Where a cell is found -/

/-- Where the content of a cell is found: a slot that has got an address has it behind the address.
-/
def Memory.relocated (m : Memory) : Cell → Cell
  | .slot x => m.cellOf x
  | .behind p => .behind p

namespace Memory

variable {m m' : Memory} {count : Nat} {c : Cell} {b : Binding} {x : Slot}

/-- A slot that holds something has no address. -/
theorem Sound.addrs_of_get? (hs : m.Sound count) (hc : m.get? (.slot x) = some b) :
    m.addrs.get? x = none := by
  cases ha : m.addrs.get? x with
  | none => rfl
  | some a => cases (hs.apart x a ha).symm.trans hc

/-- A cell that holds something stays where it is while its slot gets no address. -/
theorem Sound.relocated_eq (hs : m.Sound count) (hc : m.get? c = some b)
    (h : ∀ x, c = .slot x → m'.addrs.get? x = m.addrs.get? x) : m'.relocated c = c := by
  cases c with
  | slot x =>
    show m'.cellOf x = .slot x
    rw [cellOf, h x rfl, hs.addrs_of_get? hc]
  | behind p => rfl

end Memory

namespace Store

variable {s t : Store} {c c' : Cell} {b b' : Binding} {x : Slot}

/-- What was in a cell is found in the store. -/
def Retains (s : Store) (c : Cell) (b : Binding) : Prop :=
  s.memory.get? (s.memory.relocated c) = some b

namespace Sound

variable (hs : s.Sound) (hc : s.memory.get? c = some b)
include hs hc

theorem retains_discovers (hd : s.Discovers t) : t.Retains c b := by
  have hloc : t.memory.relocated c = c :=
    Memory.Sound.relocated_eq hs hc fun x _ => by rw [hd.addrs]
  rw [Retains, hloc]
  exact hd.cells c b hc

/-- Another cell is overwritten. -/
theorem retains_bound (hd : s.Discovers t) (hne : c ≠ c') : (t.bound c' b').Retains c b := by
  have hloc : (t.bound c' b').memory.relocated c = c :=
    Memory.Sound.relocated_eq hs hc fun x _ => by rw [Store.bound, Memory.addrs_set, hd.addrs]
  rw [Retains, hloc, Store.bound, Memory.get?_set, if_neg hne]
  exact hd.cells c b hc

/-- A slot gets a new address, behind which all goes that was in the slot. -/
theorem retains_addressed (x : Slot) : (s.addressed x).Retains c b := by
  have hnew : s.memory.pointees.get? s.nextName = none := by
    cases hp : s.memory.pointees.get? s.nextName with
    | none => rfl
    | some b' => exact absurd (Memory.Sound.declared hs _ (.pointer hp)) (Nat.lt_irrefl _)
  have haddrs := Memory.get?_addrs_giveAddress s.memory x (n := s.nextName)
  show (s.memory.giveAddress x s.nextName).get? _ = some b
  rw [Memory.get?_giveAddress hnew]
  by_cases hcx : c = .slot x
  · subst hcx
    have hloc : (s.addressed x).memory.relocated (.slot x) = .behind s.nextName := by
      show (s.memory.giveAddress x s.nextName).cellOf x = _
      rw [Memory.cellOf, haddrs, if_pos rfl]
    rw [hloc, if_pos rfl]
    exact hc
  · have hloc : (s.addressed x).memory.relocated c = c := by
      refine Memory.Sound.relocated_eq hs hc fun y hy => ?_
      refine (haddrs y).trans (if_neg fun hyx => hcx ?_)
      rw [hy, hyx]
    have hold : c ≠ .behind s.nextName := by
      rintro rfl
      cases hnew.symm.trans hc
    rw [hloc, if_neg hold, if_neg hcx]
    exact hc

/-- The storage of some slots ends, and the cell is none of them. -/
theorem retains_ended {m : Memory} (hpointees : m.pointees = s.memory.pointees)
    (hslots : ∀ x, c = .slot x →
      m.locals.get? x = s.memory.locals.get? x ∧ m.addrs.get? x = s.memory.addrs.get? x) :
    Retains { s with memory := m } c b := by
  have hloc : m.relocated c = c :=
    Memory.Sound.relocated_eq hs hc fun x hx => (hslots x hx).2
  show m.get? (m.relocated c) = some b
  rw [hloc]
  cases c with
  | slot x => exact (hslots x rfl).1.trans hc
  | behind p =>
    show m.pointees.get? p = some b
    rw [hpointees]
    exact hc

end Sound
end Store

/-! ## One operation -/

namespace Memory.Operation

variable {s : Store} {o : Operation} {c : Cell} {n : Name}

/-- The operation succeeds in giving the cell a new value. -/
inductive Fills (s : Store) (c : Cell) : Operation → Prop
  | bind {env : Env} {p : Place} {n : Name} {s' : Store} : Store.bind env p n s = (.ok (), s') →
    (Store.resolve env p s).1 = .ok c → Fills s c (.bind env p n)
  | writeFresh {env : Env} {p : Place} {n : Name} {s' : Store} :
    Store.writeFresh env p s = (.ok n, s') → (Store.resolve env p s).1 = .ok c →
      Fills s c (.writeFresh env p)

/-- The operation ends the storage of the slot that the cell is. -/
def Frees (c : Cell) (o : Operation) : Prop :=
  ∃ x, c = .slot x ∧ o.Ends x

/-- A move takes its value out of another cell, if it is not refused. -/
theorem retains_readMove (hs : s.Sound) (hc : s.memory.get? c = some ⟨n, true⟩) (env : Env)
    (p : Place) : (Store.readMove env p s).2.Retains c ⟨n, true⟩ := by
  have hfailed : Triple (Store.readMove env p) s (fun _ _ => True) fun _ s' => s.Discovers s' := by
    have hcopy := Store.discovers_readCopy env p
    refine Triple.bind ⟨fun _ _ _ => trivial, fun e s' h => hcopy.of_eq h⟩ ?_
    rintro n' s₁ h₁ -
    have hd := hcopy.of_eq h₁
    refine Triple.bind ⟨fun _ _ _ => trivial, fun e s' h =>
      hd.trans ((Store.discovers_resolve env p).of_eq h)⟩ ?_
    rintro c' s₂ - -
    exact Triple.of_eq_ok rfl trivial
  refine Triple.state (P := fun t : Store => t.Retains c ⟨n, true⟩)
    ⟨fun n' s' h => ?_, fun e s' h => ?_⟩
  · obtain ⟨c', s₁, hread, -, hget, rfl⟩ := Store.readMove_eq_bound h
    have hd := (Store.discovers_readCopy env p).of_eq hread
    refine hs.retains_bound hc hd ?_
    rintro rfl
    cases (hd.cells c _ hc).symm.trans hget
  · exact hs.retains_discovers hc (hfailed.failed e s' h)

/-- **One operation.**  A value that has been moved out is still marked after an operation that does
not give its cell a value and does not end its storage. -/
theorem retains_moved (hs : s.Sound) (hc : s.memory.get? c = some ⟨n, true⟩)
    (hfills : ¬o.Fills s c) (hfrees : ¬o.Frees c) : (o.run s).2.Retains c ⟨n, true⟩ := by
  have hreads : ∀ {t : Store}, s.Discovers t → t.Retains c ⟨n, true⟩ := hs.retains_discovers hc
  cases o with
  | bind env p n' =>
    rw [run, bind_pure_state]
    refine Triple.state (Triple.bind
      ⟨fun _ _ _ => trivial, fun e t h => hreads ((Store.discovers_resolve env p).of_eq h)⟩ ?_)
    rintro c' t hc' -
    refine Triple.of_eq_ok rfl (hs.retains_bound hc ((Store.discovers_resolve env p).of_eq hc') ?_)
    rintro rfl
    exact hfills (.bind (Store.bind_eq_ok.mpr ⟨c, t, hc', rfl⟩) (congrArg Prod.fst hc'))
  | readCopy env p =>
    rw [run, bind_pure_state]
    exact hreads (Store.discovers_readCopy env p s)
  | readMove env p =>
    rw [run, bind_pure_state]
    exact retains_readMove hs hc env p
  | writeFresh env p =>
    rw [run, bind_pure_state]
    refine Triple.state (P := fun t => t.Retains c ⟨n, true⟩) (Triple.bind
      (Q := fun sort t => env.function.placeSort p = .ok sort ∧ t = s)
      (Triple.lift (fun sort h => ⟨h, rfl⟩) fun _ _ => hreads .refl) ?_)
    rintro sort t - ⟨hsort, rfl⟩
    refine Triple.bind
      ⟨fun _ _ _ => trivial, fun e t' h => hreads ((Store.discovers_resolve env p).of_eq h)⟩ ?_
    rintro c' t' hc' -
    have hne : c ≠ c' := by
      rintro rfl
      exact hfills (.writeFresh (Store.writeFresh_eq_ok.mpr ⟨sort, c, t', hsort, hc', rfl, rfl⟩)
        (congrArg Prod.fst hc'))
    have hd : t.Discovers (t'.declared sort) :=
      ((Store.discovers_resolve env p).of_eq hc').trans
        (.of_graph (Store.Writes.declared t' sort).length_le)
    exact Triple.of_eq_ok rfl (hs.retains_bound hc hd hne)
  | ref env p =>
    rw [run, bind_pure_state]
    rcases Store.ref_state_cases env p s with ⟨q, -, hq⟩ | h | ⟨-, h⟩
    · rw [hq]
      exact hreads (Store.discovers_readCopy env q s)
    · rw [h]
      exact hreads .refl
    · rw [h]
      exact hs.retains_addressed hc _
  | unbind env base =>
    refine hs.retains_ended hc rfl fun x hx => ?_
    have hne : x ≠ .of env.depth base := fun h => hfrees ⟨x, hx, h⟩
    exact ⟨(Assoc.get?_erase ..).trans (if_neg hne), (Assoc.get?_erase ..).trans (if_neg hne)⟩
  | drop depth =>
    refine hs.retains_ended hc rfl fun x hx => ?_
    have hne : ((x.depth : Int) != depth) = true := bne_iff_ne.mpr fun h => hfrees ⟨x, hx, h⟩
    exact ⟨(Assoc.get?_filterKeys ..).trans (if_pos hne),
      (Assoc.get?_filterKeys ..).trans (if_pos hne)⟩

end Memory.Operation

/-! ## Places that lead to the mark -/

namespace Store

variable {s t : Store} {env : Env} {p : Place} {c : Cell} {n : Name}

/-- The action is refused because a value has been moved out. -/
def RefusesMoved {α : Type} (x : Action Store α) (s : Store) : Prop :=
  ∃ e, (x s).1 = .error (.error e) ∧ e.cause = .moved

theorem refusesMoved_readCopy (hc : resolve env p s = (.ok c, t))
    (hget : s.memory.get? c = some ⟨n, true⟩) : RefusesMoved (readCopy env p) s :=
  Binding.shown_iff_moved.mp (shown_readCopy hc hget)

/-- A move begins with a read. -/
theorem RefusesMoved.readMove (h : RefusesMoved (readCopy env p) s) :
    RefusesMoved (readMove env p) s := by
  obtain ⟨e, he, hcause⟩ := h
  refine ⟨e, ?_, hcause⟩
  unfold Store.readMove
  rw [bind_apply]
  cases hr : readCopy env p s with
  | mk r s' =>
    rw [hr] at he
    cases he
    rfl

end Store

/-! ## Histories -/

namespace Bank

variable {b b' : Bank} {i k : Nat} {m m' : Memory} {c c' : Cell} {n : Name} {env : Env} {p : Place}
  {s : Store}

/-- A cell of a memory, followed through further events.  They may copy the memory and make
operations on it and on all others, but none that gives the cell a value or ends its storage.  The
last memory is the one at the given position, and there the cell is at the given place. -/
inductive Stays (b : Bank) (i : Nat) (c : Cell) : Bank → Nat → Cell → Prop
  | start : Stays b i c b i c
  | operate {b' : Bank} {k : Nat} {c' : Cell} {m : Memory} {o : Memory.Operation} :
    Stays b i c b' k c' → b'.memories[k]? = some m → b'.Allows (.operate k o) →
      ¬o.Fills ⟨b'.graph, m⟩ c' → ¬o.Frees c' →
      Stays b i c (b'.step (.operate k o)) k ((o.run ⟨b'.graph, m⟩).2.memory.relocated c')
  | fork {b' : Bank} {k : Nat} {c' : Cell} :
    Stays b i c b' k c' → Stays b i c (b'.step (.fork k)) b'.memories.length c'
  | aside {b' : Bank} {k : Nat} {c' : Cell} {e : Event} :
    Stays b i c b' k c' → b'.Allows e → (∀ o, e ≠ .operate k o) →
      Stays b i c (b'.step e) k c'

theorem Stays.leads (h : b.Stays i c b' k c') : b.Leads b' := by
  induction h with
  | start => exact .refl
  | operate _ _ ho _ _ ih => exact ih.tail ⟨_, ho, rfl⟩
  | fork _ ih => exact ih.tail ⟨.fork _, trivial, rfl⟩
  | aside _ he _ ih => exact ih.tail ⟨_, he, rfl⟩

/-- The mark stays in the cell. -/
theorem Stays.exists_moved (h : b.Stays i c b' k c') (hb : b.Sound) (hm : b.memories[i]? = some m)
    (hc : m.get? c = some ⟨n, true⟩) :
    ∃ m', b'.memories[k]? = some m' ∧ m'.get? c' = some ⟨n, true⟩ := by
  induction h with
  | start => exact ⟨m, hm, hc⟩
  | @operate b' k c' m₁ o hstays hm₁ _ hfills hfrees ih =>
    obtain ⟨m', hm', hget⟩ := ih
    obtain rfl := Option.mem_unique hm₁ hm'
    have hsound : Store.Sound ⟨b'.graph, m₁⟩ :=
      (hstays.leads.sound hb).1 m₁ (List.mem_of_getElem? hm₁)
    rw [step_operate hm₁]
    exact ⟨_, List.getElem?_set_self (lt_length_of_getElem? hm₁),
      Memory.Operation.retains_moved hsound hget hfills hfrees⟩
  | @fork b' k c' _ ih =>
    obtain ⟨m', hm', hget⟩ := ih
    rw [step_fork hm']
    exact ⟨m', List.getElem?_concat_length, hget⟩
  | aside _ _ hne ih =>
    obtain ⟨m', hm', hget⟩ := ih
    exact ⟨m', Line.getElem?_step hm' hne, hget⟩

/-- **A moved value cannot be read again.**  Let a value be moved out of a place of some memory, and
follow its cell through any further operations on this memory and its copies, of which none gives
the cell a value and none ends its storage.  Then reads and moves of all places that lead to the
cell are refused because the value has been moved out, and a local whose cell it is has no value. -/
theorem moved_unreadable {g : Graph} (h : Leads { graph := g } b) (hm : b.memories[i]? = some m)
    (hmove : Store.readMove env p ⟨b.graph, m⟩ = (.ok n, s))
    (hc : (Store.resolve env p ⟨b.graph, m⟩).1 = .ok c)
    (hstays : (b.step (.operate i (.readMove env p))).Stays i c b' k c')
    (hm' : b'.memories[k]? = some m') :
    (∀ env' q t, Store.resolve env' q ⟨b'.graph, m'⟩ = (.ok c', t) →
        Store.RefusesMoved (Store.readCopy env' q) ⟨b'.graph, m'⟩ ∧
          Store.RefusesMoved (Store.readMove env' q) ⟨b'.graph, m'⟩) ∧
      ∀ depth base, m'.cellOf (.of depth base) = c' → m'.lookup? depth base = none := by
  have hb := (h.sound (sound_start g)).1
  have hsound := (hb.step (e := .operate i (.readMove env p)) trivial).1
  obtain ⟨c₀, s₁, -, hc₀, -, rfl⟩ := Store.readMove_eq_bound hmove
  obtain rfl : c₀ = c := Except.ok.inj (hc₀.symm.trans hc)
  have hrun : ((Memory.Operation.readMove env p).run ⟨b.graph, m⟩).2 = s₁.bound c₀ ⟨n, true⟩ := by
    rw [Memory.Operation.run, bind_pure_state, hmove]
  have hstart : (b.step (.operate i (.readMove env p))).memories[i]? =
      some (s₁.bound c₀ ⟨n, true⟩).memory := by
    rw [step_operate hm, hrun]
    exact List.getElem?_set_self (lt_length_of_getElem? hm)
  have hmark : (s₁.bound c₀ ⟨n, true⟩).memory.get? c₀ = some ⟨n, true⟩ :=
    (Memory.get?_set ..).trans (if_pos rfl)
  obtain ⟨m₁, hm₁, hget⟩ := hstays.exists_moved hsound hstart hmark
  obtain rfl := Option.mem_unique hm₁ hm'
  refine ⟨fun env' q t hq => ?_, fun depth base hcell => ?_⟩
  · have hread : Store.RefusesMoved (Store.readCopy env' q) ⟨b'.graph, m₁⟩ :=
      Store.refusesMoved_readCopy hq hget
    exact ⟨hread, hread.readMove⟩
  · rw [Memory.lookup?_eq_value?, hcell, Memory.value?, hget]

/-! ## A moved local whose address is taken -/

/-- The parameter has been moved out. -/
def emptied : Bank :=
  valued.step (.operate 0 (.readMove pointerEnv ⟨1, 0⟩))

/-- Its address is taken and given to the pointer, and then the memory is copied. -/
def emptiedCopy : Bank :=
  ((emptied.step (.operate 0 (.ref pointerEnv ⟨1, 0⟩))).step
    (.operate 0 (.bind pointerEnv ⟨2, 0⟩ ⟨1⟩))).step (.fork 0)

/-- In the copy, neither the local nor the pointer shows the value. -/
theorem emptiedCopy_unreadable :
    ∃ m, emptiedCopy.memories[1]? = some m ∧
      Store.RefusesMoved (Store.readCopy pointerEnv ⟨2, 1⟩) ⟨emptiedCopy.graph, m⟩ ∧
      Store.RefusesMoved (Store.readMove pointerEnv ⟨1, 0⟩) ⟨emptiedCopy.graph, m⟩ ∧
      m.lookup? 0 1 = none := by
  have hvalued : Leads { graph := (Graph.declare {} .int none).2 } valued :=
    leads_step (e := .operate 0 (.bind _ _ ⟨0⟩)) Nat.zero_lt_one
  obtain ⟨m, hm⟩ : ∃ m, valued.memories[0]? = some m := ⟨_, rfl⟩
  obtain ⟨s, hmove, hc⟩ : ∃ s,
      Store.readMove pointerEnv ⟨1, 0⟩ ⟨valued.graph, m⟩ = (.ok ⟨0⟩, s) ∧
        (Store.resolve pointerEnv ⟨1, 0⟩ ⟨valued.graph, m⟩).1 = .ok (.slot (.of 0 1)) := by
    cases hm
    exact ⟨_, rfl, rfl⟩
  have hstart : emptied.Stays 0 (.slot (.of 0 1)) emptied 0 (.slot (.of 0 1)) := .start
  -- the mark goes behind the address, and the pointer is another cell
  have href : emptied.Stays 0 (.slot (.of 0 1))
      (emptied.step (.operate 0 (.ref pointerEnv ⟨1, 0⟩))) 0 (.behind ⟨1⟩) :=
    hstart.operate rfl trivial (by rintro ⟨⟩) (by rintro ⟨x, -, ⟨⟩⟩)
  have hbind : emptied.Stays 0 (.slot (.of 0 1))
      ((emptied.step (.operate 0 (.ref pointerEnv ⟨1, 0⟩))).step
        (.operate 0 (.bind pointerEnv ⟨2, 0⟩ ⟨1⟩))) 0 (.behind ⟨1⟩) := by
    refine href.operate rfl Nat.one_lt_two ?_ (by rintro ⟨x, ⟨⟩, -⟩)
    rintro (⟨-, hres⟩ | -)
    cases hres
  obtain ⟨m', hm', hcell, hq⟩ : ∃ m', emptiedCopy.memories[1]? = some m' ∧
      m'.cellOf (.of 0 1) = .behind ⟨1⟩ ∧
      ∃ t, Store.resolve pointerEnv ⟨2, 1⟩ ⟨emptiedCopy.graph, m'⟩ = (.ok (.behind ⟨1⟩), t) :=
    ⟨_, rfl, rfl, _, rfl⟩
  obtain ⟨hrefused, hlookup⟩ := moved_unreadable hvalued hm hmove hc hbind.fork hm'
  obtain ⟨t, ht⟩ := hq
  have hbase : Store.resolve pointerEnv ⟨1, 0⟩ ⟨emptiedCopy.graph, m'⟩ =
      (.ok (.behind ⟨1⟩), ⟨emptiedCopy.graph, m'⟩) :=
    Store.resolveAt_zero_eq_ok.mpr ⟨⟨_, rfl⟩, hcell.symm, rfl⟩
  exact ⟨m', hm', (hrefused pointerEnv _ t ht).1, (hrefused pointerEnv _ _ hbase).2,
    hlookup 0 1 hcell⟩

end Bank
end NullPath
