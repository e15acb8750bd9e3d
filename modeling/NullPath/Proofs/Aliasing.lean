import NullPath.Proofs.MemoryRuns
import NullPath.Proofs.PointerChains

/-!
# A local and its address

Taking the address of a local moves its value behind the address.  From then on there are several
ways to one storage: the local itself, and every pointer that has the address as value.  As long as
the storage lasts they all lead to the cell behind the address, so they show the same value, and
what is written or moved out on one way is seen on all others.

When the storage of the local ends, the slot loses the address for good, and the next storage of the
same local is another one.  What the old pointers show is still there, and nothing that is done with
the local by its own name can reach it.

* `Store.Accesses`: the ways to a storage whose address is known.
* `Store.Detached`: pointers with an address show something that the local does not reach.
* `Bank.address_coherent`: the storage of a local, as long as it lasts and afterwards.
-/

namespace NullPath

open Action

/-! ## Ways to one storage -/

namespace Store

variable {s s' : Store} {x : Slot} {a n : Name} {env : Env} {r : Place} {b : Binding}

/-- The place is the local of a slot, or what a pointer with this value leads to. -/
inductive Accesses (s : Store) (x : Slot) (a : Name) (env : Env) : Place → Prop
  | base {i : Int} {l : LocalVar} : env.function.localVar? i = some l → .of env.depth i = x →
    Accesses s x a env ⟨i, 0⟩
  | pointer {q : Place} : (readCopy env q s).1 = .ok a → Accesses s x a env q.deref

/-- The slot has this address, which is declared. -/
structure Addressed (s : Store) (x : Slot) (a : Name) : Prop where
  addr : s.memory.addrs.get? x = some a
  declared : a.index < s.graph.decls.length

namespace Addressed

theorem writes (h : s.Addressed x a) (hw : s.Writes s') : s'.Addressed x a :=
  ⟨by rw [hw.addrs]; exact h.addr, Nat.lt_of_lt_of_le h.declared hw.length_le⟩

variable (h : s.Addressed x a) (hr : s.Accesses x a env r)
include h hr

/-- All ways lead to the cell behind the address. -/
theorem resolve : ∃ s', Store.resolve env r s = (.ok (.behind a), s') := by
  cases hr with
  | @base i l hl hx =>
    refine ⟨s, resolveAt_zero_eq_ok.mpr ⟨⟨l, hl⟩, ?_, rfl⟩⟩
    rw [hx, Memory.cellOf, h.addr]
  | pointer hq => exact resolve_deref hq h.declared

theorem eq_behind {c : Cell} (hc : Store.resolve env r s = (.ok c, s')) : c = .behind a := by
  obtain ⟨s₁, hs₁⟩ := h.resolve hr
  rw [hs₁] at hc
  exact (Except.ok.inj (Prod.mk.inj hc).1).symm

/-- So they show what this cell holds. -/
theorem shown (hb : s.memory.get? (.behind a) = some b) : b.Shown (readCopy env r s).1 := by
  obtain ⟨s', hs'⟩ := h.resolve hr
  exact shown_readCopy hs' hb

/-- A name that is bound on one way lies behind the address. -/
theorem bind (hb : Store.bind env r n s = (.ok (), s')) :
    s'.Addressed x a ∧ s'.memory.get? (.behind a) = some ⟨n, false⟩ := by
  have hw := (writes_bind env r n).of_eq hb
  refine ⟨h.writes hw, ?_⟩
  obtain ⟨c, s₁, hc, rfl⟩ := bind_eq_ok.mp hb
  obtain rfl := h.eq_behind hr hc
  rw [bound, Memory.get?_set, if_pos rfl]

/-- So does a new name that is written on one way. -/
theorem writeFresh (hb : Store.writeFresh env r s = (.ok n, s')) :
    s'.Addressed x a ∧ s'.memory.get? (.behind a) = some ⟨n, false⟩ := by
  have hw := (writes_writeFresh env r).of_eq hb
  refine ⟨h.writes hw, ?_⟩
  obtain ⟨sort, c, s₁, -, hc, rfl, rfl⟩ := writeFresh_eq_ok.mp hb
  obtain rfl := h.eq_behind hr hc
  rw [bound, Memory.get?_set, if_pos rfl]

/-- And a value that is moved out on one way is moved out of this cell, because the place leads
there a second time. -/
theorem readMove (hb : Store.readMove env r s = (.ok n, s')) :
    s'.Addressed x a ∧ s'.memory.get? (.behind a) = some ⟨n, true⟩ := by
  have hw := (writes_readMove env r).of_eq hb
  refine ⟨h.writes hw, ?_⟩
  obtain ⟨c, s₁, -, hc, -, rfl⟩ := readMove_eq_bound hb
  obtain rfl := h.eq_behind hr (Prod.ext hc rfl)
  rw [bound, Memory.get?_set, if_pos rfl]

end Addressed

/-- All ways to the storage show the same: a name, or that the value was moved out.  What is bound,
written or moved out on one of them is what all of them show afterwards. -/
structure Coherent (s : Store) (x : Slot) (a : Name) : Prop where
  shown : ∃ b : Binding, ∀ env r, s.Accesses x a env r → b.Shown (readCopy env r s).1
  bound : ∀ env r n s', s.Accesses x a env r → Store.bind env r n s = (.ok (), s') →
    ∀ env' r', s'.Accesses x a env' r' → (readCopy env' r' s').1 = .ok n
  written : ∀ env r n s', s.Accesses x a env r → Store.writeFresh env r s = (.ok n, s') →
    ∀ env' r', s'.Accesses x a env' r' → (readCopy env' r' s').1 = .ok n
  moved : ∀ env r n s', s.Accesses x a env r → Store.readMove env r s = (.ok n, s') →
    ∀ env' r', s'.Accesses x a env' r' →
      ∃ e, (readCopy env' r' s').1 = .error (.error e) ∧ e.cause = .moved

/-- A slot with an address that something lies behind. -/
theorem Addressed.coherent (h : s.Addressed x a) (ha : s.memory.pointees.get? a ≠ none) :
    s.Coherent x a := by
  constructor
  · obtain ⟨b, hb⟩ := Option.ne_none_iff_exists'.mp ha
    exact ⟨b, fun env r hr => h.shown hr hb⟩
  · intro env r n s' hr hb env' r' hr'
    obtain ⟨h', hget⟩ := h.bind hr hb
    exact Binding.shown_iff_eq_ok.mp (h'.shown hr' hget)
  · intro env r n s' hr hb env' r' hr'
    obtain ⟨h', hget⟩ := h.writeFresh hr hb
    exact Binding.shown_iff_eq_ok.mp (h'.shown hr' hget)
  · intro env r n s' hr hb env' r' hr'
    obtain ⟨h', hget⟩ := h.readMove hr hb
    exact Binding.shown_iff_moved.mp (h'.shown hr' hget)

end Store

/-! ## Operations on a local -/

/-- The operation is made on the local of a slot, and not on what the local points to. -/
inductive Memory.Operation.On : Slot → Memory.Operation → Prop
  | bind (env : Env) (base : Int) (n : Name) : On (.of env.depth base) (.bind env ⟨base, 0⟩ n)
  | readCopy (env : Env) (base : Int) : On (.of env.depth base) (.readCopy env ⟨base, 0⟩)
  | readMove (env : Env) (base : Int) : On (.of env.depth base) (.readMove env ⟨base, 0⟩)
  | writeFresh (env : Env) (base : Int) : On (.of env.depth base) (.writeFresh env ⟨base, 0⟩)
  | ref (env : Env) (base : Int) : On (.of env.depth base) (.ref env ⟨base, 0⟩)
  | unbind (env : Env) (base : Int) : On (.of env.depth base) (.unbind env base)
  | drop (x : Slot) : On x (.drop x.depth)

namespace Store

variable {s s' : Store} {a : Name} {env : Env} {b : Binding}

/-- What lies behind a name has not been touched, and the name is still declared. -/
structure Leaves (a : Name) (s s' : Store) : Prop where
  length_le : s.graph.decls.length ≤ s'.graph.decls.length
  pointee : s'.memory.pointees.get? a = s.memory.pointees.get? a

theorem Leaves.refl {a : Name} {s : Store} : Leaves a s s :=
  ⟨Nat.le_refl _, rfl⟩

theorem Leaves.bound {c : Cell} (hc : c ≠ .behind a) : Leaves a s (s.bound c b) := by
  refine ⟨Nat.le_refl _, ?_⟩
  have h := Memory.get?_set s.memory c (.behind a) b
  rwa [if_neg (Ne.symm hc)] at h

/-- A value that goes behind a new address does not go behind an old name. -/
theorem Leaves.addressed (ha : a.index < s.graph.decls.length) (x : Slot) :
    Leaves a s (s.addressed x) := by
  have hne : a ≠ s.nextName := by
    rintro rfl
    exact Nat.lt_irrefl _ ha
  refine ⟨(Writes.declared s .int).length_le, ?_⟩
  show (s.memory.giveAddress x s.nextName).pointees.get? a = _
  unfold Memory.giveAddress
  split
  · rw [Assoc.get?_insert, if_neg hne]
  · rfl

/-- The local itself is found without any read. -/
theorem triple_resolve_base {i : Int} {E : Failure → Store → Prop} (hE : ∀ e, E e s) :
    Triple (resolve env ⟨i, 0⟩) s
      (fun c s' => c = s.memory.cellOf (.of env.depth i) ∧ s' = s) E := by
  unfold resolve resolveAt
  split
  · exact Triple.error (hE _)
  · exact Triple.of_eq_ok rfl ⟨rfl, rfl⟩

/-- Reading a local by its name changes nothing. -/
theorem triple_readCopy_base {i : Int} {E : Failure → Store → Prop} (hE : ∀ e, E e s) :
    Triple (readCopy env ⟨i, 0⟩) s (fun _ s' => s' = s) E := by
  refine Triple.bind (triple_resolve_base hE) ?_
  rintro c s₁ - ⟨-, rfl⟩
  refine ⟨fun n s' h => ?_, fun e s' h => ?_⟩
  · rcases readCell_eq_ok h with ⟨-, hs'⟩ | ⟨-, hne, -⟩
    · exact hs'
    · exact absurd rfl hne
  · unfold readCell at h
    rw [bind_get] at h
    rcases hc : s₁.memory.get? c with _ | ⟨name, _ | _⟩
    all_goals
      rw [hc] at h
      obtain ⟨-, rfl⟩ := Prod.mk.inj h
      exact hE e

end Store

namespace Memory.Operation

variable {s : Store} {x : Slot} {a : Name} {o : Operation}

/-- An operation on a local does not reach what lies behind a name, unless the name is the address
that the local has. -/
theorem leaves (hx : s.memory.addrs.get? x ≠ some a) (ha : a.index < s.graph.decls.length)
    (ho : o.On x) : Store.Leaves a s (o.run s).2 := by
  have hrefl : ∀ _ : Failure, Store.Leaves a s s := fun _ => .refl
  have hcell : s.memory.cellOf x ≠ .behind a := by
    intro h
    unfold Memory.cellOf at h
    split at h
    · next a' ha' =>
      cases h
      exact hx ha'
    · cases h
  cases ho with
  | bind env base n =>
    rw [run, bind_pure_state]
    refine Triple.state (Triple.bind (Store.triple_resolve_base hrefl) ?_)
    rintro c s₁ - ⟨rfl, rfl⟩
    exact Triple.of_eq_ok rfl (.bound hcell)
  | readCopy env base =>
    rw [run, bind_pure_state]
    refine Triple.state ((Store.triple_readCopy_base hrefl).mono ?_ fun _ _ h => h)
    rintro n s₁ rfl
    exact .refl
  | readMove env base =>
    rw [run, bind_pure_state]
    refine Triple.state (Triple.bind (Store.triple_readCopy_base hrefl) ?_)
    rintro n s₁ - rfl
    refine Triple.bind (Store.triple_resolve_base hrefl) ?_
    rintro c s₂ - ⟨rfl, rfl⟩
    exact Triple.of_eq_ok rfl (.bound hcell)
  | writeFresh env base =>
    rw [run, bind_pure_state]
    refine Triple.state (Triple.bind
      (Triple.lift (fun _ _ => rfl) fun _ _ => .refl) ?_)
    rintro sort s₁ - rfl
    refine Triple.bind (Store.triple_resolve_base hrefl) ?_
    rintro c s₂ - ⟨rfl, rfl⟩
    refine Triple.of_eq_ok rfl ⟨(Store.Writes.declared s₂ sort).length_le, ?_⟩
    exact (Store.Leaves.bound hcell).pointee
  | ref env base =>
    rw [run, bind_pure_state]
    rcases Store.ref_state_cases env ⟨base, 0⟩ s with ⟨q, hq, -⟩ | h | ⟨-, h⟩
    · cases hq
    · rw [h]
      exact .refl
    · rw [h]
      exact .addressed ha _
  | unbind env base | drop x => exact ⟨Nat.le_refl _, rfl⟩

end Memory.Operation

namespace Store

variable {s : Store} {x : Slot} {a : Name}

/-- Pointers with this value show something, and no operation on the local of the slot changes what
they show. -/
def Detached (s : Store) (x : Slot) (a : Name) : Prop :=
  ∀ o : Memory.Operation, o.On x → ∃ b : Binding,
    (∀ env q, (readCopy env q s).1 = .ok a → b.Shown (readCopy env q.deref s).1) ∧
      ∀ env q, (readCopy env q (o.run s).2).1 = .ok a →
        b.Shown (readCopy env q.deref (o.run s).2).1

theorem detached (hx : s.memory.addrs.get? x ≠ some a) (ha : a.index < s.graph.decls.length)
    (hb : s.memory.pointees.get? a ≠ none) : s.Detached x a := by
  intro o ho
  obtain ⟨b, hb⟩ := Option.ne_none_iff_exists'.mp hb
  have hleaves := o.leaves hx ha ho
  exact ⟨b, fun env q hq => shown_deref hq ha hb, fun env q hq =>
    shown_deref hq (Nat.lt_of_lt_of_le ha hleaves.length_le) (hleaves.pointee.trans hb)⟩

end Store

/-! ## Histories -/

namespace Bank

variable {b b' : Bank} {i k : Nat} {m m' : Memory} {os : List Memory.Operation} {a : Name}
  {env : Env} {base : Int} {isNew : Bool} {s : Store}

/-- The value that a local has when its address is taken lies behind the address. -/
theorem pointee_of_ref
    (hrun : (Memory.Operation.ref env ⟨base, 0⟩).run ⟨b.graph, m⟩ = (.ok (.address a isNew), s))
    (hbound : m.get? (m.cellOf (.of env.depth base)) ≠ none) :
    s.memory.pointees.get? a ≠ none := by
  obtain ⟨⟨n, new⟩, s₁, hn, h₁⟩ := Action.bind_eq_ok.mp hrun
  obtain ⟨heq, rfl⟩ := Action.pure_eq_ok.mp h₁
  obtain ⟨rfl, rfl⟩ := Memory.Answer.address.inj heq
  rcases Store.ref_eq_ok hn with ⟨q, hq, -⟩ | ⟨-, -, ⟨ha, -, rfl⟩ | ⟨ha, -, rfl, rfl⟩⟩
  · cases hq
  · rw [Memory.cellOf, ha] at hbound
    exact hbound
  · rw [Memory.cellOf, ha] at hbound
    obtain ⟨c, hc⟩ := Option.ne_none_iff_exists'.mp hbound
    have hlocal : m.locals.get? (.of env.depth base) = some c := hc
    show (m.giveAddress _ _).pointees.get? _ ≠ none
    rw [Memory.giveAddress, hlocal, Assoc.get?_insert, if_pos rfl]
    exact Option.some_ne_none c

/-- **A local and its address.**  Let a local of some memory have a value, moved out or not, when
its address is taken, and follow this memory or a copy of it through any further operations.  As
long as none of them ends the storage of the local, the local and all pointers with the address as
value show the same, and what is bound, written or moved out on one of these ways is what all of
them show.  After the storage has ended, no operation on the local changes what such pointers show.
-/
theorem address_coherent {g : Graph} (h : Leads { graph := g } b) (hm : b.memories[i]? = some m)
    (hbound : m.get? (m.cellOf (.of env.depth base)) ≠ none)
    (hrun : (Memory.Operation.ref env ⟨base, 0⟩).run ⟨b.graph, m⟩ = (.ok (.address a isNew), s))
    (hline : (b.step (.operate i (.ref env ⟨base, 0⟩))).Line i b' k os)
    (hm' : b'.memories[k]? = some m') :
    ((∀ o ∈ os, ¬o.Ends (.of env.depth base)) →
        Store.Coherent ⟨b'.graph, m'⟩ (.of env.depth base) a) ∧
      ((∃ o ∈ os, o.Ends (.of env.depth base)) →
        Store.Detached ⟨b'.graph, m'⟩ (.of env.depth base) a) := by
  have hb := (h.sound (sound_start g)).1
  obtain ⟨hsound, hmem, hlt, -⟩ := exists_addressed hb hm hrun
  have hdeclared : a.index < b'.graph.decls.length :=
    Nat.lt_of_lt_of_le hlt (hline.leads.sound hsound).2
  have hpointee : m'.pointees.get? a ≠ none :=
    hline.pointees_ne_none hsound hmem hm' (pointee_of_ref hrun hbound)
  have hattached := hline.attached_iff (x := .of env.depth base) hb hm hrun hm'
  constructor
  · intro hnone
    have haddr : m'.addrs.get? (.of env.depth base) = some a := hattached.mpr ⟨rfl, hnone⟩
    exact Store.Addressed.coherent ⟨haddr, hdeclared⟩ hpointee
  · rintro ⟨o, ho, hends⟩
    refine Store.detached (fun haddr => ?_) hdeclared hpointee
    exact (hattached.mp haddr).2 o ho hends

/-! ## A write through a pointer -/

/-- A position in a function with a parameter and a pointer. -/
def pointerEnv : Env where
  function :=
    { name := "f", locals := [⟨"", .integer⟩, ⟨"x", .integer⟩, ⟨"p", .pointerTo .integer⟩],
      argCount := 1, blocks := [] }

/-- The parameter has a value. -/
def valued : Bank :=
  step { graph := (Graph.declare {} .int none).2 } (.operate 0 (.bind pointerEnv ⟨1, 0⟩ ⟨0⟩))

/-- The pointer gets the address of the parameter, and a new name is written through it. -/
def writtenThrough : Bank :=
  ((valued.step (.operate 0 (.ref pointerEnv ⟨1, 0⟩))).step
    (.operate 0 (.bind pointerEnv ⟨2, 0⟩ ⟨1⟩))).step (.operate 0 (.writeFresh pointerEnv ⟨2, 1⟩))

/-- The new name is seen in the parameter.  When the storage of the parameter has ended, the pointer
still shows it. -/
theorem writtenThrough_coherent :
    ∃ m, writtenThrough.memories[0]? = some m ∧
      Store.Coherent ⟨writtenThrough.graph, m⟩ (.of 0 1) ⟨1⟩ ∧
      (Store.readCopy pointerEnv ⟨1, 0⟩ ⟨writtenThrough.graph, m⟩).1 = .ok ⟨2⟩ ∧
      ∃ m', (writtenThrough.step (.operate 0 (.unbind pointerEnv 1))).memories[0]? = some m' ∧
        Store.Detached ⟨writtenThrough.graph, m'⟩ (.of 0 1) ⟨1⟩ ∧
        (Store.readCopy pointerEnv ⟨2, 1⟩ ⟨writtenThrough.graph, m'⟩).1 = .ok ⟨2⟩ := by
  have hvalued : Leads { graph := (Graph.declare {} .int none).2 } valued :=
    leads_step (e := .operate 0 (.bind _ _ ⟨0⟩)) Nat.zero_lt_one
  have hpointer := Line.operate (o := .bind pointerEnv ⟨2, 0⟩ ⟨1⟩)
    (Line.start (b := valued.step (.operate 0 (.ref pointerEnv ⟨1, 0⟩))) (i := 0)) Nat.one_lt_two
  have hlasts := hpointer.operate (o := .writeFresh pointerEnv ⟨2, 1⟩) trivial
  have hended := hlasts.operate (o := .unbind pointerEnv 1) trivial
  obtain ⟨m, hm⟩ : ∃ m, valued.memories[0]? = some m := ⟨_, rfl⟩
  obtain ⟨s, hs⟩ : ∃ s, (Memory.Operation.ref pointerEnv ⟨1, 0⟩).run ⟨valued.graph, m⟩ =
      (.ok (.address ⟨1⟩ true), s) := by
    cases hm
    exact ⟨_, rfl⟩
  have hbound : m.get? (m.cellOf (.of pointerEnv.depth 1)) ≠ none := by
    cases hm
    decide
  obtain ⟨hcoherent, -⟩ := address_coherent hvalued hm hbound hs hlasts rfl
  obtain ⟨-, hdetached⟩ := address_coherent hvalued hm hbound hs hended rfl
  refine ⟨_, rfl, hcoherent ?_, rfl, _, rfl, hdetached ?_, rfl⟩
  · simp [Memory.Operation.Ends]
  · exact ⟨_, List.mem_concat_self, rfl⟩

end Bank
end NullPath
