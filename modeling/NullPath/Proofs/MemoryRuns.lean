import Mathlib.Logic.Relation
import NullPath.Proofs.CellAccess

/-!
# Histories of memories

Memories are copied, and each copy goes its own way, but all of them take their names from one
graph.  What can be said about every memory is therefore said about a bank: some memories and the
graph that they share.  A bank begins with an empty memory.  Then memories are copied and operated
on, with success or not, and somebody else may declare more names.

Three maps make up a memory, and every operation keeps them in order.  A slot holds its value itself
or has an address, but never both.  Two slots have different addresses.  Whatever is stored is
declared, and what has been stored behind a pointer once is never removed.

An address is the name that was new when it was taken, so it cannot be taken as new a second time,
in any memory.  It belongs to one storage of one local: until this storage ends it stays with the
slot, and after that no slot of this memory or of a copy has it ever again.

* `Memory.Operation`: the operations and what they return.
* `Memory.Sound`: the order of the three maps.
* `Memory.Operation.steps`: what one operation does, however it ends.
* `Bank`, `Bank.Leads`, `Bank.Line`: memories with a common graph, and what becomes of one of them.
* `Bank.Line.addrs_iff`: the addresses of a memory, in terms of those of an earlier one.
* `Bank.memories_in_order`: what holds in every bank.
-/

namespace NullPath

open Action Store

/-! ## Operations -/

namespace Memory

/-- An operation on a memory, with the position at which it is made. -/
inductive Operation
  | bind (env : Env) (p : Place) (n : Name)
  | readCopy (env : Env) (p : Place)
  | readMove (env : Env) (p : Place)
  | writeFresh (env : Env) (p : Place)
  | ref (env : Env) (p : Place)
  | unbind (env : Env) (base : Int)
  | drop (depth : Int)

/-- What an operation returns. -/
inductive Answer
  | done
  | name (n : Name)
  | address (n : Name) (isNew : Bool)
  deriving DecidableEq

namespace Operation

/-- Carries the operation out. -/
def run : Operation → Action Store Answer
  | .bind env p n => do
    Store.bind env p n
    return .done
  | .readCopy env p => return .name (← Store.readCopy env p)
  | .readMove env p => return .name (← Store.readMove env p)
  | .writeFresh env p => return .name (← Store.writeFresh env p)
  | .ref env p => do
    let r ← Store.ref env p
    return .address r.1 r.2
  | .unbind env base => do
    Store.unbind env base
    return .done
  | .drop depth => do
    Store.drop depth
    return .done

/-- The operation ends the storage of a slot. -/
def Ends (x : Slot) : Operation → Prop
  | .unbind env base => x = .of env.depth base
  | .drop depth => (x.depth : Int) = depth
  | _ => False

/-- Only a declared name may be bound. -/
def Allowed (g : Graph) : Operation → Prop
  | .bind _ _ n => n.index < g.decls.length
  | _ => True

end Operation

/-! ## Sound memories -/

/-- The three maps of a memory are in order, where so many names are declared. -/
structure Sound (m : Memory) (count : Nat) : Prop where
  apart : ∀ x a, m.addrs.get? x = some a → m.locals.get? x = none
  distinct : ∀ x y a, m.addrs.get? x = some a → m.addrs.get? y = some a → x = y
  declared : ∀ n, m.Mentions n → n.index < count

/-- A cell that may hold a value: a slot without an address, or what lies behind a declared name. -/
def Offers (m : Memory) (count : Nat) : Cell → Prop
  | .slot x => m.addrs.get? x = none
  | .behind p => p.index < count

namespace Sound

variable {m : Memory} {count count' : Nat} {x : Slot} {c : Cell} {b : Binding}

theorem empty (count : Nat) : Memory.empty.Sound count := by
  refine ⟨fun x a h => (nomatch h), fun x y a h => (nomatch h), fun n h => ?_⟩
  cases h with
  | value h | address h | pointer h | pointee h => cases h

variable (h : m.Sound count)
include h

theorem mono (hle : count ≤ count') : m.Sound count' :=
  ⟨h.apart, h.distinct, fun n hn => Nat.lt_of_lt_of_le (h.declared n hn) hle⟩

theorem offers_cellOf (x : Slot) : m.Offers count (m.cellOf x) := by
  cases hx : m.addrs.get? x with
  | none =>
    rw [cellOf, hx]
    exact hx
  | some a =>
    rw [cellOf, hx]
    exact h.declared a (.address hx)

theorem set (hc : m.Offers count c) (hb : b.name.index < count) : (m.set c b).Sound count := by
  refine ⟨fun x a hx => ?_, fun x y a hx hy => ?_, fun n hn => ?_⟩
  · rw [addrs_set] at hx
    have hlocal : (m.set c b).get? (.slot x) = if Cell.slot x = c then some b else _ :=
      get?_set m c (.slot x) b
    have hne : Cell.slot x ≠ c := by
      rintro rfl
      cases hc.symm.trans hx
    rw [if_neg hne] at hlocal
    exact hlocal.trans (h.apart x a hx)
  · rw [addrs_set] at hx hy
    exact h.distinct x y a hx hy
  · rcases hn.of_set with hn | rfl | rfl
    · exact h.declared n hn
    · exact hb
    · exact hc

theorem unbind (x : Slot) : (m.unbind x).Sound count := by
  refine ⟨fun y a hy => ?_, fun y z a hy hz => ?_, fun n hn => h.declared n hn.of_unbind⟩
  · rw [get?_addrs_unbind] at hy
    split at hy
    · cases hy
    · next hne =>
      rw [Memory.unbind, Assoc.get?_erase, if_neg hne]
      exact h.apart y a hy
  · exact h.distinct y z a (Assoc.get?_erase_eq_some.mp hy).2 (Assoc.get?_erase_eq_some.mp hz).2

theorem drop (depth : Int) : (m.drop depth).Sound count := by
  refine ⟨fun y a hy => ?_, fun y z a hy hz => ?_, fun n hn => h.declared n hn.of_drop⟩
  · obtain ⟨hp, hy⟩ := Assoc.get?_filterKeys_eq_some.mp hy
    rw [Memory.drop, Assoc.get?_filterKeys, if_pos hp]
    exact h.apart y a hy
  · exact h.distinct y z a (Assoc.get?_filterKeys_eq_some.mp hy).2
      (Assoc.get?_filterKeys_eq_some.mp hz).2

/-- A slot gets the next name as address. -/
theorem giveAddress (x : Slot) : (m.giveAddress x ⟨count⟩).Sound (count + 1) := by
  have hnew : ∀ y, m.addrs.get? y ≠ some ⟨count⟩ := fun y hy =>
    Nat.lt_irrefl _ (h.declared _ (.address hy))
  refine ⟨fun y a hy => ?_, fun y z a hy hz => ?_, fun n hn => ?_⟩
  · rw [get?_addrs_giveAddress] at hy
    unfold Memory.giveAddress
    split at hy
    · next heq =>
      rw [heq]
      split
      · rw [Assoc.get?_erase, if_pos rfl]
      · next hnone => exact hnone
    · next hne =>
      split
      · rw [Assoc.get?_erase, if_neg hne]
        exact h.apart y a hy
      · exact h.apart y a hy
  · rw [get?_addrs_giveAddress] at hy hz
    split at hy <;> split at hz
    · next hyx hzx => rw [hyx, hzx]
    · cases hy
      exact absurd hz (hnew z)
    · cases hz
      exact absurd hy (hnew y)
    · exact h.distinct y z a hy hz
  · rcases hn.of_giveAddress with hn | rfl
    · exact Nat.lt_succ_of_lt (h.declared n hn)
    · exact Nat.lt_succ_self count

end Sound
end Memory

/-! ## What an operation does -/

namespace Store

variable {s s' : Store} {env : Env} {p : Place} {c : Cell} {n : Name} {b : Binding}
  {sort : ExprSort} {α : Type} {base : Int}

/-- The memory of the store is in order. -/
def Sound (s : Store) : Prop :=
  s.memory.Sound s.graph.decls.length

/-- The cell may hold a value. -/
def Offers (s : Store) (c : Cell) : Prop :=
  s.memory.Offers s.graph.decls.length c

theorem Sound.of_graph {g : Graph} (hs : s.Sound) (h : s.graph.decls.length ≤ g.decls.length) :
    Sound { s with graph := g } :=
  Memory.Sound.mono hs h

theorem Sound.tagged {d : Declaration} (hs : s.Sound) : (s.tagged env n d).Sound := by
  have hmem : (s.tagged env n d).memory = s.memory := by
    unfold Store.tagged
    split <;> rfl
  rw [Sound, hmem]
  exact Memory.Sound.mono hs (Discovers.tagged env n d).length_le

theorem Sound.bound (hs : s.Sound) (hc : s.Offers c) (hb : b.name.index < s.graph.decls.length) :
    (s.bound c b).Sound :=
  Memory.Sound.set hs hc hb

theorem Sound.declared (hs : s.Sound) : (s.declared sort).Sound :=
  hs.of_graph (by rw [Graph.length_declare]; exact Nat.le_succ _)

theorem Offers.declared (hc : s.Offers c) : (s.declared sort).Offers c := by
  cases c with
  | slot x => exact hc
  | behind p =>
    have hlt : p.index < s.graph.decls.length := hc
    show p.index < _
    rw [declared, Graph.length_declare]
    exact Nat.lt_succ_of_lt hlt

/-- A cell that may hold a value gets a new name. -/
theorem Sound.declared_bound {moved : Bool} (hs : s.Sound) (hc : s.Offers c) :
    ((s.declared sort).bound c ⟨s.nextName, moved⟩).Sound := by
  refine hs.declared.bound hc.declared ?_
  rw [Store.declared, Graph.length_declare]
  exact Nat.lt_succ_self _

/-- The action leaves a sound store behind, however it ends. -/
def KeepsSound {α : Type} (x : Action Store α) (s : Store)
    (Q : α → Store → Prop := fun _ _ => True) : Prop :=
  Triple x s (fun a s' => s'.Sound ∧ Q a s') fun _ s' => s'.Sound

theorem KeepsSound.bind {β : Type} {x : Action Store α} {f : α → Action Store β}
    {Q : α → Store → Prop} {R : β → Store → Prop} (hx : KeepsSound x s Q)
    (hf : ∀ a s', s'.Sound → Q a s' → KeepsSound (f a) s' R) : KeepsSound (x >>= f) s R :=
  Triple.bind hx fun a s' _ h => hf a s' h.1 h.2

theorem KeepsSound.state {x : Action Store α} {Q : α → Store → Prop} (h : KeepsSound x s Q) :
    (x s).2.Sound :=
  Triple.state (h.mono (fun _ _ h => h.1) fun _ _ h => h)

section
variable (hs : s.Sound)
include hs

theorem KeepsSound.pure {a : α} {Q : α → Store → Prop} (h : Q a s) : KeepsSound (Pure.pure a) s Q :=
  Triple.pure ⟨hs, h⟩

theorem KeepsSound.lift {r : Except Error α} : KeepsSound (Action.lift r) s fun _ s' => s' = s :=
  Triple.lift (fun _ _ => ⟨hs, rfl⟩) fun _ _ => hs

theorem keepsSound_setCell (hc : s.Offers c) (hb : b.name.index < s.graph.decls.length) :
    KeepsSound (setCell c b) s :=
  Triple.of_eq_ok rfl ⟨hs.bound hc hb, trivial⟩

theorem keepsSound_readCell (hc : s.Offers c) :
    KeepsSound (readCell env p c) s fun n s' => n.index < s'.graph.decls.length := by
  refine Triple.bind_of_eq rfl ?_
  split
  · next name hget => exact KeepsSound.pure hs (Memory.Sound.declared hs name (.of_get? hget))
  · exact Triple.error hs
  · split
    · exact Triple.error hs
    · refine KeepsSound.bind (.lift hs) ?_
      rintro sort s hs rfl
      have hbound : ((s.declared sort).bound c ⟨s.nextName, false⟩).Sound := hs.declared_bound hc
      refine Triple.of_eq_ok rfl ⟨hbound, Memory.Sound.declared hbound s.nextName ?_⟩
      exact .of_get? ((Memory.get?_set ..).trans (if_pos rfl))

theorem keepsSound_tag (hn : n.index < s.graph.decls.length) :
    KeepsSound (tag env n) s fun _ s' => n.index < s'.graph.decls.length := by
  refine triple_tag.mono ?_ ?_
  · rintro - s' ⟨d, rfl⟩
    exact ⟨hs.tagged, Nat.lt_of_lt_of_le hn (Discovers.tagged env n d).length_le⟩
  · rintro - s' rfl
    exact hs

theorem keepsSound_resolveAt {k : Nat} :
    KeepsSound (resolveAt env base k) s fun c s' => s'.Offers c := by
  induction k with
  | zero =>
    unfold resolveAt
    split
    · exact Triple.error hs
    · exact Triple.of_eq_ok rfl ⟨hs, hs.offers_cellOf _⟩
  | succ k ih =>
    refine KeepsSound.bind ih fun c s₁ h₁ hc => ?_
    refine KeepsSound.bind (keepsSound_readCell h₁ hc) fun pointer s₂ h₂ hlt => ?_
    refine KeepsSound.bind (keepsSound_tag h₂ hlt) fun _ s₃ h₃ hlt₃ => ?_
    exact .pure h₃ hlt₃

theorem keepsSound_resolve :
    KeepsSound (resolve env p) s fun c s' => s'.Offers c ∧ s.Discovers s' := by
  have hc : KeepsSound (resolve env p) s fun c s' => s'.Offers c := keepsSound_resolveAt hs
  refine ⟨fun c s' h => ?_, hc.failed⟩
  obtain ⟨hs', hoffers⟩ := hc.ok c s' h
  exact ⟨hs', hoffers, (discovers_resolve env p).of_eq h⟩

theorem keepsSound_readCopy :
    KeepsSound (readCopy env p) s fun n s' => n.index < s'.graph.decls.length :=
  (keepsSound_resolve hs).bind fun _ _ h₁ hc => keepsSound_readCell h₁ hc.1

theorem keepsSound_bind (hn : n.index < s.graph.decls.length) :
    KeepsSound (bind env p n) s := by
  refine (keepsSound_resolve hs).bind fun c s₁ h₁ hc => ?_
  exact keepsSound_setCell h₁ hc.1 (Nat.lt_of_lt_of_le hn hc.2.length_le)

theorem keepsSound_readMove : KeepsSound (readMove env p) s := by
  refine (keepsSound_readCopy hs).bind fun n s₁ h₁ hn => ?_
  refine (keepsSound_resolve h₁).bind fun c s₂ h₂ hc => ?_
  have hset : KeepsSound (setCell c ⟨n, true⟩) s₂ :=
    keepsSound_setCell h₂ hc.1 (Nat.lt_of_lt_of_le hn hc.2.length_le)
  exact hset.bind fun _ _ h₃ _ => .pure h₃ trivial

theorem keepsSound_writeFresh : KeepsSound (writeFresh env p) s := by
  refine (KeepsSound.lift hs).bind fun sort s₁ h₁ _ => ?_
  refine (keepsSound_resolve h₁).bind fun c s₂ h₂ hc => ?_
  exact Triple.of_eq_ok rfl ⟨h₂.declared_bound hc.1, trivial⟩

end

/-- The address behind a pointer is read.  That of a local is known, or it is the next name. -/
theorem ref_state_cases (env : Env) (p : Place) (s : Store) :
    (∃ q, p.pointer? = some q ∧ (ref env p s).2 = (readCopy env q s).2) ∨ (ref env p s).2 = s ∨
      (s.memory.addrs.get? (.of env.depth p.base) = none ∧
        (ref env p s).2 = s.addressed (.of env.depth p.base)) := by
  unfold ref
  cases p.pointer? with
  | some q => exact .inl ⟨q, rfl, bind_pure_state _ _ _⟩
  | none =>
    cases env.function.localVar? p.base with
    | none => exact .inr (.inl rfl)
    | some l =>
      dsimp only
      rw [bind_get]
      cases s.memory.addrs.get? (.of env.depth p.base) with
      | some a => exact .inr (.inl rfl)
      | none => exact .inr (.inr ⟨rfl, rfl⟩)

theorem Sound.addressed (hs : s.Sound) (x : Slot) : (s.addressed x).Sound := by
  have hlen : (s.addressed x).graph.decls.length = s.graph.decls.length + 1 := Graph.length_declare
  rw [Sound, hlen]
  exact Memory.Sound.giveAddress hs x

/-- Cells have been written, but none has been emptied, and addresses are as they were. -/
structure Writes (s s' : Store) : Prop where
  length_le : s.graph.decls.length ≤ s'.graph.decls.length
  addrs : s'.memory.addrs = s.memory.addrs
  cells : ∀ c, s.memory.get? c ≠ none → s'.memory.get? c ≠ none

namespace Writes

instance : IsPreorder Store Writes where
  refl _ := ⟨Nat.le_refl _, rfl, fun _ h => h⟩
  trans _ _ _ h h' := ⟨h.length_le.trans h'.length_le, h'.addrs.trans h.addrs,
    fun c hc => h'.cells c (h.cells c hc)⟩

theorem of_discovers (h : s.Discovers s') : s.Writes s' := by
  refine ⟨h.length_le, h.addrs, fun c hc => ?_⟩
  obtain ⟨b, hb⟩ := Option.ne_none_iff_exists'.mp hc
  rw [h.cells c b hb]
  exact Option.some_ne_none b

theorem bound (s : Store) (c : Cell) (b : Binding) : s.Writes (s.bound c b) := by
  refine ⟨Nat.le_refl _, Memory.addrs_set _ _ _, fun c' hc' => ?_⟩
  rw [Store.bound, Memory.get?_set]
  split
  · exact Option.some_ne_none b
  · exact hc'

theorem declared (s : Store) (sort : ExprSort) : s.Writes (s.declared sort) := by
  refine ⟨?_, rfl, fun _ h => h⟩
  rw [Store.declared, Graph.length_declare]
  exact Nat.le_succ _

end Writes

theorem writes_resolve (env : Env) (p : Place) : Follows Writes (resolve env p) :=
  (discovers_resolve env p).mono fun _ _ => .of_discovers

theorem writes_readCopy (env : Env) (p : Place) : Follows Writes (readCopy env p) :=
  (discovers_readCopy env p).mono fun _ _ => .of_discovers

theorem writes_bind (env : Env) (p : Place) (n : Name) : Follows Writes (bind env p n) :=
  (writes_resolve env p).bind fun c s => .bound s c _

theorem writes_readMove (env : Env) (p : Place) : Follows Writes (readMove env p) :=
  (writes_readCopy env p).bind fun _ => (writes_resolve env p).bind fun c s => .bound s c _

theorem writes_writeFresh (env : Env) (p : Place) : Follows Writes (writeFresh env p) :=
  (follows_lift _).bind fun sort => (writes_resolve env p).bind fun c s =>
    trans_of Writes (.declared s sort) (.bound _ c _)

end Store

namespace Memory.Operation

variable {s s' : Store} {o : Operation} {x : Slot} {a : Name}

/-- What an operation does to a memory.  Of the addresses that existed before, it takes away those
of slots whose storage it ends, and gives none to another slot. -/
structure Steps (o : Operation) (s s' : Store) : Prop where
  sound : s'.Sound
  length_le : s.graph.decls.length ≤ s'.graph.decls.length
  pointees : ∀ p, s.memory.pointees.get? p ≠ none → s'.memory.pointees.get? p ≠ none
  addrs : ∀ x a, a.index < s.graph.decls.length →
    (s'.memory.addrs.get? x = some a ↔ s.memory.addrs.get? x = some a ∧ ¬o.Ends x)

/-- An operation that writes cells. -/
theorem Steps.of_writes (hs' : s'.Sound) (h : s.Writes s') (ho : ∀ x, ¬o.Ends x) :
    o.Steps s s' := by
  refine ⟨hs', h.length_le, fun p hp => h.cells (.behind p) hp, fun x a _ => ?_⟩
  rw [h.addrs, and_iff_left (ho x)]

/-- A slot without an address gets a new one. -/
theorem Steps.addressed (hs : s.Sound) (hx : s.memory.addrs.get? x = none)
    (ho : ∀ y, ¬o.Ends y) : o.Steps s (s.addressed x) := by
  refine ⟨hs.addressed x, ?_, fun p hp => ?_, fun y a ha => ?_⟩
  · exact (Nat.le_succ _).trans (Nat.le_of_eq Graph.length_declare.symm)
  · show (s.memory.giveAddress x s.nextName).pointees.get? p ≠ none
    unfold Memory.giveAddress
    split
    · rw [Assoc.get?_insert]
      split
      · exact Option.some_ne_none _
      · exact hp
    · exact hp
  · show (s.memory.giveAddress x s.nextName).addrs.get? y = some a ↔ _
    rw [Memory.get?_addrs_giveAddress, and_iff_left (ho y)]
    split
    · next hyx =>
      -- the new address is not one that existed before
      refine iff_of_false ?_ ?_
      · intro h
        cases h
        exact Nat.lt_irrefl _ ha
      · rw [hyx, hx]
        exact fun h => Option.some_ne_none a h.symm
    · rfl

theorem Steps.unbind (hs : s.Sound) {env : Env} {base : Int} :
    (Operation.unbind env base).Steps s (s.unbound (.of env.depth base)) := by
  refine ⟨Memory.Sound.unbind hs _, Nat.le_refl _, fun p hp => hp, fun x a _ => ?_⟩
  show (s.memory.unbind _).addrs.get? x = some a ↔ _ ∧ ¬x = _
  rw [Memory.get?_addrs_unbind]
  split
  · next hx => simp [hx]
  · next hx => simp [hx]

theorem Steps.drop (hs : s.Sound) {depth : Int} :
    (Operation.drop depth).Steps s { s with memory := s.memory.drop depth } := by
  refine ⟨Memory.Sound.drop hs _, Nat.le_refl _, fun p hp => hp, fun x a _ => ?_⟩
  show (s.memory.drop depth).addrs.get? x = some a ↔ _ ∧ ¬(x.depth : Int) = depth
  rw [Memory.drop, Assoc.get?_filterKeys]
  by_cases hx : (x.depth : Int) = depth <;> simp [hx]

/-- Taking an address. -/
theorem Steps.ref (hs : s.Sound) (env : Env) (p : Place) :
    (Operation.ref env p).Steps s (Store.ref env p s).2 := by
  have hends : ∀ x, ¬(Operation.ref env p).Ends x := fun _ => id
  rcases ref_state_cases env p s with ⟨q, -, hq⟩ | h | ⟨ha, h⟩
  · rw [hq]
    exact .of_writes (keepsSound_readCopy hs).state (writes_readCopy env q s) hends
  · rw [h]
    exact .of_writes hs (refl_of Writes s) hends
  · rw [h]
    exact .addressed hs ha hends

/-- **One operation.**  A sound memory stays sound under every operation, whether it succeeds or
fails. -/
theorem steps (hs : s.Sound) (ho : o.Allowed s.graph) : o.Steps s (o.run s).2 := by
  cases o with
  | bind env p n =>
    rw [run, bind_pure_state]
    exact .of_writes (keepsSound_bind hs ho).state (writes_bind env p n s) fun _ => id
  | readCopy env p =>
    rw [run, bind_pure_state]
    exact .of_writes (keepsSound_readCopy hs).state (writes_readCopy env p s)
      fun _ => id
  | readMove env p =>
    rw [run, bind_pure_state]
    exact .of_writes (keepsSound_readMove hs).state (writes_readMove env p s)
      fun _ => id
  | writeFresh env p =>
    rw [run, bind_pure_state]
    exact .of_writes (keepsSound_writeFresh hs).state (writes_writeFresh env p s)
      fun _ => id
  | ref env p =>
    rw [run, bind_pure_state]
    exact .ref hs env p
  | unbind env base => exact .unbind hs
  | drop depth => exact .drop hs

/-- An address that is returned as new is the next name, and the slot of the local has it. -/
theorem new_of_run {r : Store} (h : o.run s = (.ok (.address a true), r)) :
    ∃ env base, o = .ref env ⟨base, 0⟩ ∧ s.memory.addrs.get? (.of env.depth base) = none ∧
      a = s.nextName ∧ r = s.addressed (.of env.depth base) := by
  cases o with
  | ref env p =>
    obtain ⟨⟨n, isNew⟩, s₁, hn, h₁⟩ := Action.bind_eq_ok.mp h
    obtain ⟨heq, rfl⟩ := Action.pure_eq_ok.mp h₁
    obtain ⟨rfl, rfl⟩ : a = n ∧ true = isNew := by
      rw [Answer.address.injEq] at heq
      exact heq
    rcases ref_eq_ok hn with ⟨q, -, hnew, -⟩ | ⟨hp, -, ⟨-, hnew, -⟩ | ⟨hx, -, ha, hr⟩⟩
    · cases hnew
    · cases hnew
    · have hplace : p = ⟨p.base, 0⟩ := by
        cases p with
        | mk base k =>
          cases k with
          | zero => rfl
          | succ k => cases hp
      exact ⟨env, p.base, by rw [← hplace], hx, ha, hr⟩
  | bind | readCopy | readMove | writeFresh =>
    obtain ⟨_, s₁, -, h₁⟩ := Action.bind_eq_ok.mp h
    cases (Action.pure_eq_ok.mp h₁).1
  | unbind | drop => cases h

end Memory.Operation

/-! ## Banks of memories -/

/-- Memories that take their names from one graph. -/
structure Bank where
  graph : Graph := {}
  memories : List Memory := [.empty]

namespace Bank

/-- The graph is changed from outside, a memory is copied, or an operation is made on a memory.
Memories are known by their positions, and a copy gets the next one. -/
inductive Event
  | regraph (g : Graph)
  | fork (i : Nat)
  | operate (i : Nat) (o : Memory.Operation)

/-- The bank after an event. -/
def step (b : Bank) : Event → Bank
  | .regraph g => { b with graph := g }
  | .fork i =>
    match b.memories[i]? with
    | some m => { b with memories := b.memories ++ [m] }
    | none => b
  | .operate i o =>
    match b.memories[i]? with
    | some m =>
      let s := (o.run ⟨b.graph, m⟩).2
      ⟨s.graph, b.memories.set i s.memory⟩
    | none => b

/-- The events that can happen: no declaration is lost, and only declared names are bound. -/
def Allows (b : Bank) : Event → Prop
  | .regraph g => b.graph.decls.length ≤ g.decls.length
  | .fork _ => True
  | .operate _ o => o.Allowed b.graph

/-- Some events lead from one bank to another. -/
def Leads : Bank → Bank → Prop :=
  Relation.ReflTransGen fun b b' => ∃ e, b.Allows e ∧ b' = b.step e

/-- What becomes of a memory.  After some events the memory at one position is the one that was at
another position before, or a copy of it, and these operations have been made on it since. -/
inductive Line (b : Bank) (i : Nat) : Bank → Nat → List Memory.Operation → Prop
  | start : Line b i b i []
  | operate {b' : Bank} {k : Nat} {os : List Memory.Operation} {o : Memory.Operation} :
    Line b i b' k os → b'.Allows (.operate k o) →
      Line b i (b'.step (.operate k o)) k (os ++ [o])
  | fork {b' : Bank} {k : Nat} {os : List Memory.Operation} :
    Line b i b' k os → Line b i (b'.step (.fork k)) b'.memories.length os
  | aside {b' : Bank} {k : Nat} {os : List Memory.Operation} {e : Event} :
    Line b i b' k os → b'.Allows e → (∀ o, e ≠ .operate k o) → Line b i (b'.step e) k os

variable {b b' : Bank} {i k : Nat} {e : Event} {m m' : Memory} {o : Memory.Operation}
  {os : List Memory.Operation} {a : Name} {x : Slot} {env : Env} {base : Int} {isNew : Bool}
  {s : Store}

/-- All memories of the bank are in order. -/
def Sound (b : Bank) : Prop :=
  ∀ m ∈ b.memories, m.Sound b.graph.decls.length

theorem step_operate (hm : b.memories[i]? = some m) :
    b.step (.operate i o) =
      ⟨(o.run ⟨b.graph, m⟩).2.graph, b.memories.set i (o.run ⟨b.graph, m⟩).2.memory⟩ := by
  rw [step, hm]

theorem step_fork (hm : b.memories[i]? = some m) :
    b.step (.fork i) = { b with memories := b.memories ++ [m] } := by
  rw [step, hm]

theorem Sound.steps (hb : b.Sound) (hm : b.memories[i]? = some m) (ho : o.Allowed b.graph) :
    o.Steps ⟨b.graph, m⟩ (o.run ⟨b.graph, m⟩).2 :=
  Memory.Operation.steps (hb m (List.mem_of_getElem? hm)) ho

/-- An event keeps the bank sound and what is declared declared. -/
theorem Sound.step (hb : b.Sound) (he : b.Allows e) :
    (b.step e).Sound ∧ b.graph.decls.length ≤ (b.step e).graph.decls.length := by
  cases e with
  | regraph g => exact ⟨fun m hm => (hb m hm).mono he, he⟩
  | fork i =>
    cases hm : b.memories[i]? with
    | none =>
      rw [Bank.step, hm]
      exact ⟨hb, Nat.le_refl _⟩
    | some m =>
      rw [step_fork hm]
      refine ⟨fun m' hm' => ?_, Nat.le_refl _⟩
      rcases List.mem_append.mp hm' with hm' | hm'
      · exact hb m' hm'
      · rw [List.mem_singleton.mp hm']
        exact hb m (List.mem_of_getElem? hm)
  | operate i o =>
    cases hm : b.memories[i]? with
    | none =>
      rw [Bank.step, hm]
      exact ⟨hb, Nat.le_refl _⟩
    | some m =>
      have hsteps := hb.steps hm he
      rw [step_operate hm]
      refine ⟨fun m' hm' => ?_, hsteps.length_le⟩
      rcases List.mem_or_eq_of_mem_set hm' with hm' | rfl
      · exact (hb m' hm').mono hsteps.length_le
      · exact hsteps.sound

theorem leads_step (he : b.Allows e) : b.Leads (b.step e) :=
  .single ⟨e, he, rfl⟩

/-- Events that happen one after the other keep the bank sound. -/
theorem Leads.sound (h : b.Leads b') (hb : b.Sound) :
    b'.Sound ∧ b.graph.decls.length ≤ b'.graph.decls.length := by
  induction h with
  | refl => exact ⟨hb, Nat.le_refl _⟩
  | tail _ hstep ih =>
    obtain ⟨e, he, rfl⟩ := hstep
    obtain ⟨hsound, hle⟩ := ih.1.step he
    exact ⟨hsound, ih.2.trans hle⟩

/-- A bank begins with an empty memory. -/
theorem sound_start (g : Graph) : Sound { graph := g } := by
  intro m hm
  rw [List.mem_singleton.mp hm]
  exact .empty _

namespace Line

theorem leads (h : b.Line i b' k os) : b.Leads b' := by
  induction h with
  | start => exact .refl
  | operate _ ho ih => exact ih.tail ⟨_, ho, rfl⟩
  | fork _ ih => exact ih.tail ⟨.fork _, trivial, rfl⟩
  | aside _ he _ ih => exact ih.tail ⟨_, he, rfl⟩

/-- An event that is no operation on a memory leaves it alone. -/
theorem getElem?_step (hm : b.memories[k]? = some m) (he : ∀ o, e ≠ .operate k o) :
    (b.step e).memories[k]? = some m := by
  cases e with
  | regraph g => exact hm
  | fork i =>
    cases hi : b.memories[i]? with
    | none =>
      rw [Bank.step, hi]
      exact hm
    | some m₁ =>
      rw [step_fork hi]
      exact List.getElem?_append_left (lt_length_of_getElem? hm) ▸ hm
  | operate i o =>
    have hik : i ≠ k := fun h => he o (by rw [h])
    cases hi : b.memories[i]? with
    | none =>
      rw [Bank.step, hi]
      exact hm
    | some m₁ =>
      rw [step_operate hi, List.getElem?_set_ne hik]
      exact hm

variable (h : b.Line i b' k os) (hb : b.Sound) (hm : b.memories[i]? = some m)
include h hb hm

/-- What holds of a memory and is kept by operations holds of what becomes of the memory. -/
theorem exists_memory {P : Memory → List Memory.Operation → Prop} (hstart : P m [])
    (hstep : ∀ s s' o os, b.graph.decls.length ≤ s.graph.decls.length →
      o.Steps s s' → P s.memory os → P s'.memory (os ++ [o])) :
    ∃ m', b'.memories[k]? = some m' ∧ P m' os := by
  induction h with
  | start => exact ⟨m, hm, hstart⟩
  | @operate b' k os o hline ho ih =>
    obtain ⟨m', hm', hP⟩ := ih
    obtain ⟨hsound, hle⟩ := hline.leads.sound hb
    have hlt := lt_length_of_getElem? hm'
    rw [step_operate hm']
    exact ⟨_, List.getElem?_set_self hlt, hstep _ _ o os hle (hsound.steps hm' ho) hP⟩
  | @fork b' k os _ ih =>
    obtain ⟨m', hm', hP⟩ := ih
    rw [step_fork hm']
    exact ⟨m', List.getElem?_concat_length, hP⟩
  | aside _ _ hne ih =>
    obtain ⟨m', hm', hP⟩ := ih
    exact ⟨m', getElem?_step hm' hne, hP⟩

/-- What has been stored behind a pointer once is never removed. -/
theorem pointees_ne_none (hm' : b'.memories[k]? = some m') {p : Name}
    (hp : m.pointees.get? p ≠ none) : m'.pointees.get? p ≠ none := by
  obtain ⟨m₁, hm₁, hall⟩ := h.exists_memory (P := fun m' _ => m'.pointees.get? p ≠ none) hb hm hp
    fun s s' o os _ hsteps hP => hsteps.pointees p hP
  rwa [← Option.mem_unique hm₁ hm']

/-- A slot keeps its address until its storage ends, and no slot gets an old address. -/
theorem addrs_iff (hm' : b'.memories[k]? = some m') (ha : a.index < b.graph.decls.length) :
    m'.addrs.get? x = some a ↔ m.addrs.get? x = some a ∧ ∀ o ∈ os, ¬o.Ends x := by
  obtain ⟨m₁, hm₁, hiff⟩ := h.exists_memory
    (P := fun m' os => m'.addrs.get? x = some a ↔ m.addrs.get? x = some a ∧ ∀ o ∈ os, ¬o.Ends x)
    hb hm (by simp) fun s s' o os hle hsteps hP => by
      rw [hsteps.addrs x a (Nat.lt_of_lt_of_le ha hle), hP, and_assoc, List.forall_mem_append,
        List.forall_mem_singleton]
  rwa [← Option.mem_unique hm₁ hm']

end Line

/-- A memory at a new position is a copy. -/
theorem exists_fork_of_new (hnone : b.memories[k]? = none)
    (hm : (b.step e).memories[k]? = some m) :
    ∃ j m₁, e = .fork j ∧ b.memories[j]? = some m₁ ∧ k = b.memories.length := by
  have hge : b.memories.length ≤ k := List.getElem?_eq_none_iff.mp hnone
  have hlt := lt_length_of_getElem? hm
  cases e with
  | regraph g => exact absurd hlt (Nat.not_lt.mpr hge)
  | fork j =>
    cases hj : b.memories[j]? with
    | none =>
      simp only [step, hj] at hlt
      omega
    | some m₁ =>
      rw [step_fork hj, List.length_append, List.length_singleton] at hlt
      exact ⟨j, m₁, rfl, hj, by omega⟩
  | operate j o =>
    cases hj : b.memories[j]? with
    | none =>
      simp only [step, hj] at hlt
      omega
    | some m₁ =>
      rw [step_operate hj, List.length_set] at hlt
      omega

/-- Every memory of a bank has come from some memory of each bank before. -/
theorem Leads.exists_line (h : b.Leads b') (hm' : b'.memories[k]? = some m') :
    ∃ i os, i < b.memories.length ∧ b.Line i b' k os := by
  induction h generalizing k m' with
  | refl => exact ⟨k, [], lt_length_of_getElem? hm', .start⟩
  | @tail b₁ b₂ _ hstep ih =>
    obtain ⟨e, he, rfl⟩ := hstep
    cases hk : b₁.memories[k]? with
    | some m₁ =>
      obtain ⟨i, os, hi, hline⟩ := ih hk
      by_cases hop : ∃ o, e = .operate k o
      · obtain ⟨o, rfl⟩ := hop
        exact ⟨i, os ++ [o], hi, hline.operate he⟩
      · exact ⟨i, os, hi, hline.aside he fun o ho => hop ⟨o, ho⟩⟩
    | none =>
      obtain ⟨j, m₁, rfl, hj, rfl⟩ := exists_fork_of_new hk hm'
      obtain ⟨i, os, hi, hline⟩ := ih hj
      exact ⟨i, os, hi, hline.fork⟩

section
variable (hb : b.Sound) (hm : b.memories[i]? = some m)
  (hrun : (Memory.Operation.ref env ⟨base, 0⟩).run ⟨b.graph, m⟩ = (.ok (.address a isNew), s))
include hb hm hrun

/-- The address of a local is taken: afterwards the slot has it, and it is declared. -/
theorem exists_addressed : (b.step (.operate i (.ref env ⟨base, 0⟩))).Sound ∧
      (b.step (.operate i (.ref env ⟨base, 0⟩))).memories[i]? = some s.memory ∧
      a.index < (b.step (.operate i (.ref env ⟨base, 0⟩))).graph.decls.length ∧
      s.memory.addrs.get? (.of env.depth base) = some a := by
  have hsound := (hb.step (e := .operate i (.ref env ⟨base, 0⟩)) trivial).1
  rw [step_operate hm, hrun] at hsound ⊢
  have hmem : (b.memories.set i s.memory)[i]? = some s.memory :=
    List.getElem?_set_self (lt_length_of_getElem? hm)
  have haddr : s.memory.addrs.get? (.of env.depth base) = some a := by
    obtain ⟨⟨n, new⟩, s₁, hn, h₁⟩ := Action.bind_eq_ok.mp hrun
    obtain ⟨heq, rfl⟩ := Action.pure_eq_ok.mp h₁
    obtain ⟨rfl, rfl⟩ := Memory.Answer.address.inj heq
    rcases ref_eq_ok hn with ⟨q, hq, -⟩ | ⟨-, -, ⟨ha, -, rfl⟩ | ⟨-, -, rfl, rfl⟩⟩
    · cases hq
    · exact ha
    · exact (Memory.get?_addrs_giveAddress _ _ _ _).trans (if_pos rfl)
  exact ⟨hsound, hmem, (hsound _ (List.mem_of_getElem? hmem)).declared a (.address haddr), haddr⟩

/-- An address belongs to one storage of one local. -/
theorem Line.attached_iff (h : (b.step (.operate i (.ref env ⟨base, 0⟩))).Line i b' k os)
    (hm' : b'.memories[k]? = some m') : m'.addrs.get? x = some a ↔
      x = .of env.depth base ∧ ∀ o ∈ os, ¬o.Ends (.of env.depth base) := by
  obtain ⟨hsound, hmem, hlt, haddr⟩ := exists_addressed hb hm hrun
  rw [h.addrs_iff hsound hmem hm' hlt]
  constructor
  · rintro ⟨hx, hall⟩
    obtain rfl := (hsound _ (List.mem_of_getElem? hmem)).distinct _ _ a hx haddr
    exact ⟨rfl, hall⟩
  · rintro ⟨rfl, hall⟩
    exact ⟨haddr, hall⟩

end

/-- **Every memory is in order.**  Let a bank have come from an empty memory.  Then in each of its
memories no slot has both a value of its own and an address, different slots have different
addresses, and all names are declared.  Each memory of a later bank has come from one of them, with
some operations made on it, and behind a pointer it has something wherever that one had.

An address that is returned as new is the name that is declared next.  No operation on any memory of
a later bank returns it as new again.  In the memories that come from the one in which it was taken,
the slot of the local has it as long as none of the operations ends the storage of this slot, and
otherwise no slot has it. -/
theorem memories_in_order {g : Graph} (h : Leads { graph := g } b) :
    (∀ m ∈ b.memories, m.Sound b.graph.decls.length) ∧
      (∀ b', b.Leads b' → ∀ (k : Nat) m', b'.memories[k]? = some m' →
        ∃ i m os, b.memories[i]? = some m ∧ b.Line i b' k os) ∧
      (∀ i m b' k os m', b.memories[i]? = some m → b.Line i b' k os →
        b'.memories[k]? = some m' →
        ∀ p c, m.pointees.get? p = some c → ∃ c', m'.pointees.get? p = some c') ∧
      ∀ (i : Nat) m (o : Memory.Operation) a s, b.memories[i]? = some m →
        o.run ⟨b.graph, m⟩ = (.ok (.address a true), s) →
        a = ⟨b.graph.decls.length⟩ ∧ ∃ env base, o = .ref env ⟨base, 0⟩ ∧
          ∀ b', (b.step (.operate i o)).Leads b' →
          (∀ m' ∈ b'.memories, ∀ (o' : Memory.Operation) s',
            o'.run ⟨b'.graph, m'⟩ ≠ (.ok (.address a true), s')) ∧
          ∀ k os m', (b.step (.operate i o)).Line i b' k os → b'.memories[k]? = some m' →
            ∀ x, m'.addrs.get? x = some a ↔
              x = .of env.depth base ∧ ∀ o' ∈ os, ¬o'.Ends (.of env.depth base) := by
  have hb := (h.sound (sound_start g)).1
  refine ⟨hb, fun b' hlead k m' hm' => ?_, fun i m b' k os m' hm hline hm' p c hc => ?_,
    fun i m o a s hm hrun => ?_⟩
  · obtain ⟨i, os, hi, hline⟩ := hlead.exists_line hm'
    exact ⟨i, _, os, List.getElem?_eq_getElem hi, hline⟩
  · have hne := hline.pointees_ne_none hb hm hm' (hc ▸ Option.some_ne_none c)
    exact Option.ne_none_iff_exists'.mp hne
  · obtain ⟨env, base, rfl, -, ha, -⟩ := Memory.Operation.new_of_run hrun
    obtain ⟨hsound, -, hlt, -⟩ := exists_addressed hb hm hrun
    refine ⟨ha, env, base, rfl, fun b' hlead => ⟨fun m' _ o' s' hrun' => ?_, ?_⟩⟩
    · -- what is new now would have to be declared next
      obtain ⟨-, -, -, -, ha', -⟩ := Memory.Operation.new_of_run hrun'
      have hle := (hlead.sound hsound).2
      rw [ha'] at hlt
      exact absurd (Nat.lt_of_lt_of_le hlt hle) (Nat.lt_irrefl _)
    · intro k os m' hline hm' x
      exact hline.attached_iff hb hm hrun hm'

/-! ## A copy that moves on -/

/-- A function with a result and one parameter. -/
def oneParameter : Function where
  name := "f"
  locals := [⟨"", .integer⟩, ⟨"x", .integer⟩]
  argCount := 1
  blocks := []

/-- The parameter is bound to a declared name. -/
def oneBound : Bank :=
  step { graph := (Graph.declare {} .int none).2 }
    (.operate 0 (.bind { function := oneParameter } ⟨1, 0⟩ ⟨0⟩))

/-- The address of the parameter is taken, the memory is copied, and the copy takes a new address
after it has ended the storage. -/
def movedOn : Bank :=
  (((oneBound.step (.operate 0 (.ref { function := oneParameter } ⟨1, 0⟩))).step (.fork 0)).step
    (.operate 1 (.unbind { function := oneParameter } 1))).step
    (.operate 1 (.ref { function := oneParameter } ⟨1, 0⟩))

/-- The first memory still has the old address, and in the copy no slot has it. -/
theorem movedOn_in_order :
    (∀ m ∈ movedOn.memories, m.Sound 3) ∧ ∃ m m', movedOn.memories = [m, m'] ∧
      m.addrs.get? (.of 0 1) = some ⟨1⟩ ∧ m'.addrs.get? (.of 0 1) = some ⟨2⟩ ∧
      ∀ x, m'.addrs.get? x ≠ some ⟨1⟩ := by
  have hbound : Leads { graph := (Graph.declare {} .int none).2 } oneBound :=
    leads_step (e := .operate 0 (.bind _ _ ⟨0⟩)) Nat.zero_lt_one
  have href : oneBound.Leads
      (oneBound.step (.operate 0 (.ref { function := oneParameter } ⟨1, 0⟩))) :=
    leads_step (e := .operate 0 (.ref _ _)) trivial
  have hfork : Line _ 0 _ 1 [] :=
    Line.fork (b := oneBound.step (.operate 0 (.ref { function := oneParameter } ⟨1, 0⟩))) .start
  have hunbind := hfork.operate (o := .unbind { function := oneParameter } 1) trivial
  have hline := hunbind.operate (o := .ref { function := oneParameter } ⟨1, 0⟩) trivial
  obtain ⟨m, hm⟩ : ∃ m, oneBound.memories[0]? = some m := ⟨_, rfl⟩
  obtain ⟨s, hs⟩ : ∃ s, (Memory.Operation.ref { function := oneParameter } ⟨1, 0⟩).run
      ⟨oneBound.graph, m⟩ = (.ok (.address ⟨1⟩ true), s) := by
    cases hm
    exact ⟨_, rfl⟩
  obtain ⟨-, env, base, ho, hlater⟩ := (memories_in_order hbound).2.2.2 0 m _ _ s hm hs
  have hleads : Leads { graph := (Graph.declare {} .int none).2 } movedOn :=
    (hbound.trans href).trans hline.leads
  obtain ⟨m₀, m₁, hmem, h₀, h₁⟩ : ∃ m m', movedOn.memories = [m, m'] ∧
      m.addrs.get? (.of 0 1) = some ⟨1⟩ ∧ m'.addrs.get? (.of 0 1) = some ⟨2⟩ :=
    ⟨_, _, rfl, rfl, rfl⟩
  have hm₁ : movedOn.memories[1]? = some m₁ := by rw [hmem]; rfl
  refine ⟨(memories_in_order hleads).1, m₀, m₁, hmem, h₀, h₁, fun x hx => ?_⟩
  obtain ⟨rfl, hends⟩ := ((hlater movedOn hline.leads).2 1 _ m₁ hline hm₁ x).mp hx
  cases ho
  exact hends _ List.mem_cons_self rfl

end Bank
end NullPath
