import NullPath.Proofs.Faults
import NullPath.Proofs.HeapAccess

/-!
# Definite assignment

Reading a local that holds nothing is an error.  Code is safe from it if on every path what is read
has been assigned before, where a path is followed in the text of the function alone: a switch may go
to any of its targets.  Statements of such code fail only with errors about unsupported constructs.

Some statements may be excused.  These may also read locals that hold nothing, and fail for this
reason.

* `Function.AssignsFirst`: on every path to a block, what the block reads has been assigned.
* `Store.ensures_statements`: statements leave those locals assigned that their text assigns.
-/

namespace NullPath

open Action

variable {f : Function} {C : Prop} {D : Set Int} {err : Error} {a : Expr}

/-! ## Paths through the text of a function -/

/-- The function has a local with this index. -/
def Function.Has (f : Function) (i : Int) : Prop :=
  ∃ l, f.localVar? i = some l

/-- The place can be written when some locals have been assigned, unless it is excused. -/
def Place.Settable (C : Prop) (f : Function) (D : Set Int) (p : Place) : Prop :=
  f.Has p.base ∧ (p.derefs ≠ 0 → p.base ∈ D ∨ C)

theorem Place.Settable.of_has {i : Int} (h : f.Has i) : Place.Settable C f D ⟨i, 0⟩ :=
  ⟨h, absurd rfl⟩

/-- The locals that have been assigned once the place has been written. -/
def Place.assigned (D : Set Int) (p : Place) : Set Int :=
  if p.derefs = 0 then insert p.base D else D

/-- The operand reads only what has been assigned, unless it is excused, and moves nothing. -/
def Operand.ReadsFrom (C : Prop) (f : Function) (D : Set Int) : Operand → Prop
  | .copy p => p.base ∈ D ∨ C ∧ f.Has p.base
  | .move _ => False
  | _ => True

/-- The right-hand side reads only what has been assigned, unless it is excused. -/
def Rvalue.ReadsFrom (C : Prop) (f : Function) (D : Set Int) : Rvalue → Prop
  | .use x | .unary _ x | .cast x _ => x.ReadsFrom C f D
  | .binary _ l r => l.ReadsFrom C f D ∧ r.ReadsFrom C f D
  | .ref p => p.Settable C f D
  | .missing => True

/-- The statement reads only what has been assigned, unless it is excused. -/
def Statement.ReadsFrom (C : Prop) (f : Function) (D : Set Int) : Statement → Prop
  | .assign p rv _ => p.Settable C f D ∧ rv.ReadsFrom C f D
  | .storageLive i | .storageDead i => f.Has i
  | _ => True

/-- The locals that have been assigned after a statement. -/
def Statement.assigned (D : Set Int) : Statement → Set Int
  | .assign p _ _ => p.assigned D
  | .storageLive i | .storageDead i => D \ {i}
  | _ => D

/-- The locals that have been assigned after statements. -/
def assignedBy (D : Set Int) : List Statement → Set Int
  | [] => D
  | st :: sts => assignedBy (st.assigned D) sts

/-- Each of the statements that are not excused reads only what has been assigned before. -/
def ReadsInOrder (C : Statement → Prop) (f : Function) : Set Int → List Statement → Prop
  | _, [] => True
  | D, st :: sts => st.ReadsFrom (C st) f D ∧ ReadsInOrder C f (st.assigned D) sts

/-- The terminator reads only what has been assigned.  What a return hands on is not considered. -/
def Terminator.ReadsFrom (f : Function) (D : Set Int) : Terminator → Prop
  | .switch x values targets _ => targets.length = values.length + 1 ∧ x.ReadsFrom False f D
  | .assert x _ _ _ => x.ReadsFrom False f D
  | .call _ args dest _ _ =>
    (∀ x ∈ args, x.ReadsFrom False f D) ∧ ∀ p ∈ dest, p.Settable False f D
  | _ => True

/-- The locals that have been assigned when control goes on after a terminator. -/
def Terminator.assigned (D : Set Int) : Terminator → Set Int
  | .call _ _ (some p) _ _ => p.assigned D
  | _ => D

/-- A path from the entry leads to the block, and some locals have been assigned on it.  At the entry
these are the parameters. -/
inductive Function.Arrives (f : Function) : Int → Set Int → Prop
  | entry : Arrives f 0 {i | 1 ≤ i ∧ i ≤ f.argCount}
  | step {k t : Int} {D : Set Int} {b : Block} : Arrives f k D → f.block? k = some b →
    t ∈ b.terminator.targets → Arrives f t (b.terminator.assigned (assignedBy D b.statements))

/-- On every path there are blocks, which read only what has been assigned on the path, apart from
statements that are excused. -/
structure Function.AssignsFirst (C : Statement → Prop) (f : Function) : Prop where
  result : f.Has 0
  params : ∀ i, 1 ≤ i → i ≤ f.argCount → f.Has i
  blocks : ∀ k D, f.Arrives k D → ∃ b, f.block? k = some b ∧
    ReadsInOrder C f D b.statements ∧ b.terminator.ReadsFrom f (assignedBy D b.statements)

section
variable (hD : ∀ i ∈ D, f.Has i)
include hD

theorem Place.has_of_assigned {p : Place} (hp : f.Has p.base) : ∀ i ∈ p.assigned D, f.Has i := by
  intro i hi
  by_cases hderefs : p.derefs = 0
  · rw [Place.assigned, if_pos hderefs] at hi
    rcases hi with rfl | hi
    · exact hp
    · exact hD i hi
  · rw [Place.assigned, if_neg hderefs] at hi
    exact hD i hi

theorem Statement.has_of_assigned {st : Statement} (hst : st.ReadsFrom C f D) :
    ∀ i ∈ st.assigned D, f.Has i := by
  cases st with
  | assign p rv span => exact Place.has_of_assigned hD hst.1.1
  | storageLive j | storageDead j => exact fun i hi => hD i hi.1
  | nop | missing => exact hD

theorem has_of_assignedBy {C : Statement → Prop} {sts : List Statement}
    (hsts : ReadsInOrder C f D sts) : ∀ i ∈ assignedBy D sts, f.Has i := by
  induction sts generalizing D with
  | nil => exact hD
  | cons st sts ih => exact ih (Statement.has_of_assigned hD hsts.1) hsts.2

theorem Terminator.has_of_assigned {t : Terminator} (ht : t.ReadsFrom f D) :
    ∀ i ∈ t.assigned D, f.Has i := by
  cases t with
  | call callee args dest next span =>
    cases dest with
    | none => exact hD
    | some p => exact Place.has_of_assigned hD (ht.2 p rfl).1
  | _ => exact hD

end

/-- Only locals of the function are assigned. -/
theorem Function.AssignsFirst.has {C : Statement → Prop} (hf : f.AssignsFirst C) {k : Int}
    (h : f.Arrives k D) : ∀ i ∈ D, f.Has i := by
  induction h with
  | entry => exact fun i hi => hf.params i hi.1 hi.2
  | step harr hb _ ih =>
    obtain ⟨b, hb', hsts, hterm⟩ := hf.blocks _ _ harr
    obtain rfl := Option.mem_unique hb hb'
    exact Terminator.has_of_assigned (has_of_assignedBy ih hsts) hterm

/-! ## Memories -/

/-- The slots hold values, and no value has been moved out. -/
structure Memory.Holds (X : Set Slot) (m : Memory) : Prop where
  bound : ∀ x ∈ X, ∃ b, m.get? (m.cellOf x) = some b
  unmoved : ∀ c b, m.get? c = some b → b.moved = false

namespace Memory.Holds

variable {X Y : Set Slot} {m : Memory} {x : Slot} {n : Name}

theorem mono (h : m.Holds X) (hY : Y ⊆ X) : m.Holds Y :=
  ⟨fun x hx => h.bound x (hY hx), h.unmoved⟩

theorem cellOf_set (m : Memory) (c : Cell) (b : Binding) (x : Slot) :
    (m.set c b).cellOf x = m.cellOf x := by
  rw [cellOf, cellOf, addrs_set]

variable (h : m.Holds X)
include h

theorem set (c : Cell) (n : Name) : (m.set c ⟨n, false⟩).Holds X where
  bound x hx := by
    obtain ⟨b, hb⟩ := h.bound x hx
    by_cases hc : m.cellOf x = c <;> simp [cellOf_set, get?_set, hc, hb]
  unmoved c' b hb := by
    rw [get?_set] at hb
    split at hb
    · rw [← Option.some.inj hb]
    · exact h.unmoved c' b hb

theorem set_cellOf (x : Slot) (n : Name) : (m.set (m.cellOf x) ⟨n, false⟩).Holds (insert x X) where
  bound y hy := by
    rcases hy with rfl | hy
    · simp [cellOf_set, get?_set]
    · exact (h.set _ n).bound y hy
  unmoved := (h.set _ n).unmoved

theorem giveAddress (hx : m.addrs.get? x = none) : (m.giveAddress x n).Holds X := by
  constructor
  · intro y hy
    obtain ⟨b, hb⟩ := h.bound y hy
    unfold cellOf at hb
    by_cases hxy : y = x
    · subst hxy
      rw [hx] at hb
      change m.locals.get? y = some b at hb
      simp [Memory.giveAddress, cellOf, get?, hb, Assoc.get?_insert]
    · rw [cellOf, get?_addrs_giveAddress, if_neg hxy]
      cases ha : m.addrs.get? y with
      | none =>
        simp only [ha] at hb ⊢
        unfold Memory.giveAddress
        split
        · simpa [get?, Assoc.get?_erase, hxy] using ⟨b, hb⟩
        · exact ⟨b, hb⟩
      | some a =>
        simp only [ha] at hb ⊢
        unfold Memory.giveAddress
        split
        · by_cases han : a = n
          · simp [get?, Assoc.get?_insert, han]
          · simpa [get?, Assoc.get?_insert, han] using ⟨b, hb⟩
        · exact ⟨b, hb⟩
  · intro c b hb
    unfold Memory.giveAddress at hb
    split at hb
    · next b' hb' =>
      cases c with
      | slot y => exact h.unmoved (.slot y) b (Assoc.get?_erase_eq_some.mp hb).2
      | behind p =>
        rcases Assoc.get?_of_insert hb with ⟨-, rfl⟩ | hb
        · exact h.unmoved (.slot x) _ hb'
        · exact h.unmoved (.behind p) b hb
    · cases c with
      | slot y => exact h.unmoved (.slot y) b hb
      | behind p => exact h.unmoved (.behind p) b hb

theorem unbind (x : Slot) : (m.unbind x).Holds (X \ {x}) where
  bound y hy := by
    obtain ⟨b, hb⟩ := h.bound y hy.1
    have hne : y ≠ x := hy.2
    have hcell : (m.unbind x).cellOf y = m.cellOf y := by
      rw [cellOf, cellOf, get?_addrs_unbind, if_neg hne]
    refine ⟨b, ?_⟩
    rw [hcell, get?_unbind, if_neg, hb]
    unfold cellOf
    split <;> simp [hne]
  unmoved c b hb := by
    rw [get?_unbind] at hb
    split at hb
    · cases hb
    · exact h.unmoved c b hb

theorem drop {d : Int} (hX : ∀ x ∈ X, (x.depth : Int) ≠ d) : (m.drop d).Holds X where
  bound x hx := by
    obtain ⟨b, hb⟩ := h.bound x hx
    have haddr : (m.drop d).addrs.get? x = m.addrs.get? x := by
      simp [Memory.drop, Assoc.get?_filterKeys, hX x hx]
    refine ⟨b, ?_⟩
    unfold cellOf at hb ⊢
    rw [haddr]
    cases ha : m.addrs.get? x with
    | some a =>
      simp only [ha] at hb ⊢
      exact hb
    | none =>
      simp only [ha] at hb ⊢
      simpa [get?, Memory.drop, Assoc.get?_filterKeys, hX x hx] using hb
  unmoved c b hb := by
    cases c with
    | slot x => exact h.unmoved (.slot x) b (Assoc.get?_filterKeys_eq_some.mp hb).2
    | behind p => exact h.unmoved (.behind p) b hb

end Memory.Holds

/-! ## Errors -/

/-- An error is about an unsupported construct.  Faults are another matter. -/
def Failure.Unsupported : Failure → Prop
  | .error e => e.isUnsupported = true
  | .fault _ => True

theorem Failure.Unsupported.within {failure : Failure} (h : failure.Unsupported)
    (activity : String) : (failure.within activity).Unsupported := by
  cases failure with
  | error e => exact h
  | fault f => trivial

/-- The failure is about an unsupported construct, or a local without a value has been read under a
condition. -/
def Failure.Admitted (C : Prop) (failure : Failure) : Prop :=
  failure.Unsupported ∨ C ∧ ∃ err : Error, failure = .error err ∧ err.cause = .unbound

theorem Failure.Admitted.within {failure : Failure} (h : failure.Admitted C) (activity : String) :
    (failure.within activity).Admitted C := by
  rcases h with h | ⟨hC, err, rfl, herr⟩
  · exact .inl (h.within activity)
  · exact .inr ⟨hC, err.within activity, rfl, herr⟩

theorem Failure.Admitted.mono {C' : Prop} {failure : Failure} (h : failure.Admitted C')
    (hC : C' → C) : failure.Admitted C :=
  h.imp_right (And.imp_left hC)

theorem Ty.isUnsupported_of_sort {t : Ty} (h : t.sort = .error err) : err.isUnsupported = true := by
  cases t with
  | untyped | other => obtain rfl := Except.error.inj h; rfl
  | bool | int | pointer => cases h

/-- A place whose local exists has a sort or is not supported. -/
theorem Function.isUnsupported_of_placeSort {p : Place} (hp : f.Has p.base)
    (h : f.placeSort p = .error err) : err.isUnsupported = true := by
  obtain ⟨l, hl⟩ := hp
  unfold placeSort placeType at h
  simp only [hl] at h
  split at h
  · next t ht =>
    exact Ty.isUnsupported_of_sort h
  · next e he =>
    split at he
    · cases he
    · cases he
      cases h
      rfl

theorem SourceBinOp.isUnsupported_of_term {op : SourceBinOp} {b : Expr}
    (h : op.term a b = .error err) : err.isUnsupported = true := by
  unfold term at h
  split at h
  · cases h
    rfl
  · split at h
    · cases h
    · cases h
    · split at h
      · split at h
        iterate 3 cases h
        cases h
        rfl
      · split at h
        iterate 10 cases h
        cases h
        rfl

theorem SourceUnOp.isUnsupported_of_term {op : SourceUnOp} (h : op.term a = .error err) :
    err.isUnsupported = true := by
  unfold term at h
  split at h
  · cases h
  · cases h
  · cases h
    rfl

theorem Ty.isUnsupported_of_castTerm {t : Ty} (h : t.castTerm a = .error err) :
    err.isUnsupported = true := by
  unfold castTerm at h
  split at h
  · next e he =>
    cases h
    exact isUnsupported_of_sort he
  · cases h

/-! ## Reading and writing -/

/-- The slots of another depth than that of the environment, whose own locals can be told apart. -/
structure Env.Separates (env : Env) (X : Set Slot) : Prop where
  addressable : env.function.Addressable
  nonneg : 0 ≤ env.depth
  bounded : env.depth < 0x100000000
  others : ∀ x ∈ X, (x.depth : Int) ≠ env.depth

namespace Store

variable {α β : Type} {env : Env} {X : Set Slot} {D D' : Set Int} {s s' : Store} {p : Place}
  {c : Cell} {n : Name} {k : Nat} {rv : Rvalue} {i : Int}

/-- Some locals of the function at work hold values, and so do some slots of other functions. -/
structure Assigned (env : Env) (X : Set Slot) (D : Set Int) (s : Store) : Prop where
  holds : s.memory.Holds (X ∪ Slot.of env.depth '' D)
  has : ∀ i ∈ D, env.function.Has i

/-- The action leaves some locals assigned.  It fails only with errors about unsupported constructs,
unless a read is excused. -/
def Ensures (C : Prop) (env : Env) (X : Set Slot) (D : Set Int) (x : Action Store α) (s : Store)
    (R : α → Store → Prop := fun _ _ => True) : Prop :=
  Triple x s (fun a s' => s'.Assigned env X D ∧ R a s') fun failure _ => failure.Admitted C

namespace Ensures

variable {x : Action Store α} {R : α → Store → Prop}

theorem pure {a : α} (hs : s.Assigned env X D) (h : R a s) :
    Ensures C env X D (Pure.pure a) s R :=
  Triple.pure ⟨hs, h⟩

theorem error {err : Error} (h : err.isUnsupported = true) :
    Ensures C env X D (Action.error err) s R :=
  Triple.error (.inl h)

theorem lift {r : Except Error α} (hs : s.Assigned env X D) (hok : ∀ a, r = .ok a → R a s)
    (herr : ∀ err, r = .error err → err.isUnsupported = true) :
    Ensures C env X D (Action.lift r) s R :=
  Triple.lift (fun a ha => ⟨hs, hok a ha⟩) fun err h => .inl (herr err h)

theorem bind {f : α → Action Store β} {Q : β → Store → Prop} (hx : Ensures C env X D x s R)
    (hf : ∀ a s', s'.Assigned env X D → R a s' → Ensures C env X D' (f a) s' Q) :
    Ensures C env X D' (x >>= f) s Q :=
  Triple.bind hx fun a s' _ h => hf a s' h.1 h.2

theorem mono {C' : Prop} (hx : Ensures C env X D x s R) (hC : C → C') : Ensures C' env X D x s R :=
  Triple.mono hx (fun _ _ h => h) fun _ _ h => h.mono hC

theorem within (hx : Ensures C env X D x s R) (activity : String) :
    Ensures C env X D (Action.within activity x) s R :=
  Triple.within hx activity fun _ _ h => h.within activity

theorem of_eq_ok {a : α} (h : x s = (.ok a, s')) (hs : s'.Assigned env X D) (hR : R a s') :
    Ensures C env X D x s R :=
  Triple.of_eq_ok h ⟨hs, hR⟩

end Ensures

theorem Assigned.of_memory (hs : s.Assigned env X D) (h : s'.memory = s.memory) :
    s'.Assigned env X D :=
  ⟨h ▸ hs.holds, hs.has⟩

/-- The graph at work does not matter. -/
theorem ensures_get {f : Store → Action Store α} {R : α → Store → Prop}
    (h : Ensures C env X D (f s) s R) : Ensures C env X D (Action.get >>= f) s R :=
  ⟨h.ok, h.failed⟩

section

variable (hs : s.Assigned env X D)
include hs

theorem ensures_liftFault {r : Except Fault α} :
    Ensures C env X D (Action.liftFault r) s fun a s' => r = .ok a ∧ s' = s :=
  Triple.liftFault (fun _ ha => ⟨hs, ha, rfl⟩) fun _ _ => .inl trivial

theorem ensures_declaration : Ensures C env X D (declaration n) s :=
  ensures_get (Triple.mono (ensures_liftFault hs) (fun _ _ h => ⟨h.1, trivial⟩) fun _ _ h => h)

theorem ensures_onGraph {f : Graph → Except Fault Graph} :
    Ensures C env X D (onGraph f) s := by
  refine ensures_get ((ensures_liftFault hs).bind fun g s' hs' h => ?_)
  exact .of_eq_ok rfl (hs.of_memory rfl) trivial

theorem ensures_tag : Ensures C env X D (tag env n) s := by
  refine (ensures_declaration hs).bind fun d s₁ h₁ _ => ?_
  split
  · exact ensures_onGraph h₁
  · exact .pure h₁ trivial

theorem Assigned.bound_behind (c : Cell) (n : Name) (g : Graph) :
    Assigned env X D ⟨g, s.memory.set c ⟨n, false⟩⟩ :=
  ⟨hs.holds.set c n, hs.has⟩

theorem Assigned.exists_get? (hi : i ∈ D) :
    ∃ b, s.memory.get? (s.memory.cellOf (.of env.depth i)) = some b :=
  hs.holds.bound _ (.inr (Set.mem_image_of_mem _ hi))

/-- A cell that is read holds something, unless it is behind a pointer or the read is excused. -/
theorem ensures_readCell (hp : env.function.Has p.base)
    (hc : p.derefs = 0 → (∃ b, s.memory.get? c = some b) ∨ C) :
    Ensures C env X D (readCell env p c) s := by
  refine ensures_get ?_
  split
  · exact .pure hs trivial
  · next hget => cases hs.holds.unmoved _ _ hget
  · next hget =>
    split
    · next hlocal =>
      rcases hc (by simpa [Place.isLocal] using hlocal) with ⟨b, hb⟩ | hC
      · cases hb.symm.trans hget
      · exact Triple.error (.inr ⟨hC, _, rfl, rfl⟩)
    · refine (Ensures.lift hs (fun _ _ => rfl) fun err herr =>
        Function.isUnsupported_of_placeSort hp herr).bind fun k s₁ _ h₁ => ?_
      subst h₁
      exact .of_eq_ok rfl (hs.bound_behind c _ _) trivial

/-- The cell of a place, which is that of the local if nothing is dereferenced. -/
theorem ensures_resolveAt {base : Int} (hbase : env.function.Has base)
    (hread : k ≠ 0 → base ∈ D ∨ C) :
    Ensures C env X D (resolveAt env base k) s fun c s' =>
      k = 0 → c = s'.memory.cellOf (.of env.depth base) := by
  induction k with
  | zero =>
    unfold resolveAt
    split
    · next hnone =>
      obtain ⟨l, hl⟩ := hbase
      cases hl.symm.trans hnone
    · exact ensures_get (.pure hs fun _ => rfl)
  | succ k ih =>
    have hmem := hread (Nat.succ_ne_zero k)
    refine (ih fun _ => hmem).bind fun c s₁ h₁ hc => ?_
    refine (ensures_readCell h₁ hbase fun hk => ?_).bind fun n s₂ h₂ _ => ?_
    · rw [hc hk]
      exact hmem.imp_left h₁.exists_get?
    · exact (ensures_tag h₂).bind fun _ s₃ h₃ _ => .pure h₃ (by simp)

theorem ensures_resolve (hp : p.Settable C env.function D) :
    Ensures C env X D (resolve env p) s fun c s' =>
      p.derefs = 0 → c = s'.memory.cellOf (.of env.depth p.base) :=
  ensures_resolveAt hs hp.1 hp.2

theorem ensures_readCopy (hp : p.base ∈ D ∨ C ∧ env.function.Has p.base) :
    Ensures C env X D (readCopy env p) s := by
  have hbase := hp.elim (hs.has _) And.right
  have hp := hp.imp_right And.left
  refine (ensures_resolve hs ⟨hbase, fun _ => hp⟩).bind fun c s₁ h₁ hc => ?_
  refine ensures_readCell h₁ hbase fun hp₀ => ?_
  rw [hc hp₀]
  exact hp.imp_left h₁.exists_get?

/-- Writing the cell of a place. -/
theorem Assigned.set (hp : p.Settable C env.function D)
    (hc : p.derefs = 0 → c = s.memory.cellOf (.of env.depth p.base)) (n : Name) (g : Graph) :
    Assigned env X (p.assigned D) ⟨g, s.memory.set c ⟨n, false⟩⟩ := by
  refine ⟨?_, Place.has_of_assigned hs.has hp.1⟩
  by_cases hderefs : p.derefs = 0
  · rw [Place.assigned, if_pos hderefs, Set.image_insert_eq, Set.union_insert, hc hderefs]
    exact hs.holds.set_cellOf _ n
  · rw [Place.assigned, if_neg hderefs]
    exact hs.holds.set c n

theorem ensures_bind (hp : p.Settable C env.function D) :
    Ensures C env X (p.assigned D) (Store.bind env p n) s :=
  (ensures_resolve hs hp).bind fun _ _ h₁ hc => .of_eq_ok rfl (h₁.set hp hc n _) trivial

theorem ensures_writeFresh (hp : p.Settable C env.function D) :
    Ensures C env X (p.assigned D) (writeFresh env p) s := by
  refine (Ensures.lift (R := fun _ _ => True) hs (fun _ _ => trivial) fun err herr =>
    Function.isUnsupported_of_placeSort hp.1 herr).bind fun k s₁ h₁ _ => ?_
  exact (ensures_resolve h₁ hp).bind fun c s₂ h₂ hc => .of_eq_ok rfl (h₂.set hp hc _ _) trivial

end

/-! ## Statements -/

theorem ensures_ref (hs : s.Assigned env X D) (hp : p.Settable C env.function D) :
    Ensures C env X D (ref env p) s := by
  obtain ⟨base, derefs⟩ := p
  unfold ref
  cases derefs with
  | zero =>
    simp only [Place.pointer?]
    split
    · next hnone =>
      obtain ⟨l, hl⟩ := hp.1
      cases hl.symm.trans hnone
    · refine ensures_get ?_
      split
      · exact .pure hs trivial
      · next hnone => exact .of_eq_ok rfl ⟨hs.holds.giveAddress hnone, hs.has⟩ trivial
  | succ k =>
    have hbase : base ∈ D ∨ C := hp.2 (Nat.succ_ne_zero k)
    have hread := ensures_readCopy (p := ⟨base, k⟩) hs (hbase.imp_right fun hC => ⟨hC, hp.1⟩)
    exact hread.bind fun _ s₁ h₁ _ => .pure h₁ trivial

theorem ensures_operand {x : Operand} (hs : s.Assigned env X D)
    (hx : x.ReadsFrom C env.function D) :
    Ensures C env X D (operand env x) s := by
  cases x with
  | copy p =>
    refine (ensures_readCopy hs hx).bind fun n s₁ h₁ _ => ?_
    exact (ensures_declaration h₁).bind fun d s₂ h₂ _ => .pure h₂ trivial
  | move p => exact hx.elim
  | const v t =>
    refine (Ensures.lift (R := fun _ _ => True) hs (fun _ _ => trivial) fun err herr =>
      Ty.isUnsupported_of_sort herr).bind fun k s₁ h₁ _ => .pure h₁ trivial
  | missing => exact .error rfl

section

variable (hs : s.Assigned env X D)
include hs

theorem ensures_rvalue (hrv : rv.ReadsFrom C env.function D) :
    Ensures C env X D (rvalue env rv) s := by
  cases rv with
  | use x => exact ensures_operand hs hrv
  | binary op l r =>
    refine (ensures_operand hs hrv.1).bind fun a s₁ h₁ _ => ?_
    refine (ensures_operand h₁ hrv.2).bind fun b s₂ h₂ _ => ?_
    exact .lift h₂ (fun _ _ => trivial) fun err => SourceBinOp.isUnsupported_of_term
  | unary op x =>
    refine (ensures_operand hs hrv).bind fun a s₁ h₁ _ => ?_
    exact .lift h₁ (fun _ _ => trivial) fun err => SourceUnOp.isUnsupported_of_term
  | cast x t =>
    refine (ensures_operand hs hrv).bind fun a s₁ h₁ _ => ?_
    exact .lift h₁ (fun _ _ => trivial) fun err => Ty.isUnsupported_of_castTerm
  | ref p =>
    refine (ensures_ref hs hrv).bind fun r s₁ h₁ _ => ?_
    obtain ⟨n, isNew⟩ := r
    cases isNew with
    | false => exact .pure h₁ trivial
    | true => exact (ensures_onGraph h₁).bind fun _ s₂ h₂ _ => .pure h₂ trivial
  | missing => exact .error rfl

theorem ensures_assertEqual {value : Expr} :
    Ensures C env X D (assertEqual i n value) s := by
  refine (ensures_declaration hs).bind fun d s₁ h₁ _ => ?_
  split
  · exact .error rfl
  · exact ensures_onGraph h₁

theorem ensures_assign (hp : p.Settable C env.function D) (hrv : rv.ReadsFrom C env.function D) :
    Ensures C env X (p.assigned D) (assign env p rv) s := by
  refine (ensures_rvalue hs hrv).bind fun value s₁ h₁ _ => ?_
  refine (ensures_liftFault h₁).bind fun shared s₂ h₂ _ => ?_
  cases shared with
  | some n => exact ensures_bind h₂ hp
  | none => exact (ensures_writeFresh h₂ hp).bind fun n s₃ h₃ _ => ensures_assertEqual h₃

/-- Ending the storage of a local does not touch the others. -/
theorem Assigned.unbind (henv : env.Separates X) (hi : env.function.Has i) :
    Assigned env X (D \ {i}) ⟨s.graph, s.memory.unbind (.of env.depth i)⟩ := by
  refine ⟨(hs.holds.unbind _).mono ?_, fun j hj => hs.has j hj.1⟩
  rintro x (hx | ⟨j, hj, rfl⟩)
  · -- the other slots belong to other depths
    refine ⟨.inl hx, ?_⟩
    rintro rfl
    refine henv.others _ hx ?_
    rw [Slot.of, Int.emod_eq_of_lt henv.nonneg henv.bounded, Int.toNat_of_nonneg henv.nonneg]
  · -- and different locals have different slots
    obtain ⟨l, hl⟩ := hi
    obtain ⟨l', hl'⟩ := hs.has j hj.1
    refine ⟨.inr (Set.mem_image_of_mem _ hj.1), fun heq => hj.2 ?_⟩
    exact (henv.addressable.slot_eq_iff hl' hl henv.nonneg henv.bounded).mp heq

theorem Assigned.mono (hD : D' ⊆ D) : s.Assigned env X D' :=
  ⟨hs.holds.mono (Set.union_subset_union_right X (Set.image_mono hD)), fun i hi => hs.has i (hD hi)⟩

theorem ensures_makeLive (henv : env.Separates X) (hi : env.function.Has i) :
    Ensures C env X (D \ {i}) (makeLive env i) s := by
  have hu : Ensures C env X (D \ {i}) (unbind env i) s :=
    .of_eq_ok rfl (hs.unbind henv hi) trivial
  refine hu.bind fun _ s₁ h₁ _ => ?_
  split
  · next hnone =>
    obtain ⟨l, hl⟩ := hi
    cases hl.symm.trans hnone
  · split
    · exact .pure h₁ trivial
    · refine (ensures_writeFresh h₁ (.of_has hi)).bind fun _ s₂ h₂ _ => ?_
      exact .pure (h₂.mono (Set.subset_insert i _)) trivial

theorem ensures_statement {st : Statement} (henv : env.Separates X)
    (hst : st.ReadsFrom C env.function D) :
    Ensures C env X (st.assigned D) (statement env st) s := by
  cases st with
  | assign p rv span =>
    have hassign : Ensures C { env with span } X (p.assigned D) (assign { env with span } p rv) s :=
      ensures_assign { hs with } hst.1 hst.2
    exact Triple.mono hassign (fun _ _ h => ⟨{ h.1 with }, trivial⟩) fun _ _ h => h
  | storageLive i => exact ensures_makeLive hs henv hst
  | storageDead i => exact .of_eq_ok rfl (hs.unbind henv hst) trivial
  | nop => exact .pure hs trivial
  | missing => exact .error rfl

theorem ensures_statements {C : Statement → Prop} {sts : List Statement} (henv : env.Separates X)
    (hsts : ReadsInOrder C env.function D sts) :
    Ensures (∃ st ∈ sts, C st) env X (assignedBy D sts) (statements env sts) s := by
  induction sts generalizing s D with
  | nil => exact .pure hs trivial
  | cons st sts ih =>
    refine ((ensures_statement hs henv hsts.1).mono fun h => ⟨st, List.mem_cons_self, h⟩).bind
      fun _ s₁ h₁ _ => (ih h₁ hsts.2).mono ?_
    rintro ⟨st', hst', h⟩
    exact ⟨st', .tail _ hst', h⟩

theorem ensures_operands {xs : List Operand} (hxs : ∀ x ∈ xs, x.ReadsFrom C env.function D) :
    Ensures C env X D (operands env xs) s fun vs _ => vs.length = xs.length := by
  induction xs generalizing s with
  | nil => exact .pure hs rfl
  | cons x xs ih =>
    rw [List.forall_mem_cons] at hxs
    refine (ensures_operand hs hxs.1).bind fun v s₁ h₁ _ => ?_
    refine (ih h₁ hxs.2).bind fun vs s₂ h₂ hlen => .pure h₂ ?_
    rw [List.length_cons, List.length_cons, hlen]

end

/-- The arguments of a call become the values of parameters, from a number on. -/
theorem ensures_passArguments (node : Int) (args : List Expr)
    (hs : s.Assigned env X {i | 1 ≤ i ∧ i < k}) (hk : 1 ≤ k)
    (hparams : ∀ i : Int, 1 ≤ i → i < k + args.length → env.function.Has i) :
    Ensures C env X {i | 1 ≤ i ∧ i < k + args.length} (passArguments env node k args) s := by
  induction args generalizing s k with
  | nil =>
    refine .pure ?_ trivial
    simpa using hs
  | cons v args ih =>
    have hlen : (k : Int) + (v :: args).length = (k + 1 : Nat) + args.length := by
      rw [List.length_cons]
      omega
    rw [hlen] at hparams ⊢
    refine (ensures_writeFresh hs
      (.of_has (hparams k (by omega) (by omega)))).bind fun n s₁ h₁ _ => ?_
    refine (ensures_assertEqual h₁).bind fun _ s₂ h₂ _ => ih (h₂.mono ?_) (by omega) hparams
    rintro i ⟨hi₁, hi₂⟩
    by_cases hik : i = k
    · exact .inl hik
    · exact .inr ⟨hi₁, by omega⟩

end Store

end NullPath
