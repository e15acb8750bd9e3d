import NullPath.Proofs.NameTypes
import NullPath.Proofs.Outcomes

/-!
# What a callee leaves alone

A callee begins with a copy of the memory of its caller.  Its locals have slots of their own, and
its parameters get new names, so everything that it reaches from its locals holds names that were
declared after the call.  It cannot get hold of an older name, and therefore it neither reads nor
writes what the caller keeps in its slots and behind its pointers.  When it returns, its slots are
dropped, and the caller finds its memory as it left it.  What the callee has left lies behind names
that the caller does not know.

* `Cell.Inner`: the cells that belong to the callee.
* `Memory.Confined`: these cells hold new names, and all others are as they were.
* `Store.Confined.statements`: code of the callee stays on its side.
* `Machine.block_confined`: so do the frames that it hands on.
-/

namespace NullPath

open Store

/-! ## The boundary of a call -/

/-- The state in which a call begins: the depth of the callee, the number of names that are
declared, and the memory, which has no slots at this depth or below it. -/
structure Boundary where
  depth : Nat
  names : Nat
  memory : Memory
  locals : ∀ x : Slot, depth ≤ x.depth → memory.locals.get? x = none
  addrs : ∀ x : Slot, depth ≤ x.depth → memory.addrs.get? x = none

/-- The state in which everything begins. -/
def Boundary.start : Boundary where
  depth := 0
  names := 0
  memory := {}
  locals := fun _ _ => rfl
  addrs := fun _ _ => rfl

variable {B : Boundary} {d : Nat} {env : Env}

/-- The name was declared after the call began. -/
def Name.New (B : Boundary) (n : Name) : Prop :=
  B.names ≤ n.index

/-- The slot belongs to a function between the callee and a depth. -/
def Slot.Inner (B : Boundary) (d : Nat) (x : Slot) : Prop :=
  B.depth ≤ x.depth ∧ x.depth ≤ d

/-- The cell is such a slot, or lies behind a new name. -/
def Cell.Inner (B : Boundary) (d : Nat) : Cell → Prop
  | .slot x => x.Inner B d
  | .behind p => p.New B

namespace Memory

/-- Cells after a local was given an address: its value is moved, if it has one. -/
theorem giveAddress_cases (m : Memory) (x : Slot) (a : Name) :
    (∃ b, m.get? (.slot x) = some b ∧
      ∀ c, (m.giveAddress x a).get? c = ((m.set (.behind a) b).unbind x).get? c) ∨
      ∀ c, (m.giveAddress x a).get? c = m.get? c := by
  unfold giveAddress
  split
  · next b hb =>
    refine .inl ⟨b, hb, fun c => ?_⟩
    cases c <;> rfl
  · exact .inr fun c => rfl

theorem get?_drop_slot (m : Memory) (x : Slot) :
    (m.drop (d : Int)).get? (.slot x) = if x.depth = d then none else m.get? (.slot x) := by
  simp only [get?, drop, Assoc.get?_filterKeys, bne_iff_ne, ne_eq, Int.natCast_inj,
    ite_not]

theorem get?_addrs_drop (m : Memory) (x : Slot) :
    (m.drop (d : Int)).addrs.get? x = if x.depth = d then none else m.addrs.get? x := by
  simp only [drop, Assoc.get?_filterKeys, bne_iff_ne, ne_eq, Int.natCast_inj, ite_not]

/-- The cells on the inner side of a call hold new names only, and all others are as they were when
the call began. -/
structure Confined (B : Boundary) (d : Nat) (m : Memory) : Prop where
  value : ∀ c b, c.Inner B d → m.get? c = some b → b.name.New B
  address : ∀ x a, x.Inner B d → m.addrs.get? x = some a → a.New B
  outside : ∀ c, ¬ c.Inner B d → m.get? c = B.memory.get? c
  outside_address : ∀ x, ¬ x.Inner B d → m.addrs.get? x = B.memory.addrs.get? x

namespace Confined

variable {m : Memory} {c : Cell} {b : Binding} {x : Slot} {a : Name}

section
variable (h : m.Confined B d)
include h

theorem cellOf (hx : x.Inner B d) : (m.cellOf x).Inner B d := by
  unfold Memory.cellOf
  split
  · next a ha => exact h.address x a hx ha
  · exact hx

theorem set (hc : c.Inner B d) (hb : b.name.New B) : (m.set c b).Confined B d where
  value := by
    intro c' b' hc' hb'
    rw [get?_set] at hb'
    split at hb'
    · cases hb'
      exact hb
    · exact h.value c' b' hc' hb'
  address := by
    rw [addrs_set]
    exact h.address
  outside := by
    intro c' hc'
    have hne : c' ≠ c := by
      rintro rfl
      exact hc' hc
    rw [get?_set, if_neg hne]
    exact h.outside c' hc'
  outside_address := by
    rw [addrs_set]
    exact h.outside_address

theorem unbind (hx : x.Inner B d) : (m.unbind x).Confined B d where
  value := by
    intro c b hc hb
    rw [get?_unbind] at hb
    split at hb
    · cases hb
    · exact h.value c b hc hb
  address := by
    intro y a hy ha
    rw [get?_addrs_unbind] at ha
    split at ha
    · cases ha
    · exact h.address y a hy ha
  outside := by
    intro c hc
    have hne : c ≠ .slot x := by
      rintro rfl
      exact hc hx
    rw [get?_unbind, if_neg hne]
    exact h.outside c hc
  outside_address := by
    intro y hy
    have hne : y ≠ x := by
      rintro rfl
      exact hy hx
    rw [get?_addrs_unbind, if_neg hne]
    exact h.outside_address y hy

theorem giveAddress (hx : x.Inner B d) (ha : a.New B) : (m.giveAddress x a).Confined B d := by
  have haddress : ∀ y a', y.Inner B d → (m.giveAddress x a).addrs.get? y = some a' → a'.New B := by
    intro y a' hy ha'
    rw [get?_addrs_giveAddress] at ha'
    split at ha'
    · cases ha'
      exact ha
    · exact h.address y a' hy ha'
  have houtside : ∀ y, ¬ y.Inner B d →
      (m.giveAddress x a).addrs.get? y = B.memory.addrs.get? y := by
    intro y hy
    have hne : y ≠ x := by
      rintro rfl
      exact hy hx
    rw [get?_addrs_giveAddress, if_neg hne]
    exact h.outside_address y hy
  rcases giveAddress_cases m x a with ⟨b, hb, hcells⟩ | hcells
  · -- the value that moves behind the address comes from an inner slot
    have hmoved := (h.set (c := .behind a) ha (h.value (.slot x) b hx hb)).unbind hx
    refine ⟨fun c b' hc hb' => ?_, haddress, fun c hc => ?_, houtside⟩
    · exact hmoved.value c b' hc ((hcells c).symm.trans hb')
    · exact (hcells c).trans (hmoved.outside c hc)
  · refine ⟨fun c b' hc hb' => ?_, haddress, fun c hc => ?_, houtside⟩
    · exact h.value c b' hc ((hcells c).symm.trans hb')
    · exact (hcells c).trans (h.outside c hc)

theorem get?_slot_of_lt (hx : B.depth ≤ x.depth) (hlt : d < x.depth) :
    m.locals.get? x = none ∧ m.addrs.get? x = none := by
  have hout : ¬ x.Inner B d := fun hin => Nat.not_le_of_lt hlt hin.2
  exact ⟨(h.outside (.slot x) hout).trans (B.locals x hx),
    (h.outside_address x hout).trans (B.addrs x hx)⟩

/-- A call from the inner side begins: the slots of the next depth join. -/
theorem enter : m.Confined B (d + 1) := by
  have hslot : ∀ {x : Slot}, x.Inner B (d + 1) → x.Inner B d ∨
      (m.locals.get? x = none ∧ m.addrs.get? x = none) := by
    intro x hx
    rcases Nat.lt_or_ge d x.depth with hlt | hle
    · exact .inr (h.get?_slot_of_lt hx.1 hlt)
    · exact .inl ⟨hx.1, hle⟩
  have hwiden : ∀ {x : Slot}, x.Inner B d → x.Inner B (d + 1) :=
    fun hx => ⟨hx.1, Nat.le_succ_of_le hx.2⟩
  refine ⟨fun c b hc hb => ?_, fun x a hx ha => ?_, fun c hc => h.outside c fun hin => hc ?_,
    fun x hx => h.outside_address x fun hin => hx (hwiden hin)⟩
  · cases c with
    | slot x =>
      rcases hslot hc with hin | ⟨hnone, -⟩
      · exact h.value (.slot x) b hin hb
      · cases hb.symm.trans hnone
    | behind p => exact h.value (.behind p) b hc hb
  · rcases hslot hx with hin | ⟨-, hnone⟩
    · exact h.address x a hin ha
    · cases ha.symm.trans hnone
  · cases c with
    | slot x => exact hwiden hin
    | behind p => exact hin

end

/-- A call from the inner side ends: the slots of its depth are dropped. -/
theorem drop (h : m.Confined B (d + 1)) (hd : B.depth ≤ d + 1) :
    (m.drop (d + 1 : Nat)).Confined B d := by
  have hwiden : ∀ {x : Slot}, x.Inner B d → x.Inner B (d + 1) :=
    fun hx => ⟨hx.1, Nat.le_succ_of_le hx.2⟩
  have hnarrow : ∀ {x : Slot}, x.depth ≠ d + 1 → x.Inner B (d + 1) → x.Inner B d :=
    fun hne hx => ⟨hx.1, by have := hx.2; omega⟩
  refine ⟨fun c b hc hb => ?_, fun x a hx ha => ?_, fun c hc => ?_, fun x hx => ?_⟩
  · cases c with
    | slot x =>
      rw [get?_drop_slot] at hb
      split at hb
      · cases hb
      · exact h.value (.slot x) b (hwiden hc) hb
    | behind p => exact h.value (.behind p) b hc hb
  · rw [get?_addrs_drop] at ha
    split at ha
    · cases ha
    · exact h.address x a (hwiden hx) ha
  · cases c with
    | slot x =>
      rw [get?_drop_slot]
      split
      · next heq => exact (B.locals x (heq ▸ hd)).symm
      · next hne => exact h.outside (.slot x) fun hin => hc (hnarrow hne hin)
    | behind p => exact h.outside (.behind p) hc
  · rw [get?_addrs_drop]
    split
    · next heq => exact (B.addrs x (heq ▸ hd)).symm
    · next hne => exact h.outside_address x fun hin => hx (hnarrow hne hin)

end Confined

end Memory

/-! ## Reading and writing -/

/-- Code at a depth on the inner side.  The slots of two depths differ, as long as the depths fit
into their words.  All slots are on the inner side of the start. -/
structure Env.Inside (B : Boundary) (d : Nat) (env : Env) : Prop where
  depth : env.depth = d
  le : B.depth ≤ d
  lt : d < 0x100000000 ∨ B.depth = 0

theorem Env.Inside.withSpan (h : env.Inside B d) (span : Span) : Env.Inside B d { env with span } :=
  ⟨h.depth, h.le, h.lt⟩

theorem Env.Inside.slot (h : env.Inside B d) (base : Int) : (Slot.of env.depth base).Inner B d := by
  have hle := h.le
  have hlt := h.lt
  rw [h.depth]
  change B.depth ≤ ((d : Int) % 0x100000000).toNat ∧ ((d : Int) % 0x100000000).toNat ≤ d
  omega

namespace Store

/-- The memory is confined, the table of names is in order, and the next name is a new one. -/
structure Confined (B : Boundary) (d : Nat) (s : Store) : Prop where
  memory : s.memory.Confined B d
  names : B.names ≤ s.graph.decls.length
  tidy : s.graph.Tidy

/-- A call can begin in any store that has no slots at its depth. -/
theorem exists_boundary {s : Store} (hs : s.Scoped)
    (hempty : ∀ x, d ≤ x.depth →
      s.memory.locals.get? x = none ∧ s.memory.addrs.get? x = none) :
    ∃ B, B.depth = d ∧ B.names = s.graph.decls.length ∧ B.memory = s.memory ∧
      s.memory.Confined B d := by
  refine ⟨⟨d, s.graph.decls.length, s.memory, fun x hx => (hempty x hx).1,
    fun x hx => (hempty x hx).2⟩, rfl, rfl, rfl, fun c b hc hb => ?_, fun x a hx ha => ?_,
    fun _ _ => rfl, fun _ _ => rfl⟩
  · cases c with
    | slot x =>
      rw [show s.memory.get? (.slot x) = none from (hempty x hc.1).1] at hb
      cases hb
    | behind p => exact absurd (hs.mentions p (.pointer hb)).2 (Nat.not_lt.mpr hc)
  · rw [(hempty x hx.1).2] at ha
    cases ha

namespace Confined

variable {env : Env} {s s' : Store} {p : Place} {c : Cell} {n : Name}

section

variable (hs : s.Confined B d)
include hs

theorem declare {sort : ExprSort} (hsort : sort = .int ∨ sort = .bool) (o : Option Origin) :
    Confined B d { s with graph := (s.graph.declare sort o).2 } := by
  refine ⟨hs.memory, ?_, hs.tidy.declare hsort⟩
  rw [Graph.length_declare]
  exact Nat.le_succ_of_le hs.names

theorem bound {b : Binding} (hc : c.Inner B d) (hb : b.name.New B) : (s.bound c b).Confined B d :=
  ⟨hs.memory.set hc hb, hs.names, hs.tidy⟩

theorem declared_bound {sort : ExprSort} (hsort : sort = .int ∨ sort = .bool) (hc : c.Inner B d) :
    ((s.declared sort).bound c ⟨s.nextName, false⟩).Confined B d :=
  (hs.declare hsort none).bound hc hs.names

theorem tagged {decl : Declaration} : (s.tagged env n decl).Confined B d := by
  unfold Store.tagged
  split
  · exact hs
  · exact ⟨hs.memory, by simpa using hs.names, hs.tidy.tag n _⟩

theorem asserted (node : Int) (e : Expr) : (s.asserted node e).Confined B d :=
  ⟨hs.memory, hs.names, hs.tidy⟩

theorem addressed {x : Slot} (hx : x.Inner B d) : (s.addressed x).Confined B d :=
  have hd := hs.declare (.inl rfl) none
  ⟨hs.memory.giveAddress hx hs.names, hd.names, hd.tidy⟩

theorem readCell (hc : c.Inner B d) (h : readCell env p c s = (.ok n, s')) :
    s'.Confined B d ∧ n.New B := by
  rcases readCell_eq_ok h with ⟨hget, rfl⟩ | ⟨-, -, sort, hsort, rfl, rfl⟩
  · exact ⟨hs, hs.memory.value c _ hc hget⟩
  · exact ⟨hs.declared_bound (Function.placeSort_cases hsort) hc, hs.names⟩

variable (henv : env.Inside B d)
include henv

theorem resolveAt {base : Int} {k : Nat} (h : resolveAt env base k s = (.ok c, s')) :
    s'.Confined B d ∧ c.Inner B d := by
  induction k generalizing c s' with
  | zero =>
    obtain ⟨-, rfl, rfl⟩ := resolveAt_zero_eq_ok.mp h
    exact ⟨hs, hs.memory.cellOf (henv.slot base)⟩
  | succ k ih =>
    obtain ⟨c₀, s₁, pointer, s₂, decl, hc₀, hp, -, rfl, rfl⟩ := resolveAt_succ_eq_ok h
    obtain ⟨h₁, hin⟩ := ih hc₀
    obtain ⟨h₂, hnew⟩ := h₁.readCell hin hp
    exact ⟨h₂.tagged, hnew⟩

theorem readCopy (h : readCopy env p s = (.ok n, s')) : s'.Confined B d ∧ n.New B := by
  obtain ⟨c, s₁, hc, hn⟩ := readCopy_eq_ok.mp h
  obtain ⟨h₁, hin⟩ := hs.resolveAt henv hc
  exact h₁.readCell hin hn

theorem readMove (h : readMove env p s = (.ok n, s')) : s'.Confined B d ∧ n.New B := by
  obtain ⟨s₁, c, s₂, hn, hc, rfl⟩ := readMove_eq_ok.mp h
  obtain ⟨h₁, hnew⟩ := hs.readCopy henv hn
  obtain ⟨h₂, hin⟩ := h₁.resolveAt henv hc
  exact ⟨h₂.bound hin hnew, hnew⟩

theorem bind (hn : n.New B) (h : bind env p n s = (.ok (), s')) : s'.Confined B d := by
  obtain ⟨c, s₁, hc, rfl⟩ := bind_eq_ok.mp h
  obtain ⟨h₁, hin⟩ := hs.resolveAt henv hc
  exact h₁.bound hin hn

theorem writeFresh (h : writeFresh env p s = (.ok n, s')) : s'.Confined B d := by
  obtain ⟨sort, c, s₁, hsort, hc, rfl, rfl⟩ := writeFresh_eq_ok.mp h
  obtain ⟨h₁, hin⟩ := hs.resolveAt henv hc
  exact h₁.declared_bound (Function.placeSort_cases hsort) hin

theorem ref {isNew : Bool} (h : ref env p s = (.ok (n, isNew), s')) :
    s'.Confined B d ∧ n.New B := by
  rcases ref_eq_ok h with ⟨q, -, -, hq⟩ | ⟨-, -, ⟨ha, -, rfl⟩ | ⟨-, -, rfl, rfl⟩⟩
  · exact hs.readCopy henv hq
  · exact ⟨hs, hs.memory.address _ n (henv.slot p.base) ha⟩
  · exact ⟨hs.addressed (henv.slot p.base), hs.names⟩

end

end Confined

end Store

/-! ## Values and statements -/

/-- A term that is a name is a new one.  Only such terms can be shared. -/
def Expr.New (B : Boundary) (e : Expr) : Prop :=
  ∀ n sort, e = .name n sort → n.New B

theorem Expr.new_name {n : Name} {sort : ExprSort} (h : n.New B) : (Expr.name n sort).New B := by
  rintro _ _ ⟨⟩
  exact h

namespace Store.Confined

variable {env : Env} {s s' : Store} {p : Place} {n : Name} {e : Expr} {rv : Rvalue} {node : Int}
  {k : Nat} {args : List Expr}

/-- The term of a name. -/
theorem new_expr {decl : Declaration} (hs : s.Confined B d) (hn : n.New B)
    (hdecl : s.graph.declaration? n = some decl) : decl.expr.New B := by
  have hname : decl.name = n := (hs.tidy n.index decl hdecl).1
  exact Expr.new_name (hname ▸ hn)

theorem assertEqual {value : Expr} (hs : s.Confined B d)
    (h : assertEqual node n value s = (.ok (), s')) : s'.Confined B d := by
  obtain ⟨-, decl, -, -, rfl⟩ := assertEqual_eq_ok h
  exact hs.asserted _ _

section

variable (hs : s.Confined B d) (henv : env.Inside B d)
include hs henv

theorem operand {x : Operand} (h : operand env x s = (.ok e, s')) :
    s'.Confined B d ∧ e.IsAtom ∧ e.New B := by
  cases x with
  | copy p =>
    obtain ⟨n, decl, hn, hdecl, rfl⟩ := operand_copy_eq_ok.mp h
    obtain ⟨h₁, hnew⟩ := hs.readCopy henv hn
    exact ⟨h₁, trivial, h₁.new_expr hnew hdecl⟩
  | move p =>
    obtain ⟨n, decl, hn, hdecl, rfl⟩ := operand_move_eq_ok.mp h
    obtain ⟨h₁, hnew⟩ := hs.readMove henv hn
    exact ⟨h₁, trivial, h₁.new_expr hnew hdecl⟩
  | const v t =>
    obtain ⟨sort, -, rfl, rfl⟩ := operand_const_eq_ok.mp h
    refine ⟨hs, ?_⟩
    split
    · exact ⟨trivial, nofun⟩
    · exact ⟨trivial, nofun⟩
  | missing => exact absurd h Action.error_ne_ok

theorem rvalue (h : rvalue env rv s = (.ok e, s')) : s'.Confined B d ∧ e.New B := by
  cases rv with
  | use x =>
    obtain ⟨h₁, -, hnew⟩ := hs.operand henv h
    exact ⟨h₁, hnew⟩
  | binary op l r =>
    obtain ⟨a, s₁, b, ha, hb, ht⟩ := rvalue_binary_eq_ok.mp h
    obtain ⟨h₁, haa, hna⟩ := hs.operand henv ha
    obtain ⟨h₂, hab, hnb⟩ := h₁.operand henv hb
    refine ⟨h₂, ?_⟩
    rintro n sort rfl
    rcases SourceBinOp.eq_name_of_term haa hab ht with ⟨sort, rfl⟩ | ⟨sort, rfl⟩
    · exact hna n sort rfl
    · exact hnb n sort rfl
  | unary op x =>
    obtain ⟨a, ha, ht⟩ := rvalue_unary_eq_ok.mp h
    obtain ⟨h₁, haa, hna⟩ := hs.operand henv ha
    refine ⟨h₁, ?_⟩
    rintro n sort rfl
    obtain ⟨sort, rfl⟩ := SourceUnOp.eq_name_of_term haa ht
    exact hna n sort rfl
  | cast x t =>
    obtain ⟨a, ha, ht⟩ := rvalue_cast_eq_ok.mp h
    obtain ⟨h₁, haa, hna⟩ := hs.operand henv ha
    refine ⟨h₁, ?_⟩
    rintro n sort rfl
    obtain ⟨sort, rfl⟩ := Ty.eq_name_of_castTerm haa ht
    exact hna n sort rfl
  | ref p =>
    obtain ⟨n, isNew, s₁, hn, rfl, rfl⟩ := rvalue_ref_eq_ok h
    obtain ⟨h₁, hnew⟩ := hs.ref henv hn
    refine ⟨?_, Expr.new_name hnew⟩
    split
    · exact h₁.asserted _ _
    · exact h₁
  | missing => exact absurd h Action.error_ne_ok

theorem assign (h : assign env p rv s = (.ok (), s')) : s'.Confined B d := by
  obtain ⟨value, s₁, hv, h₁⟩ := assign_eq_ok.mp h
  obtain ⟨hs₁, hnew⟩ := hs.rvalue henv hv
  rcases h₁ with ⟨n, hshared, hb⟩ | ⟨-, n, s₂, hw, ha⟩
  · obtain ⟨sort, rfl⟩ := eq_name_of_sharesName hshared
    exact hs₁.bind henv (hnew n sort rfl) hb
  · exact (hs₁.writeFresh henv hw).assertEqual ha

theorem unbound (base : Int) : (s.unbound (.of env.depth base)).Confined B d :=
  ⟨hs.memory.unbind (henv.slot base), hs.names, hs.tidy⟩

theorem makeLive {base : Int} (h : makeLive env base s = (.ok (), s')) : s'.Confined B d := by
  have hu := hs.unbound henv base
  obtain ⟨l, -, ⟨-, rfl⟩ | ⟨-, n, hw⟩⟩ := makeLive_eq_ok h
  · exact hu
  · exact hu.writeFresh henv hw

theorem statement {st : Statement} (h : statement env st s = (.ok (), s')) : s'.Confined B d := by
  cases st with
  | assign p rv span => exact hs.assign (henv.withSpan span) h
  | storageLive base => exact hs.makeLive henv h
  | storageDead base =>
    obtain rfl := (Prod.mk.inj h).2.symm
    exact hs.unbound henv base
  | nop =>
    cases h
    exact hs
  | missing => exact absurd h Action.error_ne_ok

theorem statements {sts : List Statement} (h : statements env sts s = (.ok (), s')) :
    s'.Confined B d := by
  induction sts generalizing s with
  | nil =>
    cases h
    exact hs
  | cons st sts ih =>
    obtain ⟨s₁, h₁, h₂⟩ := statements_cons_eq_ok.mp h
    exact ih (hs.statement henv h₁) h₂

theorem operands {xs : List Operand} {es : List Expr} (h : operands env xs s = (.ok es, s')) :
    s'.Confined B d := by
  induction xs generalizing s es with
  | nil =>
    cases h
    exact hs
  | cons x xs ih =>
    obtain ⟨e, s₁, es', he, hes, rfl⟩ := operands_cons_eq_ok.mp h
    exact ih (hs.operand henv he).1 hes

theorem passArguments (h : passArguments env node k args s = (.ok (), s')) : s'.Confined B d := by
  induction args generalizing s k with
  | nil =>
    cases h
    exact hs
  | cons a args ih =>
    obtain ⟨n, s₁, s₂, hw, heq, h₂⟩ := passArguments_cons_eq_ok.mp h
    exact ih ((hs.writeFresh henv hw).assertEqual heq) h₂

end

/-- A function may begin a call.  The callee has what its caller has, and new names for its
parameters. -/
theorem exists_callee (hs : s.Confined .start d) (hscope : s.Scoped)
    (hlt : d + 1 < 0x100000000) (henv : env.depth = (d + 1 : Nat))
    (h : Store.passArguments env node k args s = (.ok (), s')) :
    ∃ B, B.depth = d + 1 ∧ B.names = s.graph.decls.length ∧ B.memory = s.memory ∧
      s'.memory.Confined B (d + 1) := by
  obtain ⟨B, hB, hnames, hmemory, hbegins⟩ := Store.exists_boundary hscope fun x hx =>
    hs.memory.get?_slot_of_lt (Nat.zero_le _) hx
  have hcallee : s.Confined B (d + 1) := ⟨hbegins, hnames.le, hs.tidy⟩
  exact ⟨B, hB, hnames, hmemory, (hcallee.passArguments ⟨henv, hB.le, .inl hlt⟩ h).memory⟩

end Store.Confined

/-! ## Blocks -/

/-- A frame on the inner side has a confined memory. -/
def Frame.Confined (B : Boundary) (f : Frame) : Prop :=
  B.depth ≤ f.depth → f.depth < 0x100000000 ∨ B.depth = 0 → f.memory.Confined B f.depth

namespace Machine

variable {options : Options} {program : Program} {frame : Frame} {env : Env} {m m' : Machine}
  {fs : List Frame} {b : Block}

/-- A block on the inner side hands on frames whose memory is confined. -/
theorem block_confined (henv : env.Inside B frame.depth) (hs : m.store.Confined B frame.depth)
    (h : block options program frame env b m = (.ok fs, m')) : ∀ f ∈ fs, f.Confined B := by
  obtain ⟨s₁, hst, ht⟩ := block_concludes h
  have h₁ := hs.statements henv hst
  generalize b.terminator = t, m'.store = s' at ht
  cases ht with
  | goto =>
    rw [List.forall_mem_singleton]
    exact fun _ _ => h₁.memory
  | switch _ hd =>
    rw [List.forall_mem_map]
    exact fun _ _ _ _ => (h₁.operand (henv.withSpan _) hd).1.memory
  | assert hc =>
    rw [List.forall_mem_singleton]
    exact fun _ _ => (h₁.operand (henv.withSpan _) hc).1.memory
  | stop | finish | unreachable => simp
  | enter hv _ _ hpass =>
    rw [List.forall_mem_singleton]
    intro hle hlt
    have h₂ := h₁.operands (henv.withSpan _) hv
    exact (Confined.passArguments ⟨h₂.memory.enter, h₂.names, h₂.tidy⟩ ⟨rfl, hle, hlt⟩
      hpass).memory
  | skip hv _ hw =>
    rw [List.forall_mem_singleton]
    have h₂ := h₁.operands (henv.withSpan _) hv
    exact fun _ _ => (h₂.writeFresh (henv.withSpan _) hw).memory
  | @resume caller callers _ _ _ s₂ _ _ hc hr hw _ heq =>
    have hdepth : frame.depth = callers.length + 1 := by rw [Frame.depth, hc, List.length_cons]
    rw [List.forall_mem_singleton]
    intro hle hlt
    rw [hdepth] at h₁ henv
    have h₂ := (h₁.readCopy henv hr).1
    have hdrop : Confined B callers.length
        { s₂ with memory := s₂.memory.drop env.depth } := by
      rw [henv.depth]
      exact ⟨h₂.memory.drop henv.le, h₂.names, h₂.tidy⟩
    exact ((hdrop.writeFresh ⟨rfl, hle, hlt⟩ hw).assertEqual heq).memory

end Machine

end NullPath
