import NullPath.Proofs.NameTypes
import NullPath.Proofs.SingleAssignment

/-!
# The code of a lowered function

The blocks of a well-formed function keep their numbers.  This module says what stands in the blocks
of the control-flow graph: the statements of each instruction in order, up to a call, which ends its
block, or up to the end of the block.  The phi nodes of a successor are copied through temporaries,
in the block itself or in one of its own on the edge.

* `Ssa.Function.Codes`: the statements and the terminator of instructions in a row.
* `Ssa.Function.coded_of_lower`: every block of a lowered function has the code of its instructions.
-/

namespace NullPath

theorem Function.block?_natCast {g : Function} {k : Nat} : g.block? k = g.blocks[k]? := by
  simp [block?, nth?]

/-! ## What code mentions -/

/-- The number is one of the first numbers. -/
def Below (n : Nat) (i : Int) : Prop :=
  0 ≤ i ∧ i < n

theorem below_natCast {k n : Nat} (h : k < n) : Below n k :=
  ⟨Int.natCast_nonneg k, Int.ofNat_lt.mpr h⟩

theorem Below.mono {n m : Nat} {i : Int} (h : Below n i) (hle : n ≤ m) : Below m i :=
  ⟨h.1, h.2.trans_le (Int.ofNat_le.mpr hle)⟩

/-- The locals that a statement mentions. -/
def Statement.locals : Statement → List Int
  | .storageLive i | .storageDead i => [i]
  | st => st.places.map Place.base

/-- The terminator mentions some of the first locals and blocks only, and a switch has one target
more than values. -/
structure Terminator.Fits (n m : Nat) (t : Terminator) : Prop where
  places : ∀ p ∈ t.places, Below n p.base
  targets : ∀ k ∈ t.targets, Below m k
  arity : ∀ x values targets span, t = .switch x values targets span →
    targets.length = values.length + 1

theorem Terminator.Fits.goto {n m k : Nat} (h : k < m) : Terminator.Fits n m (.goto k) :=
  ⟨nofun, List.forall_mem_singleton.mpr (below_natCast h), nofun⟩

/-- The block mentions some of the first locals and blocks only. -/
structure Block.Fits (n m : Nat) (b : Block) : Prop where
  locals : ∀ st ∈ b.statements, ∀ i ∈ st.locals, Below n i
  terminator : b.terminator.Fits n m

theorem Block.Fits.mono {n n' m m' : Nat} {b : Block} (h : b.Fits n m) (hn : n ≤ n')
    (hm : m ≤ m') : b.Fits n' m' where
  locals st hst i hi := (h.locals st hst i hi).mono hn
  terminator := ⟨fun p hp => (h.terminator.places p hp).mono hn,
    fun k hk => (h.terminator.targets k hk).mono hm, h.terminator.arity⟩

/-- The local of a place, if it is none of the first ones. -/
def Place.extra (k : Nat) (p : Place) : List Nat :=
  if k ≤ p.base then [p.base.toNat] else []

theorem Place.extra_of_lt {i k : Nat} (h : i < k) (d : Nat) : Place.extra k ⟨i, d⟩ = [] :=
  if_neg (by simpa using h)

theorem Place.extra_of_le {i k : Nat} (h : k ≤ i) (d : Nat) : Place.extra k ⟨i, d⟩ = [i] := by
  simp [extra, h]

/-- The extra local that a statement copies or takes the address of. -/
def Statement.taken (k : Nat) : Statement → List Nat
  | .assign _ (.use (.copy p)) _ | .assign _ (.ref p) _ => p.extra k
  | _ => []

/-- The extra local that a call writes to. -/
def Terminator.taken (k : Nat) : Terminator → List Nat
  | .call _ _ (some p) _ _ => p.extra k
  | _ => []

/-- The extra locals that a block takes. -/
def Block.taken (k : Nat) (b : Block) : List Nat :=
  b.terminator.taken k ++ b.statements.flatMap (Statement.taken k)

namespace Ssa

open Builder Action

variable {B B' : Builder}

namespace Function

/-! ## What instructions become -/

/-- The unary operators that have a counterpart. -/
def unaryOperator? : String → Option SourceUnOp
  | "!" => some .not
  | "-" => some .neg
  | _ => none

/-- The statements of an instruction that stays in its block, where the locals are given. -/
inductive Emits (f : Function) (L : List LocalVar) : Instr → List Statement → Prop
  | silent {i : Instr} : i = .debug ∨ i = .runDefers ∨ (∃ r edges, i = .phi r edges) → Emits f L i []
  | binary {r : Register} {op : String} {o : SourceBinOp} {x y : Value} {x' y' : Operand}
    {sort : ExprSort} : binaryOperator? op = some o → f.operand x = .ok x' → f.operand y = .ok y' →
    r.type.lower.sort = .ok sort →
    Emits f L (.binary r op x y) [.assign ⟨f.registerSlot r, 0⟩ (.binary o x' y') r.span]
  | unary {r : Register} {op : String} {o : SourceUnOp} {x : Value} {x' : Operand}
    {sort : ExprSort} : unaryOperator? op = some o → f.operand x = .ok x' →
    r.type.lower.sort = .ok sort →
    Emits f L (.unary r op x false) [.assign ⟨f.registerSlot r, 0⟩ (.unary o x') r.span]
  | load {r : Register} {x : Value} {a : Nat} {sort : ExprSort} : f.slot? x = some a →
    r.type.lower.sort = .ok sort →
    Emits f L (.unary r "*" x false)
      [.assign ⟨f.registerSlot r, 0⟩ (.use (.copy ⟨a, 1⟩)) r.span]
  | cast {i : Instr} {r : Register} {x : Value} {x' : Operand} {sort : ExprSort} :
    i = .convert r x ∨ i = .changeType r x → f.operand x = .ok x' → r.type.lower.sort = .ok sort →
    Emits f L i [.assign ⟨f.registerSlot r, 0⟩ (.cast x' r.type.lower) r.span]
  | store {address value : Value} {span : Span} {x : Operand} {a : Nat} : f.operand value = .ok x →
    f.slot? address = some a →
    Emits f L (.store address value span) [.assign ⟨a, 1⟩ (.use x) span]
  | alloc {r : Register} {comment : String} {elem : GoType} {a : Nat} {init : List Statement} :
    r.type = .pointer elem → f.fixed ≤ a → L[a]? = some ⟨comment, elem.lower⟩ →
    init = [] ∨ init = [.assign ⟨a, 0⟩ (.use (.const 0 elem.lower)) r.span] →
    Emits f L (.alloc r comment)
      (.storageLive a :: init ++ [.assign ⟨f.registerSlot r, 0⟩ (.ref ⟨a, 0⟩) r.span])

/-- Copies of values to temporaries, from a number on. -/
inductive CopiesIn (f : Function) (L : List LocalVar) :
    Nat → List (Register × Value) → List Statement → Prop
  | nil {t : Nat} : CopiesIn f L t [] []
  | cons {t : Nat} {r : Register} {v : Value} {x : Operand} {rest : List (Register × Value)}
    {sts : List Statement} : f.operand v = .ok x → L[t]? = some ⟨"", r.type.lower⟩ →
    CopiesIn f L (t + 1) rest sts →
    CopiesIn f L t ((r, v) :: rest) (.assign ⟨t, 0⟩ (.use x) {} :: sts)

/-- Copies of temporaries, from a number on, to the locals of registers. -/
def copiesOut (f : Function) : Nat → List (Register × Value) → List Statement
  | _, [] => []
  | t, (r, _) :: rest =>
    .assign ⟨f.registerSlot r, 0⟩ (.use (.copy ⟨t, 0⟩)) {} :: f.copiesOut (t + 1) rest

/-- The copies for the phi nodes of a block, as control comes from a predecessor. -/
def Joins (f : Function) (L : List LocalVar) (pred block : Nat) (sts : List Statement) : Prop :=
  ∃ values t loads, f.incoming pred block (f.phisAt block) = .ok values ∧ f.fixed ≤ t ∧
    f.CopiesIn L t values loads ∧ sts = loads ++ f.copiesOut t values

/-- An edge leads to a block, or to a block of its own which goes there. -/
def Leads (f : Function) (L : List LocalVar) (K : List NullPath.Block) (pred block : Nat)
    (target : Nat) : Prop :=
  (target = block ∧ f.phisAt block = []) ∨
    ∃ sts, f.blocks.length ≤ target ∧ K[target]? = some ⟨sts, .goto block⟩ ∧ f.Joins L pred block sts

/-- The local for the result of a call. -/
def Receives (f : Function) (L : List LocalVar) (r : Register) (dest : Nat) : Prop :=
  (dest = f.registerSlot r ∧ ∃ sort, r.type.lower.sort = .ok sort) ∨
    ((∃ err, r.type.lower.sort = .error err) ∧ f.fixed ≤ dest ∧ L[dest]? = some ⟨"", .integer⟩)

/-- The terminator of a call that goes on at a block. -/
def callTo (f : Function) (r : Register) (callee : Callee) (args : List Value) (dest next : Nat) :
    Terminator :=
  .call (f.callParts callee args).1 (f.callParts callee args).2 (some ⟨dest, 0⟩) next r.span

/-- The statements and the terminator of the instructions in a row that end a block, where the
locals and the blocks are given. -/
inductive Codes (f : Function) (L : List LocalVar) (K : List NullPath.Block) (index : Nat) (b : Block) :
    List Instr → List Statement → Terminator → Prop
  | emit {i : Instr} {rest : List Instr} {out sts : List Statement} {t : Terminator} :
    f.Emits L i out → Codes f L K index b rest sts t → Codes f L K index b (i :: rest) (out ++ sts) t
  | call {r : Register} {callee : Callee} {args : List Value} {rest : List Instr} {dest next : Nat}
    {sts : List Statement} {t : Terminator} : f.Receives L r dest → f.blocks.length ≤ next →
    K[next]? = some ⟨sts, t⟩ → Codes f L K index b rest sts t →
    Codes f L K index b (.call r callee args :: rest) [] (f.callTo r callee args dest next)
  | jump {s : Nat} {sts : List Statement} : b.succs = [s] → f.Joins L index s sts →
    Codes f L K index b [.jump] sts (.goto s)
  | branch {c : Value} {x : Operand} {s s' taken otherwise : Nat} : b.succs = [s, s'] →
    f.operand c = .ok x → f.Leads L K index s taken → f.Leads L K index s' otherwise →
    Codes f L K index b [.branch c] [] (.switch x [0] [otherwise, taken] {})
  | result {v : Value} {x : Operand} {span : Span} : f.operand v = .ok x →
    Codes f L K index b [.return [v] span] [.assign ⟨0, 0⟩ (.use x) span] .return
  | results {vs : List Value} {span : Span} : vs.length ≠ 1 →
    Codes f L K index b [.return vs span] [] .return
  | panic {span : Span} : Codes f L K index b [.panic span] [] .unreachable

variable {f : Function} {L : List LocalVar} {K : List NullPath.Block} {sts : List Statement}
  {pred block : Nat}

theorem registerSlot_lt_fixed (f : Function) (r : Register) : f.registerSlot r < f.fixed := by
  unfold registerSlot
  cases h : f.slot? (.register r.number) with
  | none => exact Nat.succ_pos _
  | some i => exact (slot?_lt h).2

theorem below_of_operand {v : Value} {x : Operand} (h : f.operand v = .ok x) :
    ∀ p ∈ x.places, Below f.fixed p.base := by
  rcases operand_eq_ok h with ⟨c, t, -, hc⟩ | ⟨i, t, sort, hi, rfl, -, -⟩
  · obtain ⟨_, rfl⟩ := constOperand_eq_ok hc
    nofun
  · rintro p hp
    rw [List.mem_singleton.mp hp]
    exact below_natCast (slot?_lt hi).2

theorem taken_use {v : Value} {x : Operand} (h : f.operand v = .ok x) (p : Place) (span : Span) :
    (Statement.assign p (.use x) span).taken f.fixed = [] := by
  rcases operand_eq_ok h with ⟨c, t, -, hc⟩ | ⟨i, t, sort, hi, rfl, -, -⟩
  · obtain ⟨_, rfl⟩ := constOperand_eq_ok hc
    rfl
  · exact Place.extra_of_lt (slot?_lt hi).2 0

theorem Emits.below {i : Instr} (h : f.Emits L i sts) (hfix : f.fixed ≤ L.length) :
    ∀ st ∈ sts, ∀ j ∈ st.locals, Below L.length j := by
  have hreg : ∀ r, Below L.length (f.registerSlot r) := fun r =>
    below_natCast ((f.registerSlot_lt_fixed r).trans_le hfix)
  have hslot : ∀ {v a}, f.slot? v = some a → Below L.length (a : Int) := fun ha =>
    below_natCast ((slot?_lt ha).2.trans_le hfix)
  have hoperand : ∀ {v x}, f.operand v = .ok x → ∀ p ∈ x.places, Below L.length p.base :=
    fun hx p hp => (below_of_operand hx p hp).mono hfix
  cases h with
  | silent => simp
  | binary _ hx hy _ =>
    simpa [Statement.locals, Statement.places, Rvalue.places, hreg, or_imp, forall_and] using
      ⟨hoperand hx, hoperand hy⟩
  | unary _ hx _ | cast _ hx _ =>
    simpa [Statement.locals, Statement.places, Rvalue.places, hreg] using hoperand hx
  | load ha _ =>
    simp [Statement.locals, Statement.places, Rvalue.places, Operand.places, hreg, hslot ha]
  | store hx ha =>
    simpa [Statement.locals, Statement.places, Rvalue.places, hslot ha] using hoperand hx
  | alloc _ _ ha hinit =>
    have hlt := below_natCast (lt_length_of_getElem? ha)
    rcases hinit with rfl | rfl <;>
      simp [Statement.locals, Statement.places, Rvalue.places, Operand.places, hreg, hlt]

/-- Only allocations take extra locals. -/
theorem Emits.taken_eq_nil {i : Instr} (h : f.Emits L i sts)
    (hi : ∀ r comment, i ≠ .alloc r comment) : sts.flatMap (Statement.taken f.fixed) = [] := by
  cases h with
  | silent | binary | unary | cast => rfl
  | load ha _ => simp [Statement.taken, Place.extra_of_lt (slot?_lt ha).2]
  | store hx _ => simp [taken_use hx]
  | alloc => exact absurd rfl (hi _ _)

theorem getElem?_of_extends {α : Type} {xs ys : List α} {x : α} {i : Nat} (h : xs[i]? = some x)
    (hxs : xs <+: ys) : ys[i]? = some x := by
  obtain ⟨rest, rfl⟩ := hxs
  rw [List.getElem?_append_left (lt_length_of_getElem? h), h]

theorem Leads.lt {target : Nat} (h : f.Leads L K pred block target) (hs : block < f.blocks.length)
    (hK : f.blocks.length ≤ K.length) : target < K.length := by
  rcases h with ⟨rfl, -⟩ | ⟨_, -, hblk, -⟩
  · exact hs.trans_le hK
  · exact lt_length_of_getElem? hblk

theorem Receives.lt {r : Register} {dest : Nat} (h : f.Receives L r dest)
    (hfix : f.fixed ≤ L.length) : dest < L.length := by
  rcases h with ⟨rfl, -⟩ | ⟨-, -, hl⟩
  · exact (f.registerSlot_lt_fixed r).trans_le hfix
  · exact lt_length_of_getElem? hl

theorem Codes.ne_missing {index : Nat} {b : Block} {instrs : List Instr} {t : Terminator}
    (h : f.Codes L K index b instrs sts t) : t ≠ .missing := by
  induction h with
  | emit _ _ ih => exact ih
  | call | jump | branch | result | results | panic => nofun

end Function

/-! ## Writing code -/

namespace Builder

variable {B B' B'' : Builder} {pre : List Statement} {k : Nat}

/-- The builder after locals have been added, and statements to the block that is being filled. -/
def wrote (B : Builder) (vars : List LocalVar) (sts : List Statement) : Builder :=
  { B with
    locals := B.locals ++ vars
    blocks := B.blocks.modify B.current fun blk =>
      { blk with statements := blk.statements ++ sts } }

/-- The builder after the block that is being filled has been ended. -/
def ended (B : Builder) (t : Terminator) : Builder :=
  { B with blocks := B.blocks.modify B.current fun blk => { blk with terminator := t } }

theorem wrote_nil (B : Builder) (vars : List LocalVar) :
    B.wrote vars [] = { B with locals := B.locals ++ vars } := by
  have hid : (fun blk : NullPath.Block => { blk with statements := blk.statements ++ [] }) = id := by
    funext blk
    simp
  rw [wrote, hid, List.modify_id]

theorem wrote_wrote (B : Builder) (vars vars' : List LocalVar) (sts sts' : List Statement) :
    (B.wrote vars sts).wrote vars' sts' = B.wrote (vars ++ vars') (sts ++ sts') := by
  simp [wrote, List.modify_modify_eq, Function.comp_def]

theorem emit_eq (st : Statement) (B : Builder) : emit st B = (.ok (), B.wrote [] [st]) := by
  simp [emit, wrote]

theorem newLocal_eq (l : LocalVar) (B : Builder) :
    newLocal l B = (.ok B.locals.length, B.wrote [l] []) := by
  rw [wrote_nil]
  rfl

/-- The block with that number is to be ended. -/
def Open (B : Builder) (j : Nat) : Prop :=
  ∃ sts, B.blocks[j]? = some ⟨sts, .missing⟩

/-- All blocks mention locals and blocks that there are. -/
def Fits (B : Builder) : Prop :=
  ∀ blk ∈ B.blocks, blk.Fits B.locals.length B.blocks.length

/-- The extra locals that the blocks take. -/
def taken (k : Nat) (B : Builder) : List Nat :=
  B.blocks.flatMap (Block.taken k)

/-- One builder comes from another by writing locals and blocks.  Every new local is taken once. -/
structure Extends (k : Nat) (B B' : Builder) : Prop where
  locals : B.locals <+: B'.locals
  typed : (∀ l ∈ B.locals, l.type ≠ .untyped) → ∀ l ∈ B'.locals, l.type ≠ .untyped
  length : B.blocks.length ≤ B'.blocks.length
  fits : B.Fits → B'.Fits
  taken : (B'.taken k).Perm
    (B.taken k ++ List.range' B.locals.length (B'.locals.length - B.locals.length))

theorem Extends.refl {k : Nat} {B : Builder} : Extends k B B where
  locals := List.prefix_rfl
  typed := id
  length := Nat.le_refl _
  fits := id
  taken := by simp

theorem Extends.trans (h : Extends k B B') (h' : Extends k B' B'') : Extends k B B'' where
  locals := h.locals.trans h'.locals
  typed ht := h'.typed (h.typed ht)
  length := h.length.trans h'.length
  fits hB := h'.fits (h.fits hB)
  taken := by
    obtain ⟨vars, hvars⟩ := h.locals
    obtain ⟨vars', hvars'⟩ := h'.locals
    have htaken := h'.taken.trans (h.taken.append_right _)
    simpa [← hvars', ← hvars, List.range'_append_1, Nat.add_sub_add_left] using htaken

/-- The same where of the old blocks only the one being filled is touched.  If another one is filled
after that, the old one has been ended. -/
structure Grows (k : Nat) (B B' : Builder) : Prop extends Extends k B B' where
  current : B'.current = B.current ∨ B.blocks.length ≤ B'.current
  others : ∀ j, j < B.blocks.length → j ≠ B.current → B'.blocks[j]? = B.blocks[j]?
  opened : ∀ j, B'.Open j → j = B'.current ∨ (B.Open j ∧ j ≠ B.current)

theorem Grows.refl {k : Nat} {B : Builder} : Grows k B B where
  toExtends := .refl
  current := .inl rfl
  others _ _ _ := rfl
  opened j hj := (Decidable.eq_or_ne j B.current).imp_right fun hne => ⟨hj, hne⟩

theorem Grows.trans (h : Grows k B B') (h' : Grows k B' B'') : Grows k B B'' where
  toExtends := h.toExtends.trans h'.toExtends
  current := by
    have hle := h.length
    rcases h'.current with hc' | hc'
    · rcases h.current with hc | hc
      · exact .inl (hc'.trans hc)
      · exact .inr (hc' ▸ hc)
    · exact .inr (hle.trans hc')
  others j hj hne := by
    rw [h'.others j (hj.trans_le h.length) ?_, h.others j hj hne]
    rcases h.current with hc | hc
    · rwa [hc]
    · omega
  opened j hj := by
    rcases h'.opened j hj with hc | ⟨hj', hne⟩
    · exact .inl hc
    · exact .inr ((h.opened j hj').resolve_left hne)

/-- What stands in the block that is being filled. -/
def Holds (B : Builder) (sts : List Statement) : Prop :=
  B.blocks[B.current]? = some ⟨sts, .missing⟩

/-- Statements with the locals that they bring, from a number on. -/
structure Brings (k t : Nat) (vars : List LocalVar) (sts : List Statement) : Prop where
  typed : ∀ l ∈ vars, l.type ≠ .untyped
  taken : sts.flatMap (Statement.taken k) = List.range' t vars.length

/-- What holds of the elements of a list, and is kept by a change of one of them. -/
theorem forall_mem_modify {α : Type} {P : α → Prop} {xs : List α} {i : Nat} {g : α → α}
    (h : ∀ x ∈ xs, P x) (hg : ∀ x, xs[i]? = some x → P x → P (g x)) : ∀ x ∈ xs.modify i g, P x := by
  intro x hx
  obtain ⟨j, hj⟩ := List.mem_iff_getElem?.mp hx
  rw [List.getElem?_modify] at hj
  split at hj
  · next heq =>
    obtain ⟨y, hy, rfl⟩ := Option.map_eq_some_iff.mp hj
    exact hg y (heq ▸ hy) (h y (List.mem_of_getElem? hy))
  · exact h x (List.mem_of_getElem? (by simpa using hj))

/-- What a change of one element adds. -/
theorem perm_flatMap_modify {α β : Type} {c : α → List β} {xs : List α} {x : α} {i : Nat}
    {g : α → α} {extra : List β} (hx : xs[i]? = some x) (hg : (c (g x)).Perm (c x ++ extra)) :
    ((xs.modify i g).flatMap c).Perm (xs.flatMap c ++ extra) := by
  induction xs generalizing i with
  | nil => cases hx
  | cons y xs ih =>
    cases i with
    | zero =>
      cases hx
      rw [List.modify_zero_cons, List.flatMap_cons, List.flatMap_cons, List.append_assoc]
      refine (hg.append_right _).trans ?_
      rw [List.append_assoc]
      exact List.perm_append_comm.append_left _
    | succ i =>
      rw [List.modify_succ_cons, List.flatMap_cons, List.flatMap_cons, List.append_assoc]
      exact (ih hx).append_left _

/-- The block that is being filled changes, and brings new locals. -/
theorem Extends.of_modify {vars : List LocalVar} {g : NullPath.Block → NullPath.Block}
    (hlocals : B'.locals = B.locals ++ vars) (hblocks : B'.blocks = B.blocks.modify B.current g)
    (hpre : B.Holds pre) (hvars : ∀ l ∈ vars, l.type ≠ .untyped)
    (hfits : ∀ blk, blk.Fits (B.locals.length + vars.length) B.blocks.length →
      (g blk).Fits (B.locals.length + vars.length) B.blocks.length)
    (htaken : (Block.taken k (g ⟨pre, .missing⟩)).Perm
      (Block.taken k ⟨pre, .missing⟩ ++ List.range' B.locals.length vars.length)) :
    Extends k B B' where
  locals := hlocals ▸ List.prefix_append _ _
  typed ht := hlocals ▸ List.forall_mem_append.mpr ⟨ht, hvars⟩
  length := by simp [hblocks]
  fits hB := by
    rw [Builder.Fits, hlocals, hblocks, List.length_append, List.length_modify]
    exact forall_mem_modify (fun blk hblk => (hB blk hblk).mono (Nat.le_add_right _ _) (Nat.le_refl _))
      fun blk _ => hfits blk
  taken := by
    rw [Builder.taken, hblocks, hlocals, List.length_append, Nat.add_sub_cancel_left]
    exact perm_flatMap_modify hpre htaken

theorem Grows.of_modify {g : NullPath.Block → NullPath.Block} (h : Extends k B B')
    (hblocks : B'.blocks = B.blocks.modify B.current g) (hcurrent : B'.current = B.current) :
    Grows k B B' where
  toExtends := h
  current := .inl hcurrent
  others j _ hne := by rw [hblocks, List.getElem?_modify_ne _ _ hne.symm]
  opened j hj := by
    by_cases hc : j = B.current
    · exact .inl (hc.trans hcurrent.symm)
    · rw [Open, hblocks, List.getElem?_modify_ne _ _ (Ne.symm hc)] at hj
      exact .inr ⟨hj, hc⟩

theorem Grows.wrote {vars : List LocalVar} {sts : List Statement} (hpre : B.Holds pre)
    (h : Brings k B.locals.length vars sts)
    (hsts : ∀ st ∈ sts, ∀ i ∈ st.locals, Below (B.locals.length + vars.length) i) :
    Grows k B (B.wrote vars sts) := by
  refine .of_modify (.of_modify rfl rfl hpre h.typed (fun blk hblk => ⟨?_, hblk.terminator⟩) ?_) rfl rfl
  · exact List.forall_mem_append.mpr ⟨hblk.locals, hsts⟩
  · simp [Block.taken, Terminator.taken, h.taken]

theorem Grows.ended {t : Terminator} (hpre : B.Holds pre)
    (ht : t.Fits B.locals.length B.blocks.length) (htaken : t.taken k = []) :
    Grows k B (B.ended t) := by
  refine .of_modify (.of_modify (List.append_nil _).symm rfl hpre (by simp)
    (fun blk hblk => ⟨hblk.locals, ht⟩) ?_) rfl rfl
  simp [Block.taken, htaken, show Terminator.taken k .missing = [] from rfl]

/-- The builder after locals and whole blocks have been added. -/
def extended (B : Builder) (vars : List LocalVar) (blks : List NullPath.Block) : Builder :=
  { B with locals := B.locals ++ vars, blocks := B.blocks ++ blks }

theorem Extends.extended (B : Builder) {vars : List LocalVar} {blks : List NullPath.Block}
    (hvars : ∀ l ∈ vars, l.type ≠ .untyped)
    (hblks : ∀ blk ∈ blks,
      blk.Fits (B.locals.length + vars.length) (B.blocks.length + blks.length))
    (htaken : blks.flatMap (Block.taken k) = List.range' B.locals.length vars.length) :
    Extends k B (B.extended vars blks) where
  locals := List.prefix_append _ _
  typed ht := List.forall_mem_append.mpr ⟨ht, hvars⟩
  length := by simp [Builder.extended]
  fits hB := by
    simp only [Builder.Fits, Builder.extended, List.length_append]
    exact List.forall_mem_append.mpr ⟨fun blk hblk => (hB blk hblk).mono (Nat.le_add_right _ _)
      (Nat.le_add_right _ _), hblks⟩
  taken := by simp [Builder.taken, Builder.extended, ← htaken]

theorem Grows.extended {vars : List LocalVar} {blks : List NullPath.Block}
    (h : Extends k B (B.extended vars blks)) (hblks : ∀ blk ∈ blks, blk.terminator ≠ .missing) :
    Grows k B (B.extended vars blks) where
  toExtends := h
  current := .inl rfl
  others j hj _ := List.getElem?_append_left hj
  opened j hj := by
    obtain ⟨sts, hj⟩ := hj
    rcases Decidable.eq_or_ne j B.current with hc | hc
    · exact .inl hc
    · refine .inr ⟨⟨sts, ?_⟩, hc⟩
      rw [Builder.extended, List.getElem?_append] at hj
      split at hj
      · exact hj
      · exact absurd rfl (hblks _ (List.mem_of_getElem? hj))

/-- A call ends the block that is being filled, and a new one is filled from there on. -/
theorem Grows.call {vars : List LocalVar} {callee : String} {args : List Operand} {dest : Place}
    {next : Int} {span : Span} (hpre : B.Holds pre) (hvars : ∀ l ∈ vars, l.type ≠ .untyped)
    (ht : (Terminator.call callee args (some dest) next span).Fits (B.locals.length + vars.length)
      (B.blocks.length + 1))
    (htaken : dest.extra k = List.range' B.locals.length vars.length) :
    Grows k B ⟨B.locals ++ vars, (B.blocks ++ [emptyBlock]).modify B.current fun blk =>
      { blk with terminator := .call callee args (some dest) next span }, B.blocks.length⟩ where
  toExtends := by
    have hempty : Extends k B (B.extended [] [emptyBlock]) := by
      refine .extended B (by simp) ?_ rfl
      rw [List.forall_mem_singleton]
      exact ⟨List.forall_mem_nil _, nofun, nofun, nofun⟩
    have hpre' : (B.extended [] [emptyBlock]).Holds pre :=
      (List.getElem?_append_left (lt_length_of_getElem? hpre)).trans hpre
    have hlocals : (B.extended [] [emptyBlock]).locals = B.locals := List.append_nil _
    refine hempty.trans (.of_modify (by rw [hlocals]) rfl hpre' hvars
      (fun blk hblk => ⟨hblk.locals, ?_⟩) ?_)
    · simpa [Builder.extended] using ht
    · simpa [Block.taken, Terminator.taken, Builder.extended, htaken] using List.perm_append_comm
  current := .inr (Nat.le_refl _)
  others j hj hne := by
    rw [List.getElem?_modify_ne _ _ hne.symm, List.getElem?_append_left hj]
  opened j hj := by
    obtain ⟨sts, hj⟩ := hj
    by_cases hc : j = B.current
    · subst hc
      rw [List.getElem?_modify_eq, List.getElem?_append_left (lt_length_of_getElem? hpre), hpre] at hj
      cases hj
    · rw [List.getElem?_modify_ne _ _ (Ne.symm hc), List.getElem?_append] at hj
      split at hj
      · exact .inr ⟨⟨sts, hj⟩, hc⟩
      · next hge =>
        have hlt := lt_length_of_getElem? hj
        rw [List.length_singleton] at hlt
        exact .inl (show j = B.blocks.length by omega)

theorem Holds.wrote (h : B.Holds pre) (vars : List LocalVar) (sts : List Statement) :
    (B.wrote vars sts).Holds (pre ++ sts) := by
  rw [Holds] at h
  simp [Holds, Builder.wrote, h]

theorem Holds.lt (h : B.Holds pre) : B.current < B.blocks.length :=
  lt_length_of_getElem? h

theorem Holds.of_prefix (h : B.Holds pre) (hblocks : B.blocks <+: B'.blocks)
    (hcurrent : B'.current = B.current) : B'.Holds pre := by
  rw [Holds, hcurrent]
  exact Function.getElem?_of_extends h hblocks

theorem Holds.ended (h : B.Holds pre) (t : Terminator) :
    (B.ended t).blocks[B.current]? = some ⟨pre, t⟩ := by
  rw [Holds] at h
  simp [Builder.ended, h]

end Builder

theorem emit_bind_eq_ok {β : Type} {st : Statement} {k : Unit → Action Builder β} {b : β} :
    (emit st >>= k) B = (.ok b, B') ↔ k () (B.wrote [] [st]) = (.ok b, B') := by
  rw [bind_apply, emit_eq]

theorem newLocal_bind_eq_ok {β : Type} {l : LocalVar} {k : Nat → Action Builder β} {b : β} :
    (newLocal l >>= k) B = (.ok b, B') ↔
      k B.locals.length (B.wrote [l] []) = (.ok b, B') := by
  rw [bind_apply, newLocal_eq]

theorem eq_of_emit {st : Statement} (h : emit st B = (.ok (), B')) : B' = B.wrote [] [st] := by
  rw [emit_eq] at h
  exact (Prod.mk.inj h).2.symm

namespace Function

variable {f : Function} {B B' : Builder} {index pred block : Nat} {b b' : Block} {r : Register}
  {i : Instr} {callee : Callee} {edges vs : List Value} {phis : List (Register × List Value)}
  {values : List (Register × Value)} {α : Type} {instrs : List Instr} {pre : List Statement}

theorem lowerAs_ne_untyped (name : String) : ∀ t : GoType, t.lowerAs name ≠ .untyped
  | .basic b => by
    unfold GoType.lowerAs
    split
    · nofun
    · split
      · nofun
      · split <;> nofun
  | .pointer _ => nofun
  | .slice _ => nofun
  | .named _ _ t => lowerAs_ne_untyped name t
  | .tuple _ => nofun

theorem lower_ne_untyped (t : GoType) : t.lower ≠ .untyped :=
  lowerAs_ne_untyped t.text t

theorem assign_eq_ok {rv : Rvalue} (h : f.assign r rv B = (.ok (), B')) :
    (∃ sort, r.type.lower.sort = .ok sort) ∧
      B' = B.wrote [] [.assign ⟨f.registerSlot r, 0⟩ rv r.span] := by
  obtain ⟨sort, hsort, hemit⟩ := lift_bind_eq_ok.mp h
  exact ⟨⟨sort, hsort⟩, eq_of_emit hemit⟩

theorem lowerAlloc_eq_ok {comment : String} (h : f.lowerAlloc r comment B = (.ok (), B'))
    (hfix : f.fixed ≤ B.locals.length) :
    ∃ vars sts, B' = B.wrote vars sts ∧ Brings f.fixed B.locals.length vars sts ∧
      ∀ L, B.locals ++ vars <+: L → f.Emits L (.alloc r comment) sts := by
  cases hr : r.type with
  | pointer elem =>
    rw [lowerAlloc, hr] at h
    have hlive := emit_bind_eq_ok.mp (newLocal_bind_eq_ok.mp h)
    have hlocal : ∀ L, B.locals ++ [⟨comment, elem.lower⟩] <+: L →
        L[B.locals.length]? = some ⟨comment, elem.lower⟩ := by
      intro L hL
      exact getElem?_of_extends (by simp) hL
    have hbrings : ∀ init, init.flatMap (Statement.taken f.fixed) = [] →
        Brings f.fixed B.locals.length [⟨comment, elem.lower⟩] (.storageLive B.locals.length ::
          init ++ [.assign ⟨f.registerSlot r, 0⟩ (.ref ⟨B.locals.length, 0⟩) r.span]) :=
      fun init hinit => ⟨by simp [lower_ne_untyped],
        by simp [hinit, Statement.taken, Place.extra_of_le hfix]⟩
    refine ⟨[⟨comment, elem.lower⟩], ?_⟩
    by_cases hsort : elem.lower.sort.isOk = true
    · rw [if_pos hsort] at hlive
      have hend := eq_of_emit (emit_bind_eq_ok.mp hlive)
      simp only [wrote_wrote] at hend
      refine ⟨_, hend, hbrings [.assign ⟨B.locals.length, 0⟩ (.use (.const 0 elem.lower)) r.span] rfl,
        fun L hL => ?_⟩
      exact .alloc hr hfix (hlocal L hL) (.inr rfl)
    · rw [if_neg hsort] at hlive
      have hend := eq_of_emit hlive
      simp only [wrote_wrote] at hend
      refine ⟨_, hend, hbrings [] rfl, fun L hL => ?_⟩
      exact .alloc hr hfix (hlocal L hL) (.inl rfl)
  | basic | slice | named | tuple =>
    rw [lowerAlloc, hr] at h
    cases h

theorem lowerUnary_eq_ok {op : String} {x : Value} {commaOk : Bool}
    (h : f.lowerUnary r op x commaOk B = (.ok (), B')) :
    ∃ st, B' = B.wrote [] [st] ∧ ∀ L, f.Emits L (.unary r op x commaOk) [st] := by
  generalize hact : f.lowerUnary r op x commaOk = act at h
  unfold lowerUnary at hact
  cases commaOk with
  | true =>
    subst hact
    cases h
  | false =>
    rw [if_neg Bool.false_ne_true] at hact
    split at hact <;> subst hact
    · obtain ⟨a, ha, hassign⟩ := lift_bind_eq_ok.mp h
      obtain ⟨⟨sort, hr⟩, rfl⟩ := assign_eq_ok hassign
      exact ⟨_, rfl, fun L => .load (slot_eq_ok ha) hr⟩
    case h_4 => cases h
    all_goals
      obtain ⟨x', hx, hassign⟩ := lift_bind_eq_ok.mp h
      obtain ⟨⟨sort, hr⟩, rfl⟩ := assign_eq_ok hassign
      exact ⟨_, rfl, fun L => .unary rfl hx hr⟩

/-- What an instruction writes that neither calls nor leaves its block. -/
theorem lowerInstr_emits (h : f.lowerInstr index b i B = (.ok (), B')) (hexit : i.isExit = false)
    (hcall : ∀ r callee args, i ≠ .call r callee args) (hfix : f.fixed ≤ B.locals.length) :
    ∃ vars sts, B' = B.wrote vars sts ∧ Brings f.fixed B.locals.length vars sts ∧
      ∀ L, B.locals ++ vars <+: L → f.Emits L i sts := by
  by_cases halloc : ∃ r comment, i = .alloc r comment
  · obtain ⟨r, comment, rfl⟩ := halloc
    exact lowerAlloc_eq_ok h hfix
  suffices hplain : ∃ sts, B' = B.wrote [] sts ∧ ∀ L, f.Emits L i sts by
    obtain ⟨sts, hB', hemits⟩ := hplain
    refine ⟨[], sts, hB', ⟨by simp, ?_⟩, fun L _ => hemits L⟩
    exact (hemits []).taken_eq_nil fun r comment hi => halloc ⟨r, comment, hi⟩
  have hnone : B = B.wrote [] [] := by simp [wrote_nil]
  cases i with
  | debug | runDefers | phi =>
    cases h
    exact ⟨[], hnone, fun L => .silent (by simp)⟩
  | alloc r comment => exact absurd ⟨r, comment, rfl⟩ halloc
  | binary r op x y =>
    cases ho : binaryOperator? op with
    | none =>
      rw [lowerInstr, ho] at h
      cases h
    | some o =>
      rw [lowerInstr, ho] at h
      obtain ⟨x', hx, h₁⟩ := lift_bind_eq_ok.mp h
      obtain ⟨y', hy, h₂⟩ := lift_bind_eq_ok.mp h₁
      obtain ⟨⟨sort, hr⟩, rfl⟩ := assign_eq_ok h₂
      exact ⟨_, rfl, fun L => .binary ho hx hy hr⟩
  | unary r op x commaOk =>
    obtain ⟨st, rfl, hst⟩ := lowerUnary_eq_ok h
    exact ⟨_, rfl, hst⟩
  | convert r x | changeType r x =>
    obtain ⟨x', hx, h₁⟩ := lift_bind_eq_ok.mp h
    obtain ⟨⟨sort, hr⟩, rfl⟩ := assign_eq_ok h₁
    exact ⟨_, rfl, fun L => .cast (by simp) hx hr⟩
  | store address value span =>
    obtain ⟨x, hx, h₁⟩ := lift_bind_eq_ok.mp h
    obtain ⟨a, ha, h₂⟩ := lift_bind_eq_ok.mp h₁
    exact ⟨_, eq_of_emit h₂, fun L => .store hx (slot_eq_ok ha)⟩
  | call r callee args => exact absurd rfl (hcall r callee args)
  | slice | send => cases h
  | branch | jump | «return» | panic => cases hexit

/-- A call ends its block, and a new one is to be filled. -/
theorem lowerCall_eq_ok {args : List Value} (h : f.lowerCall r callee args B = (.ok (), B'))
    (hfix : f.fixed ≤ B.locals.length) :
    ∃ vars dest, (∀ l ∈ vars, l.type ≠ .untyped) ∧
      Place.extra f.fixed ⟨(dest : Nat), 0⟩ = List.range' B.locals.length vars.length ∧
      (∀ L, B.locals ++ vars <+: L → f.Receives L r dest) ∧
      B' = ⟨B.locals ++ vars, (B.blocks ++ [emptyBlock]).modify B.current fun blk =>
        { blk with terminator := f.callTo r callee args dest B.blocks.length }, B.blocks.length⟩ := by
  unfold lowerCall at h
  cases hsort : r.type.lower.sort with
  | ok sort =>
    rw [hsort] at h
    refine ⟨[], f.registerSlot r, by simp, Place.extra_of_lt (f.registerSlot_lt_fixed r) 0,
      fun L _ => .inl ⟨rfl, sort, hsort⟩, ?_⟩
    rw [List.append_nil]
    exact (Prod.mk.inj h).2.symm
  | error err =>
    rw [hsort] at h
    refine ⟨[⟨"", .integer⟩], B.locals.length, by simp [Ty.integer], Place.extra_of_le hfix 0,
      fun L hL => ?_, ?_⟩
    · exact .inr ⟨⟨err, hsort⟩, hfix, getElem?_of_extends (by simp) hL⟩
    · exact (Prod.mk.inj h).2.symm

/-! ## Writing copies for phi nodes -/

theorem takes_of_incomingValue {v : Value} (hb' : f.blocks[block]? = some b')
    (h : f.incomingValue pred block edges = .ok v) : b'.Takes pred edges v := by
  unfold incomingValue predIndex at h
  rw [hb'] at h
  cases hidx : b'.preds.findIdx? (· == pred) with
  | none =>
    simp only [hidx] at h
    cases h
  | some j =>
    simp only [hidx] at h
    obtain ⟨hlt, hpred, -⟩ := List.findIdx?_eq_some_iff_getElem.mp hidx
    cases hv : edges[j]? with
    | none =>
      rw [hv] at h
      cases h
    | some w =>
      rw [hv] at h
      refine ⟨j, ?_, hv.trans (congrArg some (Except.ok.inj h))⟩
      simpa [List.getElem?_eq_getElem hlt] using hpred

theorem incoming_eq_ok (h : f.incoming pred block phis = .ok values) :
    List.Forall₂ (fun phi rv => rv.1 = phi.1 ∧ f.incomingValue pred block phi.2 = .ok rv.2)
      phis values := by
  induction phis generalizing values with
  | nil =>
    cases h
    exact .nil
  | cons phi phis ih =>
    obtain ⟨r, edges⟩ := phi
    unfold incoming at h
    split at h
    · cases h
    · next v hv =>
      split at h
      · cases h
      · next more hmore =>
        cases h
        exact .cons ⟨rfl, hv⟩ (ih hmore)

/-- The values of the phi nodes of a block, as control comes from a predecessor, have operands. -/
def Checked (f : Function) (pred block : Nat) : Prop :=
  ∀ phi ∈ f.phisAt block, ∀ v, f.incomingValue pred block phi.2 = .ok v → ∃ x, f.operand v = .ok x

theorem checkPhis_eq_ok (h : f.checkPhis pred block phis B = (.ok (), B')) :
    B' = B ∧ ∀ phi ∈ phis, ∀ v, f.incomingValue pred block phi.2 = .ok v →
      ∃ x, f.operand v = .ok x := by
  induction phis with
  | nil =>
    cases h
    exact ⟨rfl, by simp⟩
  | cons phi phis ih =>
    obtain ⟨r, edges⟩ := phi
    obtain ⟨v, B₁, hlift, h₁⟩ := bind_eq_ok.mp h
    obtain ⟨hv, rfl⟩ := liftFault_eq_ok.mp hlift
    obtain ⟨x, hx, h₂⟩ := lift_bind_eq_ok.mp h₁
    obtain ⟨sort, -, h₃⟩ := lift_bind_eq_ok.mp h₂
    obtain ⟨hB, hrest⟩ := ih h₃
    refine ⟨hB, List.forall_mem_cons.mpr ⟨fun w hw => ?_, hrest⟩⟩
    rw [← Except.ok.inj (hv.symm.trans hw)]
    exact ⟨x, hx⟩

theorem checkSuccessors_eq_ok {succs : List Nat}
    (h : f.checkSuccessors pred succs B = (.ok (), B')) :
    B' = B ∧ ∀ s ∈ succs, f.Checked pred s := by
  induction succs generalizing B with
  | nil =>
    cases h
    exact ⟨rfl, by simp⟩
  | cons s succs ih =>
    obtain ⟨_, B₁, hcheck, h₁⟩ := bind_eq_ok.mp h
    obtain ⟨rfl, hs⟩ := checkPhis_eq_ok hcheck
    obtain ⟨hB, hrest⟩ := ih h₁
    exact ⟨hB, List.forall_mem_cons.mpr ⟨hs, hrest⟩⟩

/-- The registers with the numbers of their temporaries. -/
def numbered : Nat → List (Register × Value) → List (Register × Nat)
  | _, [] => []
  | t, (r, _) :: rest => (r, t) :: numbered (t + 1) rest

/-- The temporaries for registers. -/
def temporaries (values : List (Register × Value)) : List LocalVar :=
  values.map fun rv => ⟨"", rv.1.type.lower⟩

theorem copyIn_eq (hx : ∀ rv ∈ values, ∃ x, f.operand rv.2 = .ok x) (B : Builder) :
    ∃ loads, f.copyIn values B =
        (.ok (numbered B.locals.length values), B.wrote (temporaries values) loads) ∧
      ∀ L, B.locals ++ temporaries values <+: L → f.CopiesIn L B.locals.length values loads := by
  induction values generalizing B with
  | nil => exact ⟨[], by simp [copyIn, numbered, temporaries, wrote_nil], fun L _ => .nil⟩
  | cons rv values ih =>
    obtain ⟨r, v⟩ := rv
    rw [List.forall_mem_cons] at hx
    obtain ⟨⟨x, hx⟩, hrest⟩ := hx
    obtain ⟨loads, hloads, hin⟩ := ih hrest
      ((B.wrote [⟨"", r.type.lower⟩] []).wrote [] [.assign ⟨B.locals.length, 0⟩ (.use x) {}])
    have hlen : ((B.wrote [⟨"", r.type.lower⟩] []).wrote []
        [.assign ⟨B.locals.length, 0⟩ (.use x) {}]).locals.length = B.locals.length + 1 := by
      simp [wrote]
    rw [hlen] at hloads hin
    refine ⟨.assign ⟨B.locals.length, 0⟩ (.use x) {} :: loads, ?_, fun L hL => ?_⟩
    · rw [copyIn, bind_apply, newLocal_eq]
      simp only [hx, bind_apply, emit_eq, hloads, pure_apply, numbered]
      simp [wrote_wrote, temporaries]
    · have hL' : (B.locals ++ [⟨"", r.type.lower⟩]) ++ temporaries values <+: L := by
        simpa [temporaries] using hL
      refine .cons hx (getElem?_of_extends (by simp) ((List.prefix_append _ _).trans hL')) (hin L ?_)
      simpa [wrote] using hL'

theorem copyOut_eq (values : List (Register × Value)) (t : Nat) (B : Builder) :
    f.copyOut (numbered t values) B = (.ok (), B.wrote [] (f.copiesOut t values)) := by
  induction values generalizing t B with
  | nil => simp [copyOut, numbered, copiesOut, wrote_nil]
  | cons rv values ih =>
    obtain ⟨r, v⟩ := rv
    rw [numbered, copyOut, bind_apply, emit_eq]
    simp only [ih]
    simp [wrote_wrote, copiesOut]

theorem exists_of_forall₂ {β : Type} {R : α → β → Prop} {l : List α} {l' : List β}
    (h : List.Forall₂ R l l') : ∀ b ∈ l', ∃ a ∈ l, R a b := by
  induction h with
  | nil => nofun
  | cons hab _ ih =>
    intro b hb
    rcases List.mem_cons.mp hb with rfl | hb
    · exact ⟨_, List.mem_cons_self, hab⟩
    · obtain ⟨a, ha, hr⟩ := ih b hb
      exact ⟨a, .tail _ ha, hr⟩

theorem mem_incoming (h : f.incoming pred block phis = .ok values) {rv : Register × Value}
    (hrv : rv ∈ values) :
    ∃ edges, (rv.1, edges) ∈ phis ∧ f.incomingValue pred block edges = .ok rv.2 := by
  obtain ⟨phi, hphi, heq, hin⟩ := exists_of_forall₂ (incoming_eq_ok h) rv hrv
  exact ⟨phi.2, heq ▸ hphi, hin⟩

theorem exists_incoming (h : f.incoming pred block phis = .ok values) {phi : Register × List Value}
    (hphi : phi ∈ phis) : ∃ v, (phi.1, v) ∈ values ∧ f.incomingValue pred block phi.2 = .ok v := by
  obtain ⟨rv, hrv, heq, hin⟩ := exists_of_forall₂ (incoming_eq_ok h).flip phi hphi
  exact ⟨rv.2, heq ▸ hrv, hin⟩

theorem mem_of_mem_phisOf (h : (r, edges) ∈ phisOf instrs) : .phi r edges ∈ instrs := by
  fun_induction phisOf instrs with
  | case1 r' edges' rest ih =>
    rcases List.mem_cons.mp h with heq | h
    · cases heq
      exact List.mem_cons_self
    · exact .tail _ (ih h)
  | case2 rest ih => exact .tail _ (ih h)
  | case3 => cases h

theorem phisAt_eq {s : Nat} (hb' : f.blocks[s]? = some b') : f.phisAt s = b'.phis := by
  simp [phisAt, hb']

section
variable {pred block : Nat} {b' : Block} {values : List (Register × Value)} {rv : Register × Value}
  (hb' : f.blocks[block]? = some b') (h : f.incoming pred block b'.phis = .ok values) (hrv : rv ∈ values)
include hb' h hrv

/-- The incoming values are those that the phi nodes of the block take. -/
theorem takes_of_mem_incoming : ∃ edges, .phi rv.1 edges ∈ b'.instrs ∧ b'.Takes pred edges rv.2 := by
  obtain ⟨edges, hedges, hin⟩ := mem_incoming h hrv
  exact ⟨edges, mem_of_mem_phisOf hedges, takes_of_incomingValue hb' hin⟩

theorem mem_registers_of_incoming : rv.1 ∈ f.registers := by
  obtain ⟨edges, hphi, -⟩ := takes_of_mem_incoming hb' h hrv
  exact mem_registers (List.mem_of_getElem? hb') hphi rfl

end

theorem operands_eq_ok {xs : List Operand} (h : f.operands vs = .ok xs) :
    List.Forall₂ (fun v x => f.operand v = .ok x) vs xs := by
  induction vs generalizing xs with
  | nil =>
    cases h
    exact .nil
  | cons v vs ih =>
    unfold operands at h
    split at h
    · cases h
    · next x hx =>
      split at h
      · cases h
      · next xs' hxs =>
        cases h
        exact .cons hx (ih hxs)

/-- A call passes operands of its arguments. -/
theorem mem_callParts {x : Operand} (hx : x ∈ (f.callParts callee vs).2) :
    ∃ v ∈ vs, f.operand v = .ok x := by
  unfold callParts at hx
  split at hx
  · cases hx
  · next xs hxs =>
    refine exists_of_forall₂ (operands_eq_ok hxs) x ?_
    split at hx <;> exact hx

theorem callTo_fits {args : List Value} {dest next n m : Nat} (hdest : dest < n)
    (hfix : f.fixed ≤ n) (hnext : next < m) : (f.callTo r callee args dest next).Fits n m := by
  refine ⟨?_, List.forall_mem_singleton.mpr (below_natCast hnext), nofun⟩
  refine List.forall_mem_append.mpr ⟨fun p hp => ?_,
    List.forall_mem_singleton.mpr (below_natCast hdest)⟩
  obtain ⟨x, hx, hp⟩ := List.mem_flatMap.mp hp
  obtain ⟨v, -, hv⟩ := mem_callParts hx
  exact (below_of_operand hv p hp).mono hfix

theorem CopiesIn.taken_eq_nil {L : List LocalVar} {t : Nat} {sts : List Statement}
    (h : f.CopiesIn L t values sts) : sts.flatMap (Statement.taken f.fixed) = [] := by
  induction h with
  | nil => rfl
  | cons hx _ _ ih => rw [List.flatMap_cons, taken_use hx, ih, List.nil_append]

theorem taken_copiesOut (f : Function) {t : Nat} (ht : f.fixed ≤ t) :
    (f.copiesOut t values).flatMap (Statement.taken f.fixed) = List.range' t values.length := by
  induction values generalizing t with
  | nil => rfl
  | cons rv values ih =>
    rw [copiesOut, List.flatMap_cons, ih (Nat.le_succ_of_le ht), List.length_cons, List.range'_succ]
    simp [Statement.taken, Place.extra_of_le ht]

theorem Joins.below {L : List LocalVar} {sts : List Statement} (h : f.Joins L pred block sts)
    (hfix : f.fixed ≤ L.length) : ∀ st ∈ sts, ∀ i ∈ st.locals, Below L.length i := by
  obtain ⟨values, t, loads, -, -, hloads, rfl⟩ := h
  induction hloads with
  | nil => simp [copiesOut]
  | @cons t r v x rest sts hx hl _ ih =>
    have hreg := below_natCast ((f.registerSlot_lt_fixed r).trans_le hfix)
    have htemp := below_natCast (lt_length_of_getElem? hl)
    rw [List.forall_mem_append] at ih
    simp only [copiesOut, List.cons_append, List.forall_mem_cons, List.forall_mem_append]
    refine ⟨?_, ih.1, ?_, ih.2⟩
    · simpa [Statement.locals, Statement.places, Rvalue.places, htemp] using
        fun p hp => (below_of_operand hx p hp).mono hfix
    · simp [Statement.locals, Statement.places, Rvalue.places, Operand.places, hreg, htemp]

theorem typed_temporaries (values : List (Register × Value)) :
    ∀ l ∈ temporaries values, l.type ≠ .untyped := by
  intro l hl
  obtain ⟨rv, -, rfl⟩ := List.mem_map.mp hl
  exact lower_ne_untyped rv.1.type

theorem copyPhis_eq_ok (h : f.copyPhis pred block B = (.ok (), B'))
    (hchecked : f.Checked pred block) (hfix : f.fixed ≤ B.locals.length) :
    ∃ vars sts, B' = B.wrote vars sts ∧ Brings f.fixed B.locals.length vars sts ∧
      ∀ L, B.locals ++ vars <+: L → f.Joins L pred block sts := by
  obtain ⟨j, B₁, hpred, h₁⟩ := bind_eq_ok.mp h
  obtain ⟨-, rfl⟩ := liftFault_eq_ok.mp hpred
  obtain ⟨values, B₂, hlift, h₂⟩ := bind_eq_ok.mp h₁
  obtain ⟨hvalues, rfl⟩ := liftFault_eq_ok.mp hlift
  have hx : ∀ rv ∈ values, ∃ x, f.operand rv.2 = .ok x := by
    intro rv hrv
    obtain ⟨edges, hmem, hv⟩ := mem_incoming hvalues hrv
    exact hchecked _ hmem _ hv
  obtain ⟨loads, hloads, hin⟩ := copyIn_eq hx B₂
  rw [bind_apply, hloads] at h₂
  simp only [copyOut_eq, wrote_wrote, List.append_nil] at h₂
  refine ⟨temporaries values, _, (Prod.mk.inj h₂).2.symm, ⟨typed_temporaries values, ?_⟩,
    fun L hL => ⟨values, _, loads, hvalues, hfix, hin L hL, rfl⟩⟩
  rw [List.flatMap_append, (hin _ List.prefix_rfl).taken_eq_nil, f.taken_copiesOut hfix, temporaries,
    List.length_map]
  rfl

theorem modify_snoc (xs : List α) (x : α) (g : α → α) :
    (xs ++ [x]).modify xs.length g = xs ++ [g x] := by
  induction xs with
  | nil => rfl
  | cons y xs ih => simpa [List.modify_succ_cons] using ih

/-- The block for an edge of a branch, which may be a new one. -/
theorem edgeTarget_eq_ok {target i : Nat} (h : f.edgeTarget pred b i B = (.ok target, B'))
    (hi : b.succs[i]? = some block) (hsuccs : b.succs.length ≠ 1) (hchecked : f.Checked pred block)
    (hs : block < f.blocks.length) (hfix : f.fixed ≤ B.locals.length)
    (hlen : f.blocks.length ≤ B.blocks.length) :
    Grows f.fixed B B' ∧ B'.current = B.current ∧ B.blocks <+: B'.blocks ∧
      ∀ L K, B'.locals <+: L →
        (∀ j blk, B.blocks.length ≤ j → B'.blocks[j]? = some blk → K[j]? = some blk) →
        f.Leads L K pred block target := by
  unfold edgeTarget at h
  simp only [hi] at h
  by_cases hphis : f.phisAt block = []
  · rw [if_pos (by simp [hphis])] at h
    cases h
    exact ⟨.refl, rfl, List.prefix_rfl, fun L K _ _ => .inl ⟨rfl, hphis⟩⟩
  · rw [if_neg (by simp [hphis, hsuccs])] at h
    obtain ⟨_, B₁, hcopy, hrest⟩ := bind_eq_ok.mp
      (show (f.copyPhis pred block >>= fun _ => terminate (.goto block) >>= fun _ =>
        moveTo B.current >>= fun _ => Pure.pure B.blocks.length)
        ⟨B.locals, B.blocks ++ [emptyBlock], B.blocks.length⟩ = (.ok target, B') from h)
    obtain ⟨vars, sts, rfl, hbrings, hjoins⟩ := copyPhis_eq_ok hcopy hchecked hfix
    have hgoto : Terminator.Fits (B.locals.length + vars.length) (B.blocks.length + 1) (.goto block) :=
      .goto (by omega)
    obtain rfl : B.extended vars [⟨sts, .goto block⟩] = B' := by
      refine Eq.trans ?_ (Prod.mk.inj hrest).2
      simp only [wrote, emptyBlock, modify_snoc, List.nil_append, extended]
    refine ⟨.extended (.extended _ hbrings.typed ?_ ?_) (by simp), rfl, List.prefix_append _ _,
      fun L K hL hK => ?_⟩
    · have hbelow := (hjoins _ List.prefix_rfl).below (by simp; omega)
      rw [List.length_append] at hbelow
      exact List.forall_mem_singleton.mpr ⟨hbelow, hgoto⟩
    · simpa [Block.taken, Terminator.taken] using hbrings.taken
    · obtain rfl := (Except.ok.inj (Prod.mk.inj hrest).1).symm
      exact .inr ⟨sts, hlen, hK _ _ (Nat.le_refl _) (by simp [extended]), hjoins L hL⟩

/-! ## Writing blocks -/

theorem emitPhiCopies_eq_ok (h : f.emitPhiCopies pred b B = (.ok (), B')) :
    (∀ s ∈ b.succs, f.Checked pred s) ∧
      ((∃ s, b.succs = [s] ∧ f.copyPhis pred s B = (.ok (), B')) ∨ (b.succs.length ≠ 1 ∧ B' = B)) := by
  obtain ⟨_, B₁, hcheck, h₁⟩ := bind_eq_ok.mp h
  obtain ⟨rfl, hchecked⟩ := checkSuccessors_eq_ok hcheck
  refine ⟨hchecked, ?_⟩
  match hs : b.succs with
  | [s] =>
    rw [hs] at h₁
    exact .inl ⟨s, rfl, h₁⟩
  | [] | _ :: _ :: _ =>
    rw [hs] at h₁
    exact .inr ⟨by simp, (pure_eq_ok.mp h₁).2⟩

/-- Locals and blocks which have those that code written so far refers to. -/
structure Retains (f : Function) (B : Builder) (L : List LocalVar) (K : List NullPath.Block) :
    Prop where
  locals : B.locals <+: L
  blocks : ∀ j blk, f.blocks.length ≤ j → B.blocks[j]? = some blk → K[j]? = some blk

/-- The block that is being written gets the code of the instruction that leaves it, and ends. -/
def Finishes (f : Function) (index : Nat) (b : Block) (i : Instr) (pre : List Statement)
    (B B' : Builder) : Prop :=
  Grows f.fixed B B' ∧ B'.current = B.current ∧
    ∃ sts t, B'.blocks[B.current]? = some ⟨pre ++ sts, t⟩ ∧
      ∀ L K, f.Retains B' L K → f.Codes L K index b [i] sts t

section
variable (hinside : ∀ s ∈ b.succs, s < f.blocks.length) (hpre : B.Holds pre)
  (hfix : f.fixed ≤ B.locals.length) (hlen : f.blocks.length ≤ B.blocks.length)
include hinside hpre hfix hlen

theorem lowerInstr_branch {c : Value} {s s' : Nat} (hs : b.succs = [s, s'])
    (h : f.lowerInstr index b (.branch c) B = (.ok (), B')) :
    f.Finishes index b (.branch c) pre B B' := by
  rw [hs, List.forall_mem_cons, List.forall_mem_singleton] at hinside
  obtain ⟨x, hx, h₁⟩ := lift_bind_eq_ok.mp h
  obtain ⟨_, B₁, hphis, h₂⟩ := bind_eq_ok.mp h₁
  obtain ⟨hchecked, ⟨_, hone, -⟩ | ⟨hne, rfl⟩⟩ := emitPhiCopies_eq_ok hphis
  · rw [hs] at hone
    cases hone
  obtain ⟨otherwise, B₂, hedge₁, h₃⟩ := bind_eq_ok.mp h₂
  obtain ⟨hgrows₁, hcurrent₁, hblocks₁, hother⟩ := edgeTarget_eq_ok hedge₁
    (show b.succs[1]? = some s' by simp [hs]) hne (hchecked s' (by simp [hs])) hinside.2 hfix hlen
  have hfix₁ := hfix.trans hgrows₁.locals.length_le
  have hlen₁ := hlen.trans hgrows₁.length
  obtain ⟨taken, B₃, hedge₀, h₄⟩ := bind_eq_ok.mp h₃
  obtain ⟨hgrows₂, hcurrent₂, hblocks₂, htaken⟩ := edgeTarget_eq_ok hedge₀
    (show b.succs[0]? = some s by simp [hs]) hne (hchecked s (by simp [hs])) hinside.1 hfix₁ hlen₁
  obtain rfl : B₃.ended (.switch x [0] [otherwise, taken] {}) = B' := (Prod.mk.inj h₄).2
  have hcurrent := hcurrent₂.trans hcurrent₁
  have hpre' := hpre.of_prefix (hblocks₁.trans hblocks₂) hcurrent
  have hend := hpre'.ended (.switch x [0] [otherwise, taken] {})
  -- ending the block does not touch those that the edges lead to
  have hkeep : ∀ j blk, B₁.blocks.length ≤ j → B₃.blocks[j]? = some blk →
      (B₃.ended (.switch x [0] [otherwise, taken] {})).blocks[j]? = some blk := by
    intro j blk hj hblk
    rw [Builder.ended, List.getElem?_modify_ne, hblk]
    exact (hcurrent.trans_lt (hpre.lt.trans_le hj)).ne
  have hold : ∀ j blk, B₂.blocks[j]? = some blk → B₃.blocks[j]? = some blk :=
    fun j blk hblk => getElem?_of_extends hblk hblocks₂
  have hgrows := hgrows₁.trans hgrows₂
  have hlen₂ := hlen.trans hgrows.length
  have htargets := List.forall_mem_cons.mpr
    ⟨below_natCast ((hother _ _ List.prefix_rfl fun j blk _ => hold j blk).lt hinside.2 hlen₂),
      List.forall_mem_singleton.mpr (below_natCast
        ((htaken _ _ List.prefix_rfl fun _ _ _ hblk => hblk).lt hinside.1 hlen₂))⟩
  rw [← List.append_nil pre, hcurrent] at hend
  refine ⟨hgrows.trans (.ended hpre' ⟨fun p hp => ?_, htargets, ?_⟩ rfl), hcurrent, [], _, hend,
    fun L K hretains => .branch hs hx ?_ ?_⟩
  · exact (below_of_operand hx p hp).mono (hfix.trans hgrows.locals.length_le)
  · rintro _ _ _ _ ⟨⟩
    rfl
  · refine htaken L K hretains.locals fun j blk hj hblk => ?_
    exact hretains.blocks j blk (hlen₁.trans hj) (hkeep j blk (hgrows₁.length.trans hj) hblk)
  · refine hother L K (hgrows₂.locals.trans hretains.locals) fun j blk hj hblk => ?_
    exact hretains.blocks j blk (hlen.trans hj) (hkeep j blk hj (hold j blk hblk))

theorem lowerInstr_jump {s : Nat} (hs : b.succs = [s])
    (h : f.lowerInstr index b .jump B = (.ok (), B')) : f.Finishes index b .jump pre B B' := by
  obtain ⟨_, B₁, hphis, h₁⟩ := bind_eq_ok.mp h
  obtain ⟨hchecked, ⟨s₁, hone, hcopy⟩ | ⟨hne, -⟩⟩ := emitPhiCopies_eq_ok hphis
  · obtain rfl : s = s₁ := by simpa [hs] using hone
    obtain ⟨vars, sts, rfl, hbrings, hjoins⟩ :=
      copyPhis_eq_ok hcopy (hchecked s (by simp [hs])) hfix
    have hrun : terminate (.goto s) (B.wrote vars sts) = (.ok (), B') := by
      simpa [edgeTarget, hs, bind_apply] using h₁
    obtain rfl := (Prod.mk.inj hrun).2
    have hbelow := (hjoins _ List.prefix_rfl).below (by simp; omega)
    rw [List.length_append] at hbelow
    have hgrows := Grows.wrote hpre hbrings hbelow
    have hs' := (hinside s (by simp [hs])).trans_le (hlen.trans hgrows.length)
    exact ⟨hgrows.trans (.ended (hpre.wrote vars sts) (.goto hs') rfl), rfl, sts, _,
      (hpre.wrote vars sts).ended _, fun L K hretains => .jump hs (hjoins L hretains.locals)⟩
  · simp [hs] at hne

/-- What is written for an instruction that leaves its block. -/
theorem lowerInstr_exit (h : f.lowerInstr index b i B = (.ok (), B')) (hexit : Leaves b i) :
    f.Finishes index b i pre B B' := by
  cases i with
  | branch c =>
    obtain ⟨s, s', hs⟩ := List.length_eq_two.mp hexit
    exact lowerInstr_branch hinside hpre hfix hlen hs h
  | jump =>
    obtain ⟨s, hs⟩ := List.length_eq_one_iff.mp hexit
    exact lowerInstr_jump hinside hpre hfix hlen hs h
  | «return» results span =>
    match results with
    | [v] =>
      obtain ⟨x, hx, h₁⟩ := lift_bind_eq_ok.mp h
      have hrun := emit_bind_eq_ok.mp h₁
      obtain rfl : (B.wrote [] [.assign ⟨0, 0⟩ (.use x) span]).ended .return = B' :=
        (Prod.mk.inj hrun).2
      have hgrows : Grows f.fixed B (B.wrote [] [.assign ⟨0, 0⟩ (.use x) span]) := by
        refine .wrote hpre ⟨by simp, by simp [taken_use hx]⟩ ?_
        have hzero : Below B.locals.length 0 := below_natCast (Nat.lt_of_lt_of_le (Nat.succ_pos _) hfix)
        simpa [Statement.locals, Statement.places, Rvalue.places, hzero] using
          fun p hp => (below_of_operand hx p hp).mono hfix
      exact ⟨hgrows.trans (.ended (hpre.wrote [] _) ⟨nofun, nofun, nofun⟩ rfl), rfl, _, _,
        (hpre.wrote [] _).ended _, fun _ _ _ => .result hx⟩
    | [] | _ :: _ :: _ =>
      obtain rfl : B.ended .return = B' := (Prod.mk.inj h).2
      exact ⟨.ended hpre ⟨nofun, nofun, nofun⟩ rfl, rfl, [], _, by simpa using hpre.ended _,
        fun _ _ _ => .results (by simp)⟩
  | panic span =>
    obtain rfl : B.ended .unreachable = B' := (Prod.mk.inj h).2
    exact ⟨.ended hpre ⟨nofun, nofun, nofun⟩ rfl, rfl, [], _, by simpa using hpre.ended _,
      fun _ _ _ => .panic⟩
  | debug | runDefers | phi | alloc | binary | unary | convert | changeType | slice | call | store
  | send => exact hexit.elim

end

/-- The instructions of a block are written as code, from the block that is being filled on. -/
theorem lowerInstrs_codes (h : f.lowerInstrs index b instrs B = (.ok (), B'))
    (hends : Ends b instrs) (hinside : ∀ s ∈ b.succs, s < f.blocks.length) (hpre : B.Holds pre)
    (hfix : f.fixed ≤ B.locals.length) (hlen : f.blocks.length ≤ B.blocks.length) :
    Grows f.fixed B B' ∧ ¬B'.Open B'.current ∧
      ∃ sts t, B'.blocks[B.current]? = some ⟨pre ++ sts, t⟩ ∧
        ∀ L K, f.Retains B' L K → f.Codes L K index b instrs sts t := by
  induction instrs generalizing B pre with
  | nil => exact (not_ends_nil hends).elim
  | cons i rest ih =>
    obtain ⟨_, B₁, hwithin, hrest⟩ := bind_eq_ok.mp h
    have hi := within_eq_ok.mp hwithin
    cases hexit : i.isExit with
    | true =>
      obtain ⟨rfl, hleaves⟩ := hends.eq_nil hexit
      cases hrest
      obtain ⟨hgrows, hcurrent, sts, t, hblk, hcodes⟩ :=
        lowerInstr_exit hinside hpre hfix hlen hi hleaves
      refine ⟨hgrows, ?_, sts, t, hblk, hcodes⟩
      rintro ⟨sts', hopen⟩
      rw [hcurrent, hblk] at hopen
      cases hopen
      exact (hcodes _ _ ⟨List.prefix_rfl, fun _ _ _ => id⟩).ne_missing rfl
    | false =>
      have hends' := hends.tail hexit
      by_cases hcall : ∃ r callee args, i = .call r callee args
      · obtain ⟨r, callee, args, rfl⟩ := hcall
        obtain ⟨vars, dest, hvars, htaken, hdest, rfl⟩ := lowerCall_eq_ok hi hfix
        have hlt := hpre.lt
        -- the rest goes to the new block, and the call ends the old one
        have hheld : (B.extended vars [emptyBlock]).Holds _ :=
          hpre.of_prefix (List.prefix_append _ _) rfl
        have hfirst := hheld.ended (f.callTo r callee args dest B.blocks.length)
        have hcall : (f.callTo r callee args dest B.blocks.length).Fits
            (B.locals.length + vars.length) (B.blocks.length + 1) :=
          callTo_fits (List.length_append ▸ (hdest _ List.prefix_rfl).lt (by simp; omega))
            (by omega) (Nat.lt_succ_self _)
        have hgrows := Grows.call hpre hvars hcall htaken
        have hnew : Builder.Holds ⟨B.locals ++ vars, (B.blocks ++ [emptyBlock]).modify B.current
            fun blk => { blk with terminator := f.callTo r callee args dest B.blocks.length },
            B.blocks.length⟩ [] := by simp [Holds, emptyBlock, hlt.ne]
        obtain ⟨hgrows', hopen, sts, t, hblk, hcodes⟩ := ih hrest hends' hnew (by simp; omega)
          (by simp; omega)
        refine ⟨hgrows.trans hgrows', hopen, [], _, ?_, fun L K hretains =>
          .call (hdest L (hgrows'.locals.trans hretains.locals)) hlen
            (hretains.blocks _ _ hlen (by simpa using hblk)) (hcodes L K hretains)⟩
        rw [hgrows'.others B.current (by simp; omega) hlt.ne, List.append_nil]
        exact hfirst
      · obtain ⟨vars, out, rfl, hbrings, hemits⟩ := lowerInstr_emits hi hexit
          (fun r callee args heq => hcall ⟨r, callee, args, heq⟩) hfix
        obtain ⟨hgrows, hopen, sts, t, hblk, hcodes⟩ := ih hrest hends' (hpre.wrote vars out)
          (by simp [wrote]; omega) (by simpa [wrote] using hlen)
        have hbelow := (hemits _ List.prefix_rfl).below (by simp; omega)
        rw [List.length_append] at hbelow
        refine ⟨(Grows.wrote hpre hbrings hbelow).trans hgrows, hopen, out ++ sts, t, ?_,
          fun L K hretains =>
            .emit (hemits L (hgrows.locals.trans hretains.locals)) (hcodes L K hretains)⟩
        rw [← List.append_assoc]
        exact hblk

/-- Writing blocks in order gives every block its code. -/
theorem lowerBlocks_codes {bs : List Block} (h : f.lowerBlocks index bs B = (.ok (), B'))
    (hends : ∀ b ∈ bs, Ends b b.instrs) (hinside : ∀ b ∈ bs, ∀ s ∈ b.succs, s < f.blocks.length)
    (hfix : f.fixed ≤ B.locals.length) (hlen : f.blocks.length ≤ B.blocks.length)
    (hend : index + bs.length = f.blocks.length)
    (hempty : ∀ j, index ≤ j → j < f.blocks.length → B.blocks[j]? = some emptyBlock) :
    Extends f.fixed B B' ∧
      (∀ j, j < B.blocks.length → j < index ∨ f.blocks.length ≤ j →
        B'.blocks[j]? = B.blocks[j]?) ∧
      (∀ j, B'.Open j → B.Open j ∧ (j < index ∨ f.blocks.length ≤ j)) ∧
      ∀ j b, bs[j]? = some b → ∃ sts t, B'.blocks[index + j]? = some ⟨sts, t⟩ ∧
        f.Codes B'.locals B'.blocks (index + j) b b.instrs sts t := by
  induction bs generalizing B index with
  | nil =>
    cases h
    exact ⟨.refl, fun _ _ _ => rfl, fun j hj => ⟨hj, by simp at hend; omega⟩, by simp⟩
  | cons b bs ih =>
    obtain ⟨_, B₁, hmove, h₁⟩ := bind_eq_ok.mp h
    obtain rfl := (Prod.mk.inj hmove).2
    obtain ⟨_, B₂, hinstrs, hrest⟩ := bind_eq_ok.mp h₁
    rw [List.forall_mem_cons] at hends hinside
    rw [List.length_cons] at hend
    have hstart : Builder.Holds { B with current := index } [] :=
      hempty index (Nat.le_refl _) (by omega)
    obtain ⟨hgrows, hclosed, sts, t, hblk, hcodes⟩ :=
      lowerInstrs_codes hinstrs hends.1 hinside.1 hstart hfix hlen
    have hextends : Extends f.fixed B B₂ := { hgrows.toExtends with }
    have hgrowlen := hextends.length
    obtain ⟨hextends', hothers, hopened, hall⟩ := ih hrest hends.2 hinside.2
      (hfix.trans hgrows.locals.length_le) (hlen.trans hgrows.length) (by omega)
      fun j hj hj' => by
        rw [hgrows.others j (hj'.trans_le hlen) (Nat.ne_of_gt hj)]
        exact hempty j (by omega) hj'
    refine ⟨hextends.trans hextends', ?_, ?_, ?_⟩
    · intro j hj hout
      rw [hothers j (hj.trans_le hgrowlen) (by omega)]
      exact hgrows.others j hj (by change j ≠ index; omega)
    · intro j hj
      obtain ⟨hj, hout⟩ := hopened j hj
      rcases hgrows.opened j hj with rfl | ⟨hopen, hne⟩
      · exact absurd hj hclosed
      · have hne : j ≠ index := hne
        exact ⟨hopen, by omega⟩
    · intro j b' hj
      cases j with
      | zero =>
        cases hj
        refine ⟨sts, t, ?_, hcodes _ _ ⟨hextends'.locals, fun j blk hj hblk' => ?_⟩⟩
        · have hlt := lt_length_of_getElem? hblk
          rw [Nat.add_zero, hothers index hlt (by omega)]
          exact hblk
        · rw [hothers j (lt_length_of_getElem? hblk') (.inr hj)]
          exact hblk'
      | succ j =>
        have hcode := hall j b' hj
        rwa [Nat.add_right_comm, Nat.add_assoc] at hcode

theorem typed_builder (f : Function) : ∀ l ∈ f.builder.locals, l.type ≠ .untyped := by
  intro l hl
  rw [builder, List.cons_append, List.mem_cons, List.mem_append] at hl
  rcases hl with rfl | hl | hl
  · show f.resultType ≠ .untyped
    unfold resultType
    split
    · exact lower_ne_untyped _
    · simp
  · obtain ⟨p, -, rfl⟩ := List.mem_map.mp hl
    exact lower_ne_untyped p.type
  · obtain ⟨r, -, rfl⟩ := List.mem_map.mp hl
    exact lower_ne_untyped r.type

/-- The first locals of a function are those of the result, the parameters and the registers, and
every block has the code of its instructions.  Each of the other locals is taken once. -/
structure Coded (f : Function) (g : NullPath.Function) : Prop where
  name : g.name = f.name
  argCount : g.argCount = f.params.length
  locals : f.builder.locals <+: g.locals
  typed : ∀ l ∈ g.locals, l.type ≠ .untyped
  nonempty : f.blocks ≠ []
  blocks : ∀ k b, f.blocks[k]? = some b → ∃ sts t, g.blocks[k]? = some ⟨sts, t⟩ ∧
    f.Codes g.locals g.blocks k b b.instrs sts t
  ended : ∀ blk ∈ g.blocks, blk.terminator ≠ .missing
  fits : ∀ blk ∈ g.blocks, blk.Fits g.locals.length g.blocks.length
  taken : (g.blocks.flatMap (Block.taken f.fixed)).Perm
    (List.range' f.fixed (g.locals.length - f.fixed))

theorem coded_of_lower {g : NullPath.Function} (h : f.lower = .ok g)
    (hends : ∀ b ∈ f.blocks, Ends b b.instrs)
    (hinside : ∀ b ∈ f.blocks, ∀ s ∈ b.succs, s < f.blocks.length) : f.Coded g := by
  unfold lower at h
  split at h
  · cases h
  · split at h
    · cases h
    · next hne =>
      split at h
      · cases h
      · next B hrun =>
        cases h
        obtain ⟨hextends, -, hopened, hall⟩ := lowerBlocks_codes hrun hends hinside
          (Nat.le_of_eq (length_locals_builder f).symm) (by simp [builder]) (Nat.zero_add _)
          fun j _ hj => by simp [builder, hj]
        have hempty : ∀ blk ∈ f.builder.blocks, blk = emptyBlock := by simp [builder]
        refine ⟨rfl, rfl, hextends.locals, hextends.typed (typed_builder f), by simpa using hne,
          by simpa using hall, fun blk hblk hmissing => ?_, hextends.fits fun blk hblk => ?_, ?_⟩
        · obtain ⟨j, hj⟩ := List.mem_iff_getElem?.mp hblk
          obtain ⟨sts, t⟩ := blk
          obtain rfl := hmissing
          obtain ⟨⟨sts', hj'⟩, hout⟩ := hopened j ⟨sts, hj⟩
          have hlt := lt_length_of_getElem? hj'
          rw [builder, List.length_map] at hlt
          omega
        · rw [hempty blk hblk]
          refine ⟨List.forall_mem_nil _, List.forall_mem_nil _, List.forall_mem_nil _, ?_⟩
          rintro _ _ _ _ ⟨⟩
        · have hnone : f.builder.taken f.fixed = [] :=
            List.flatMap_eq_nil_iff.mpr fun blk hblk => by rw [hempty blk hblk]; rfl
          have htaken := hextends.taken
          rwa [hnone, length_locals_builder] at htaken

/-- The control-flow graph of a function that has one. -/
def code (f : Function) : NullPath.Function :=
  f.lower.toOption.getD ⟨"", {}, [], 0, []⟩

end Function

end Ssa
end NullPath
