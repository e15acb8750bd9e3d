import Mathlib.Logic.Embedding.Basic
import NullPath.Explore.Step
import NullPath.Proofs.Growth

/-!
# Renaming names

A renaming gives every name another one, and different names different ones.  Terms and memories
are renamed part by part.  Everything that builds a term or changes a memory does the same before
and after a renaming: the constructors look at literals and sorts, which a renaming keeps, and
where they compare two terms they only ask whether these are equal.

* `Expr.rename`, `Memory.Renamed`: the renamed term and the renamed memory.
* `Expr.rename_mkEq`, `Expr.rename_mkArith`, …: the constructors of terms.
* `SourceBinOp.term_rename`, `Ty.castTerm_rename`, …: the operations of source code.
* `Memory.Renamed.set`, `Memory.Renamed.giveAddress`, …: the changes of a memory.
-/

namespace NullPath

/-! ## Renaming tables of names -/

/-- The renaming sends the names behind one table to the names behind another one, in order. -/
def Shifts (ρ : Name ↪ Name) (l a : Nat) : Prop :=
  ∀ k, ρ ⟨l + k⟩ = ⟨a + k⟩

namespace Shifts

variable {ρ : Name ↪ Name} {l a b : Nat} {n : Name}

theorem apply (h : Shifts ρ l a) (hn : l ≤ n.index) : ρ n = ⟨a + (n.index - l)⟩ := by
  have hnext := h (n.index - l)
  rwa [Nat.add_sub_cancel' hn] at hnext

/-- A name is in the one table exactly if its new name is in the other one. -/
theorem index_lt_iff (h : Shifts ρ l a) : (ρ n).index < a ↔ n.index < l := by
  constructor
  · intro hlt
    by_contra hn
    rw [h.apply (Nat.le_of_not_lt hn)] at hlt
    exact absurd hlt (Nat.not_lt.mpr (Nat.le_add_right _ _))
  · intro hlt
    by_contra hn
    have hback := h ((ρ n).index - a)
    rw [Nat.add_sub_cancel' (Nat.le_of_not_lt hn)] at hback
    have heq : l + ((ρ n).index - a) = n.index := congrArg Name.index (ρ.injective hback)
    omega

/-- A longer second table makes room for the names behind it. -/
theorem exists_extension (h : Shifts ρ l a) (hab : a ≤ b) :
    ∃ σ : Name ↪ Name, (∀ n, n.index < l → σ n = ρ n) ∧ Shifts σ l b := by
  let σ : Name → Name := fun n => if n.index < l then ρ n else ⟨b + (n.index - l)⟩
  have hold : ∀ n, n.index < l → σ n = ρ n := fun n hn => if_pos hn
  have hnew : ∀ n, ¬ n.index < l → σ n = ⟨b + (n.index - l)⟩ := fun n hn => if_neg hn
  have hapart : ∀ n n', n.index < l → ¬ n'.index < l → σ n ≠ σ n' := by
    intro n n' hn hn' heq
    rw [hold n hn, hnew n' hn'] at heq
    have hlt : (ρ n).index < a := h.index_lt_iff.mpr hn
    rw [heq] at hlt
    exact absurd hlt (by simp only [not_lt]; omega)
  refine ⟨⟨σ, fun n n' heq => ?_⟩, hold, fun k => ?_⟩
  · by_cases hn : n.index < l <;> by_cases hn' : n'.index < l
    · rw [hold n hn, hold n' hn'] at heq
      exact ρ.injective heq
    · exact absurd heq (hapart n n' hn hn')
    · exact absurd heq.symm (hapart n' n hn' hn)
    · rw [hnew n hn, hnew n' hn', Name.mk.injEq] at heq
      exact Name.ext (by omega)
  · exact (hnew ⟨l + k⟩ (by simp)).trans (by simp)

end Shifts

/-! ## Terms -/

namespace Expr

/-- The term with all its names renamed.  The sorts with which names are used stay. -/
@[simp] def rename (ρ : Name ↪ Name) : Expr → Expr
  | .const c => .const c
  | .name n s => .name (ρ n) s
  | .not e => .not (e.rename ρ)
  | .neg e => .neg (e.rename ρ)
  | .ite c t e => .ite (c.rename ρ) (t.rename ρ) (e.rename ρ)
  | .binary op l r => .binary op (l.rename ρ) (r.rename ρ)

variable {ρ : Name ↪ Name}

@[simp] theorem rename_int (v : Int) : (int v).rename ρ = int v := rfl

@[simp] theorem rename_bool (b : Bool) : (bool b).rename ρ = bool b := rfl

@[simp] theorem sort_rename (e : Expr) : (e.rename ρ).sort = e.sort := by
  induction e with
  | ite c t e _ iht _ => exact iht
  | _ => rfl

@[simp] theorem isConst_rename (e : Expr) : (e.rename ρ).isConst = e.isConst := by
  cases e <;> rfl

@[simp] theorem isTrue_rename (e : Expr) : (e.rename ρ).isTrue = e.isTrue := by
  cases e <;> rfl

@[simp] theorem isFalse_rename (e : Expr) : (e.rename ρ).isFalse = e.isFalse := by
  cases e <;> rfl

@[simp] theorem isInt_rename (v : Int) (e : Expr) : (e.rename ρ).isInt v = e.isInt v := by
  cases e <;> rfl

/-- Renamed terms compare as equal exactly if the terms do.  Which of two names is the smaller one
may change. -/
theorem compare_rename (a b : Expr) :
    compare (a.rename ρ) (b.rename ρ) = .eq ↔ compare a b = .eq := by
  induction a generalizing b with
  | const c => cases b <;> rfl
  | name n s =>
    cases b with
    | name n' s' =>
      have hn : ∀ k k' : Name, Ord.compare k.index k'.index = .eq ↔ k = k' := fun k k' => by
        rw [Nat.compare_eq_eq]
        exact Name.ext_iff.symm
      exact ((hn _ _).trans ρ.injective.eq_iff).trans (hn _ _).symm
    | _ => rfl
  | not e ih =>
    cases b with
    | not e' => exact ih e'
    | _ => rfl
  | neg e ih =>
    cases b with
    | neg e' => exact ih e'
    | _ => rfl
  | ite c t e ihc iht ihe =>
    cases b with
    | ite c' t' e' =>
      simp only [rename, compare, Ordering.then_eq_eq, ihc, iht, ihe]
    | _ => rfl
  | binary op l r ihl ihr =>
    cases b with
    | binary op' l' r' => simp only [rename, compare, Ordering.then_eq_eq, ihl, ihr]
    | _ => rfl

theorem rename_mkNot (e : Expr) : (mkNot e).rename ρ = mkNot (e.rename ρ) := by
  cases e <;> rfl

theorem rename_mkNeg (e : Expr) : (mkNeg e).rename ρ = mkNeg (e.rename ρ) := by
  cases e <;> rfl

theorem rename_mkIte (c t e : Expr) :
    (mkIte c t e).rename ρ = mkIte (c.rename ρ) (t.rename ρ) (e.rename ρ) := by
  simp only [mkIte, isTrue_rename, isFalse_rename, apply_ite (rename ρ), rename]

theorem map_foldConstants (op : BinOp) (l r : Expr) :
    (foldConstants op l r).map (rename ρ) = foldConstants op (l.rename ρ) (r.rename ρ) := by
  cases l with
  | const a =>
    cases r with
    | const b =>
      simp only [foldConstants, rename]
      split <;> rfl
    | _ => rfl
  | _ => rfl

theorem map_dropNeutral (op : BinOp) (l r : Expr) :
    (dropNeutral op l r).map (rename ρ) = dropNeutral op (l.rename ρ) (r.rename ρ) := by
  cases op <;>
    simp only [dropNeutral, isInt_rename, apply_ite (Option.map (rename ρ)), Option.map_some,
      Option.map_none]

theorem rename_getD (o : Option Expr) (e : Expr) :
    (o.getD e).rename ρ = (o.map (rename ρ)).getD (e.rename ρ) := by
  cases o <;> rfl

theorem rename_mkArith (op : BinOp) (l r : Expr) :
    (mkArith op l r).rename ρ = mkArith op (l.rename ρ) (r.rename ρ) := by
  unfold mkArith
  rw [rename_getD, ← map_foldConstants, ← map_dropNeutral]
  cases foldConstants op l r <;> rfl

theorem rename_mkAnd (l r : Expr) : (mkAnd l r).rename ρ = mkAnd (l.rename ρ) (r.rename ρ) := by
  simp only [mkAnd, isTrue_rename, isFalse_rename, apply_ite (rename ρ), rename, rename_bool]

theorem rename_mkOr (l r : Expr) : (mkOr l r).rename ρ = mkOr (l.rename ρ) (r.rename ρ) := by
  simp only [mkOr, isTrue_rename, isFalse_rename, apply_ite (rename ρ), rename, rename_bool]

theorem rename_mkOrderedEq (l r : Expr) :
    (mkOrderedEq l r).rename ρ = mkOrderedEq (l.rename ρ) (r.rename ρ) := by
  have hc : ∀ a b, (if compare a b = .eq then bool true else .binary .eq a b).rename ρ =
      if compare (a.rename ρ) (b.rename ρ) = .eq then bool true
      else .binary .eq (a.rename ρ) (b.rename ρ) := fun a b => by
    simp only [compare_rename, apply_ite (rename ρ), rename, rename_bool]
  cases l with
  | const a =>
    -- A literal on the left is looked at before the terms are compared.
    have ha : ∀ b, (if a.sort = .bool then (if a.isTrue then b else mkNot b)
        else .binary .eq (.const a) b).rename ρ =
        if a.sort = .bool then (if a.isTrue then b.rename ρ else mkNot (b.rename ρ))
        else .binary .eq (.const a) (b.rename ρ) := fun b => by
      simp only [apply_ite (rename ρ), rename_mkNot, rename]
    cases r with
    | const b => rfl
    | _ => exact ha _
  | _ => exact hc _ r

theorem rename_mkEq (l r : Expr) : (mkEq l r).rename ρ = mkEq (l.rename ρ) (r.rename ρ) := by
  simp only [mkEq, isConst_rename, apply_ite (rename ρ), rename_mkOrderedEq]

theorem rename_mkCompare (op : BinOp) (l r : Expr) :
    (mkCompare op l r).rename ρ = mkCompare op (l.rename ρ) (r.rename ρ) := by
  rw [mkCompare, rename_getD, map_foldConstants]
  rfl

theorem rename_isZero (e : Expr) : (isZero e).rename ρ = isZero (e.rename ρ) :=
  rename_mkEq e (.int 0)

theorem rename_conj (es : List Expr) : (conj es).rename ρ = conj (es.map (rename ρ)) := by
  have hfold : ∀ a,
      (es.foldl mkAnd a).rename ρ = (es.map (rename ρ)).foldl mkAnd (a.rename ρ) := by
    induction es with
    | nil => exact fun a => rfl
    | cons e es ih =>
      intro a
      rw [List.foldl_cons, ih, rename_mkAnd]
      rfl
  exact hfold (.bool true)

/-- Renamings that agree on the names in scope give one term. -/
theorem Sorted.rename_congr {σ : Name ↪ Name} {D : Scope} {e : Expr} (h : e.Sorted D)
    (hρ : ∀ n s, D n s → ρ n = σ n) : e.rename ρ = e.rename σ := by
  induction e with
  | const c => rfl
  | name n s => rw [rename, rename, hρ n s h.1]
  | not e ih | neg e ih => rw [rename, rename, ih h.1]
  | ite c t e ihc iht ihe => rw [rename, rename, ihc h.1, iht h.2.1, ihe h.2.2.1]
  | binary op l r ihl ihr => rw [rename, rename, ihl h.1, ihr h.2.1]

theorem Sorted.of_rename {D : Scope} {e : Expr} (h : (e.rename ρ).Sorted D) :
    e.Sorted fun n s => D (ρ n) s := by
  induction e with
  | const c | name n s => exact h
  | not e ih | neg e ih => exact ⟨ih h.1, (sort_rename e).symm.trans h.2⟩
  | ite c t e ihc iht ihe =>
    obtain ⟨hc, ht, he, hcs, hts⟩ := h
    rw [sort_rename] at hcs
    rw [sort_rename, sort_rename] at hts
    exact ⟨ihc hc, iht ht, ihe he, hcs, hts⟩
  | binary op l r ihl ihr =>
    obtain ⟨hl, hr, hop⟩ := h
    rw [sort_rename, sort_rename] at hop
    exact ⟨ihl hl, ihr hr, hop⟩

theorem rename_rename (σ : Name ↪ Name) (e : Expr) :
    (e.rename ρ).rename σ = e.rename (ρ.trans σ) := by
  induction e with
  | const c | name n s => rfl
  | not e ih | neg e ih => rw [rename, rename, ih, rename]
  | ite c t e ihc iht ihe => rw [rename, rename, ihc, iht, ihe, rename]
  | binary op l r ihl ihr => rw [rename, rename, ihl, ihr, rename]

end Expr

/-! ## Operations of source code -/

section Operations

open Expr

variable {ρ : Name ↪ Name}

theorem SourceBinOp.term_rename (op : SourceBinOp) (l r : Expr) :
    op.term (l.rename ρ) (r.rename ρ) = (op.term l r).map (Expr.rename ρ) := by
  unfold SourceBinOp.term
  rw [sort_rename, sort_rename]
  split
  · rfl
  · by_cases hb : l.sort = .bool <;> cases op <;>
      simp only [hb, if_true, if_false, Except.map, rename_mkEq, rename_mkNot, rename_mkAnd,
        rename_mkOr, rename_mkArith, rename_mkCompare]

theorem SourceUnOp.term_rename (op : SourceUnOp) (x : Expr) :
    op.term (x.rename ρ) = (op.term x).map (Expr.rename ρ) := by
  unfold SourceUnOp.term
  rw [sort_rename]
  split
  · exact congrArg Except.ok (rename_mkNot x).symm
  · exact congrArg Except.ok (rename_mkNeg x).symm
  · rfl

theorem Ty.castTerm_rename (t : Ty) (x : Expr) :
    t.castTerm (x.rename ρ) = (t.castTerm x).map (Expr.rename ρ) := by
  unfold Ty.castTerm
  cases t.sort with
  | error e => rfl
  | ok s =>
    simp only [sort_rename, Except.map, apply_ite (Expr.rename ρ), rename_mkIte, rename_mkNot,
      rename_isZero, rename_int]

theorem rename_switchGuard (discr : Expr) (v : Int) :
    (switchGuard discr v).rename ρ = switchGuard (discr.rename ρ) v := by
  simp only [switchGuard, switchLiteral, rename_mkEq, sort_rename, apply_ite (Expr.rename ρ),
    rename_bool, rename_int]

theorem map_switchGuards (discr : Expr) (values : List Int) :
    (switchGuards discr values).map (Expr.rename ρ) = switchGuards (discr.rename ρ) values := by
  have hguards : (values.map (switchGuard discr)).map (Expr.rename ρ) =
      values.map (switchGuard (discr.rename ρ)) := by
    rw [List.map_map]
    exact List.map_congr_left fun v _ => rename_switchGuard discr v
  have hnots : ((values.map (switchGuard discr)).map mkNot).map (Expr.rename ρ) =
      (values.map (switchGuard (discr.rename ρ))).map mkNot := by
    rw [← hguards]
    simp only [List.map_map]
    exact List.map_congr_left fun v _ => rename_mkNot _
  rw [switchGuards, switchGuards, List.map_append, List.map_singleton, rename_conj, hguards, hnots]

end Operations

/-! ## Memories -/

namespace Assoc

variable {κ κ' α β : Type} [DecidableEq κ] [DecidableEq κ']

/-- One map holds at the new keys the new values of what another one holds.  It may hold more under
other keys. -/
structure Relabeled (f : κ → κ') (g : α → β) (m : Assoc κ α) (m' : Assoc κ' β) : Prop where
  get? : ∀ k, m'.get? (f k) = (m.get? k).map g

namespace Relabeled

variable {f : κ → κ'} {g : α → β} {m : Assoc κ α} {m' : Assoc κ' β}

theorem insert (h : m.Relabeled f g m') (hf : Function.Injective f) (k : κ) (a : α) :
    (m.insert k a).Relabeled f g (m'.insert (f k) (g a)) := by
  refine ⟨fun j => ?_⟩
  simp only [get?_insert, hf.eq_iff, h.get? j]
  split <;> rfl

theorem erase (h : m.Relabeled f g m') (hf : Function.Injective f) (k : κ) :
    (m.erase k).Relabeled f g (m'.erase (f k)) := by
  refine ⟨fun j => ?_⟩
  simp only [get?_erase, hf.eq_iff, h.get? j]
  split <;> rfl

theorem filterKeys {m' : Assoc κ β} (h : m.Relabeled id g m') (p : κ → Bool) :
    (m.filterKeys p).Relabeled id g (m'.filterKeys p) := by
  refine ⟨fun j => ?_⟩
  have hj : m'.get? j = (m.get? j).map g := h.get? j
  rw [id_eq, get?_filterKeys, get?_filterKeys, hj]
  split <;> rfl

end Relabeled

end Assoc

/-- The binding with its name renamed. -/
def Binding.rename (ρ : Name ↪ Name) (b : Binding) : Binding :=
  ⟨ρ b.name, b.moved⟩

/-- The cell after a renaming of pointers. -/
def Cell.rename (ρ : Name ↪ Name) : Cell → Cell
  | .slot s => .slot s
  | .behind p => .behind (ρ p)

namespace Memory

/-- One memory is another one with its names renamed.  Behind other names it may hold more. -/
structure Renamed (ρ : Name ↪ Name) (m m' : Memory) : Prop where
  locals : m.locals.Relabeled id (Binding.rename ρ) m'.locals
  addrs : m.addrs.Relabeled id ρ m'.addrs
  pointees : m.pointees.Relabeled ρ (Binding.rename ρ) m'.pointees

namespace Renamed

variable {ρ : Name ↪ Name} {m m' : Memory}

variable (h : m.Renamed ρ m')
include h

theorem get? (c : Cell) : m'.get? (c.rename ρ) = (m.get? c).map (Binding.rename ρ) := by
  cases c with
  | slot s => exact h.locals.get? s
  | behind p => exact h.pointees.get? p

theorem cellOf (s : Slot) : m'.cellOf s = (m.cellOf s).rename ρ := by
  unfold Memory.cellOf
  rw [show m'.addrs.get? s = _ from h.addrs.get? s]
  cases m.addrs.get? s <;> rfl

theorem set (c : Cell) (b : Binding) :
    (m.set c b).Renamed ρ (m'.set (c.rename ρ) (b.rename ρ)) := by
  cases c with
  | slot s => exact ⟨h.locals.insert Function.injective_id s b, h.addrs, h.pointees⟩
  | behind p => exact ⟨h.locals, h.addrs, h.pointees.insert ρ.injective p b⟩

theorem unbind (s : Slot) : (m.unbind s).Renamed ρ (m'.unbind s) :=
  ⟨h.locals.erase Function.injective_id s, h.addrs.erase Function.injective_id s, h.pointees⟩

theorem drop (depth : Int) : (m.drop depth).Renamed ρ (m'.drop depth) :=
  ⟨h.locals.filterKeys fun s => (s.depth : Int) != depth,
    h.addrs.filterKeys fun s => (s.depth : Int) != depth, h.pointees⟩

theorem giveAddress (s : Slot) (n : Name) :
    (m.giveAddress s n).Renamed ρ (m'.giveAddress s (ρ n)) := by
  have haddrs := h.addrs.insert Function.injective_id s n
  unfold Memory.giveAddress
  rw [show m'.locals.get? s = _ from h.locals.get? s]
  cases m.locals.get? s with
  | none => exact ⟨h.locals, haddrs, h.pointees⟩
  | some b =>
    exact ⟨h.locals.erase Function.injective_id s, haddrs, h.pointees.insert ρ.injective n b⟩

/-- Another renaming does the same if it agrees on the names of the memory, and sends no other name
to one of them. -/
theorem congr {σ : Name ↪ Name} {l a b : Nat} (hρ : Shifts ρ l a) (hσ : Shifts σ l b) (hab : a ≤ b)
    (hsame : ∀ n, n.index < l → σ n = ρ n) (hm : ∀ n, m'.Mentions n → n.index < a) :
    m.Renamed σ m' := by
  have hval : ∀ v : Binding, m'.Mentions (v.rename ρ).name → v.rename σ = v.rename ρ :=
    fun v hv => congrArg (Binding.mk · v.moved) (hsame _ (hρ.index_lt_iff.mp (hm _ hv)))
  have hkey : ∀ p, m'.Mentions (ρ p) → σ p = ρ p := fun p hp =>
    hsame p (hρ.index_lt_iff.mp (hm _ hp))
  refine ⟨⟨fun x => ?_⟩, ⟨fun x => ?_⟩, ⟨fun p => ?_⟩⟩
  · have hx := h.locals.get? x
    cases hv : m.locals.get? x with
    | none => rw [hx, hv]; rfl
    | some v =>
      rw [hv, Option.map_some] at hx
      rw [hx, Option.map_some, hval v (.value hx)]
  · have hx := h.addrs.get? x
    cases hv : m.addrs.get? x with
    | none => rw [hx, hv]; rfl
    | some n =>
      rw [hv, Option.map_some] at hx
      rw [hx, Option.map_some, hkey n (.address hx)]
  · have hp := h.pointees.get? p
    cases hv : m.pointees.get? p with
    | none =>
      -- a new name behind the second table is not in the memory
      rw [Option.map_none, Option.eq_none_iff_forall_ne_some]
      intro v hq
      have hlt := hσ.index_lt_iff.mp (Nat.lt_of_lt_of_le (hm _ (.pointer hq)) hab)
      rw [hsame p hlt, hp, hv] at hq
      cases hq
    | some v =>
      rw [hv, Option.map_some] at hp
      rw [hkey p (.pointer hp), hp, Option.map_some, hval v (.pointee hp)]

end Renamed

end Memory

end NullPath
