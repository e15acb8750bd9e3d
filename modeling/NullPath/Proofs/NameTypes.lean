import Mathlib.Logic.Equiv.Basic
import NullPath.Proofs.HeapAccess
import NullPath.Proofs.Renaming

/-!
# Types of names

In code that respects the types of its pointers every name has a type of its own, up to the way in
which the type is written: the names in the slot of a local have the type of the local, and what is
behind a name has the type that the name points to.  A name is passed on unchanged by copies of
pointers only, also if the copy is hidden in an operation that has no effect.

* `SourceBinOp.eq_name_of_term`: an operation on literals and names makes no new names.
* `Store.Typed.bound`, `Store.Typed.addressed`, …: what changes a store keeps the types.
-/

namespace NullPath

variable {t : Ty} {k : ExprSort} {a : Expr} {n : Name}

/-! ## Code that respects the types of pointers -/

/-- The place of an operand, if it reads one. -/
def Operand.places : Operand → List Place
  | .copy p | .move p => [p]
  | _ => []

/-- The places that a right-hand side reads or takes the address of. -/
def Rvalue.places : Rvalue → List Place
  | .use x | .unary _ x | .cast x _ => x.places
  | .binary _ l r => l.places ++ r.places
  | .ref p => [p]
  | .missing => []

/-- The places of a statement. -/
def Statement.places : Statement → List Place
  | .assign p rv _ => p :: rv.places
  | _ => []

/-- The places of a terminator. -/
def Terminator.places : Terminator → List Place
  | .switch x _ _ _ | .assert x _ _ _ => x.places
  | .call _ args dest _ _ => args.flatMap Operand.places ++ dest.toList
  | _ => []

/-- On the way to the place no truth value is dereferenced. -/
def Function.Follows (f : Function) (p : Place) : Prop :=
  ∀ k < p.derefs, ∀ name, f.placeType ⟨p.base, k⟩ ≠ .ok (.bool name)

theorem Function.follows_local (f : Function) (i : Int) : f.Follows ⟨i, 0⟩ :=
  fun k hk => absurd hk (Nat.not_lt_zero k)

/-- The operand is a literal, or what a place of the type holds. -/
def Operand.Points (f : Function) (t : Ty) : Operand → Prop
  | .copy p | .move p => ∀ t', f.placeType p = .ok t' → t'.shape = t.shape
  | _ => True

/-- All operands of the right-hand side are pointers of the type, or it is the address of a place
that such pointers lead to. -/
def Rvalue.Points (f : Function) (t : Ty) : Rvalue → Prop
  | .use x | .unary _ x | .cast x _ => x.Points f t
  | .binary _ l r => l.Points f t ∧ r.Points f t
  | .ref p => ∃ t', f.placeType p = .ok t' ∧ t.shape = .pointer "" t'.shape
  | .missing => True

/-- A place for pointers is given pointers of its type. -/
def Statement.Points (f : Function) : Statement → Prop
  | .assign p rv _ => ∀ t, f.placeType p = .ok t → t.isPointer = true → rv.Points f t
  | _ => True

/-- No truth value is dereferenced, and places for pointers are given pointers of their types. -/
structure Function.RespectsPointers (f : Function) : Prop where
  statements : ∀ b ∈ f.blocks, ∀ st ∈ b.statements, st.Points f ∧ ∀ p ∈ st.places, f.Follows p
  terminators : ∀ b ∈ f.blocks, ∀ p ∈ b.terminator.places, f.Follows p

theorem Ty.sort_shape : t.shape.sort = .ok k ↔ t.sort = .ok k := by
  cases t with
  | untyped | bool | int | pointer => exact Iff.rfl
  | other => exact ⟨nofun, nofun⟩

theorem Ty.derefTimes_succ {k : Nat} {u elem : Ty} (h : t.derefTimes k = .ok u)
    (he : u.elem? = some elem) : t.derefTimes (k + 1) = .ok elem := by
  induction k generalizing t with
  | zero =>
    cases h
    rw [derefTimes, he]
    rfl
  | succ k ih =>
    rw [derefTimes] at h ⊢
    split at h
    · exact ih h
    · cases h

theorem Function.placeType_succ {f : Function} {i : Int} {k : Nat} {elem : Ty}
    (h : f.placeType ⟨i, k⟩ = .ok t) (he : t.elem? = some elem) :
    f.placeType ⟨i, k + 1⟩ = .ok elem := by
  unfold placeType at h ⊢
  split at h
  · cases h
  · next l hl =>
    split at h
    · next u hu =>
      cases h
      simp only [hl]
      rw [Ty.derefTimes_succ hu he]
    · cases h

/-- A type that looks like a pointer to something with a sort has an element. -/
theorem Ty.exists_elem_of_shape {e : Ty} (h : t.shape = .pointer "" e) (he : e.sort = .ok k) :
    ∃ elem, t.elem? = some elem ∧ elem.shape = e := by
  cases t with
  | untyped | other | bool | int => cases h
  | pointer name elem =>
    obtain ⟨-, rfl⟩ := Ty.pointer.inj h
    cases elem with
    | untyped => cases he
    | other | bool | int | pointer => exact ⟨_, rfl, rfl⟩

/-- A value that is not a truth value is a number. -/
theorem Ty.sort_eq_int (h : t.sort = .ok k) (hne : ∀ name, t ≠ .bool name) : k = .int := by
  cases t with
  | untyped | other => cases h
  | bool name => exact absurd rfl (hne name)
  | int | pointer => exact (Except.ok.inj h).symm

/-! ## Operators on literals and names -/

namespace Expr

variable {a b : Expr} {n : Name}

/-- The term is a literal or a name. -/
def IsAtom : Expr → Prop
  | .const _ | .name _ _ => True
  | _ => False

theorem IsAtom.exists_bound (ha : a.IsAtom) : ∃ l, ∀ m k, a = .name m k → m.index < l := by
  match a, ha with
  | .const c, _ => exact ⟨0, nofun⟩
  | .name m k, _ =>
    refine ⟨m.index + 1, ?_⟩
    rintro _ _ ⟨⟩
    exact Nat.lt_succ_self _

theorem IsAtom.rename_swap {n' : Name} (ha : a.IsAtom) (hn : ∀ k, a ≠ .name n k)
    (hn' : ∀ k, a ≠ .name n' k) : a.rename (Equiv.swap n n').toEmbedding = a := by
  match a, ha with
  | .const c, _ => rfl
  | .name m k, _ =>
    refine congrArg (name · k) (Equiv.swap_apply_of_ne_of_ne ?_ ?_)
    · rintro rfl
      exact hn k rfl
    · rintro rfl
      exact hn' k rfl

/-- A name that is kept by all renamings which keep two literals or names is one of these. -/
theorem IsAtom.eq_name_of_rename (ha : a.IsAtom) (hb : b.IsAtom)
    (h : ∀ ρ : Name ↪ Name, a.rename ρ = a → b.rename ρ = b → ρ n = n) :
    (∃ k, a = .name n k) ∨ ∃ k, b = .name n k := by
  by_contra hne
  rw [not_or, not_exists, not_exists] at hne
  obtain ⟨l, hl⟩ := ha.exists_bound
  obtain ⟨l', hl'⟩ := hb.exists_bound
  -- a name that neither of the two is
  let n' : Name := ⟨n.index + l + l' + 1⟩
  have hkept := h (Equiv.swap n n').toEmbedding
    (ha.rename_swap hne.1 fun k hk => absurd (hl n' k hk) (by simp only [n']; omega))
    (hb.rename_swap hne.2 fun k hk => absurd (hl' n' k hk) (by simp only [n']; omega))
  have heq : n' = n := (Equiv.swap_apply_left n n').symm.trans hkept
  exact absurd (congrArg Name.index heq) (by simp only [n']; omega)

end Expr

/-- An operator on literals and names makes a name only by dropping the other operand. -/
theorem SourceBinOp.eq_name_of_term {op : SourceBinOp} {b : Expr} (ha : a.IsAtom) (hb : b.IsAtom)
    (h : op.term a b = .ok (.name n k)) : (∃ k, a = .name n k) ∨ ∃ k, b = .name n k := by
  refine ha.eq_name_of_rename hb fun ρ hρ hρ' => ?_
  have hterm := op.term_rename (ρ := ρ) a b
  rw [hρ, hρ', h] at hterm
  exact (Expr.name.inj (Except.ok.inj hterm)).1.symm

theorem SourceUnOp.eq_name_of_term {op : SourceUnOp} (ha : a.IsAtom)
    (h : op.term a = .ok (.name n k)) : ∃ k, a = .name n k := by
  refine or_self_iff.mp (ha.eq_name_of_rename ha fun ρ hρ _ => ?_)
  have hterm := op.term_rename (ρ := ρ) a
  rw [hρ, h] at hterm
  exact (Expr.name.inj (Except.ok.inj hterm)).1.symm

theorem Ty.eq_name_of_castTerm (ha : a.IsAtom) (h : t.castTerm a = .ok (.name n k)) :
    ∃ k, a = .name n k := by
  refine or_self_iff.mp (ha.eq_name_of_rename ha fun ρ hρ _ => ?_)
  have hterm := t.castTerm_rename (ρ := ρ) a
  rw [hρ, h] at hterm
  exact (Expr.name.inj (Except.ok.inj hterm)).1.symm

/-! ## Types of names -/

/-- The cell may hold names of the type: it is the slot of a local of this type, or it is behind a
pointer to the type. -/
def Cell.Takes (τ : Name → Ty) (types : Slot → Option Ty) (t : Ty) : Cell → Prop
  | .slot x => types x = some t
  | .behind p => τ p = .pointer "" t

theorem Cell.Takes.unique {τ : Name → Ty} {types : Slot → Option Ty} {c : Cell} {t' : Ty}
    (h : c.Takes τ types t) (h' : c.Takes τ types t') : t = t' := by
  cases c with
  | slot x => exact Option.mem_unique h h'
  | behind p => exact (Ty.pointer.inj (h.symm.trans h')).2

/-- The slots of the locals at work have the types of the locals. -/
def Env.Fits (types : Slot → Option Ty) (env : Env) : Prop :=
  ∀ i l, env.function.localVar? i = some l → types (.of env.depth i) = some l.type.shape

/-- Only names of numbers have tags. -/
def Graph.TagsInts (g : Graph) : Prop :=
  ∀ d ∈ g.decls, d.derefs ≠ [] → d.sort = .int

namespace Graph

variable {τ τ' τ'' : Name → Ty} {g g' g'' : Graph} {n : Name}

/-- The name is declared with the sort of its type. -/
def Known (τ : Name → Ty) (g : Graph) (n : Name) : Prop :=
  ∃ k, (τ n).sort = .ok k ∧ g.Declares n k

theorem Known.lt (hn : g.Known τ n) : n.index < g.decls.length := by
  obtain ⟨k, -, d, hd, -⟩ := hn
  exact lt_length_of_getElem? hd

/-- Declared names keep their sorts and their types. -/
structure Later (τ τ' : Name → Ty) (g g' : Graph) : Prop where
  declares : ∀ n k, g.Declares n k → g'.Declares n k
  types : ∀ n k, g.Declares n k → τ' n = τ n

theorem Later.refl {τ : Name → Ty} {g : Graph} : Later τ τ g g :=
  ⟨fun _ _ h => h, fun _ _ _ => rfl⟩

theorem Later.trans (h : Later τ τ' g g') (h' : Later τ' τ'' g' g'') : Later τ τ'' g g'' :=
  ⟨fun n k hn => h'.declares n k (h.declares n k hn),
    fun n k hn => (h'.types n k (h.declares n k hn)).trans (h.types n k hn)⟩

theorem Known.type_eq (hn : g.Known τ n) (h : Later τ τ' g g') : τ' n = τ n := by
  obtain ⟨k, -, hd⟩ := hn
  exact h.types n k hd

theorem Known.later (hn : g.Known τ n) (h : Later τ τ' g g') : g'.Known τ' n := by
  have heq := hn.type_eq h
  obtain ⟨k, hk, hd⟩ := hn
  exact ⟨k, by rw [heq]; exact hk, h.declares n k hd⟩

end Graph

namespace Store

open Graph (Known Later)

variable {τ τ' : Name → Ty} {g g' : Graph} {types : Slot → Option Ty} {s s' : Store}
  {env : Env} {p : Place} {c : Cell} {n : Name} {t : Ty} {k : ExprSort}

/-- The names in the memory have types, which the cells respect, and tags are on numbers only. -/
structure Typed (τ : Name → Ty) (types : Slot → Option Ty) (s : Store) : Prop where
  cell : ∀ c b, s.memory.get? c = some b → c.Takes τ types (τ b.name)
  address : ∀ x a, s.memory.addrs.get? x = some a → ∃ t, types x = some t ∧ τ a = .pointer "" t
  known : ∀ n, s.memory.Mentions n → s.graph.Known τ n
  tidy : s.graph.Tidy
  tags : s.graph.TagsInts

/-- The cell takes names of the type, and if it is behind a pointer, the pointer is known. -/
structure Reaches (τ : Name → Ty) (types : Slot → Option Ty) (g : Graph) (c : Cell) (t : Ty) :
    Prop where
  takes : c.Takes τ types t
  pointer : ∀ p, c = .behind p → g.Known τ p

theorem Reaches.later (hc : Reaches τ types g c t) (h : Later τ τ' g g') :
    Reaches τ' types g' c t := by
  refine ⟨?_, fun p hp => (hc.pointer p hp).later h⟩
  cases c with
  | slot x => exact hc.takes
  | behind p => exact ((hc.pointer p rfl).type_eq h).trans hc.takes

theorem later_declare (s : Store) (k : ExprSort) (o : Option Origin) (t : Ty) :
    Later τ (Function.update τ s.nextName t) s.graph (s.graph.declare k o).2 := by
  constructor
  · rintro n k' ⟨d, hd, hk⟩
    have hlt := lt_length_of_getElem? hd
    refine ⟨d, ?_, hk⟩
    rw [Graph.declaration?, Graph.getElem?_declare, if_neg (Nat.ne_of_lt hlt)]
    exact hd
  · rintro n k' ⟨d, hd, -⟩
    have hlt := lt_length_of_getElem? hd
    refine Function.update_of_ne ?_ t τ
    rintro rfl
    exact Nat.lt_irrefl _ hlt

theorem known_nextName {o : Option Origin} (hk : t.sort = .ok k) :
    (s.graph.declare k o).2.Known (Function.update τ s.nextName t) s.nextName := by
  refine ⟨k, ?_, ⟨s.nextName, k, [], o⟩, ?_, rfl⟩
  · rw [Function.update_self]
    exact hk
  · rw [Graph.declaration?, Graph.getElem?_declare,
      if_pos (show s.nextName.index = s.graph.decls.length from rfl)]

namespace Typed

section

variable (hs : s.Typed τ types)
include hs

/-- Making a cell hold a name of the type that it takes. -/
theorem bound {moved : Bool} (hc : Reaches τ types s.graph c (τ n)) (hn : s.graph.Known τ n) :
    (s.bound c ⟨n, moved⟩).Typed τ types where
  cell := by
    intro c' b hb
    change (s.memory.set c ⟨n, moved⟩).get? c' = some b at hb
    rw [Memory.get?_set] at hb
    split at hb
    · next heq =>
      cases hb
      rw [heq]
      exact hc.takes
    · exact hs.cell c' b hb
  address := by
    intro x a ha
    change (s.memory.set c ⟨n, moved⟩).addrs.get? x = some a at ha
    rw [Memory.addrs_set] at ha
    exact hs.address x a ha
  known := by
    intro m hm
    rcases Memory.Mentions.of_set hm with hm | rfl | hm
    · exact hs.known m hm
    · exact hn
    · exact hc.pointer m hm
  tidy := hs.tidy
  tags := hs.tags

/-- The types matter for the names in the memory only. -/
theorem later (h : Later τ τ' s.graph s'.graph) (hmem : s'.memory = s.memory)
    (htidy : s'.graph.Tidy) (htags : s'.graph.TagsInts) :
    s'.Typed τ' types where
  cell := by
    intro c b hb
    rw [hmem] at hb
    have hname := (hs.known _ (.of_get? hb)).type_eq h
    have hc : Reaches τ types s.graph c (τ b.name) := by
      refine ⟨hs.cell c b hb, ?_⟩
      rintro p rfl
      exact hs.known p (.pointer hb)
    rw [hname]
    exact (hc.later h).takes
  address := by
    intro x a ha
    rw [hmem] at ha
    obtain ⟨t, ht, hat⟩ := hs.address x a ha
    exact ⟨t, ht, ((hs.known a (.address ha)).type_eq h).trans hat⟩
  known := by
    intro n hn
    rw [hmem] at hn
    exact (hs.known n hn).later h
  tidy := htidy
  tags := htags

/-- A new name of a type with a sort. -/
theorem declare (o : Option Origin) (hk : t.sort = .ok k) :
    Typed (Function.update τ s.nextName t) types
      { s with graph := (s.graph.declare k o).2 } := by
  refine hs.later (later_declare s k o t) rfl (hs.tidy.declare (Ty.sort_cases hk)) fun d hd hne => ?_
  rcases List.mem_append.mp hd with hd | hd
  · exact hs.tags d hd hne
  · rw [List.mem_singleton.mp hd] at hne
    exact absurd rfl hne

theorem declared_bound (hk : t.sort = .ok k) (hc : Reaches τ types s.graph c t) :
    ((s.declared k).bound c ⟨s.nextName, false⟩).Typed (Function.update τ s.nextName t) types := by
  refine (hs.declare none hk).bound ?_ (known_nextName hk)
  rw [Function.update_self]
  exact hc.later (later_declare s k none t)

theorem unbound (x : Slot) : (s.unbound x).Typed τ types where
  cell := by
    intro c b hb
    change (s.memory.unbind x).get? c = some b at hb
    rw [Memory.get?_unbind] at hb
    split at hb
    · cases hb
    · exact hs.cell c b hb
  address := by
    intro y a ha
    change (s.memory.unbind x).addrs.get? y = some a at ha
    rw [Memory.get?_addrs_unbind] at ha
    split at ha
    · cases ha
    · exact hs.address y a ha
  known := fun n hn => hs.known n (Memory.Mentions.of_unbind hn)
  tidy := hs.tidy
  tags := hs.tags

/-- Taking the address of a local for the first time. -/
theorem addressed {x : Slot} (hx : types x = some t) :
    (s.addressed x).Typed (Function.update τ s.nextName (.pointer "" t)) types := by
  have hd := hs.declare (t := .pointer "" t) none rfl
  have hnew : (s.graph.declare .int none).2.Known
      (Function.update τ s.nextName (.pointer "" t)) s.nextName := known_nextName rfl
  have hfresh : s.memory.pointees.get? s.nextName = none := by
    by_contra hne
    obtain ⟨b, hb⟩ := Option.ne_none_iff_exists'.mp hne
    exact Nat.lt_irrefl _ (hs.known _ (.pointer hb)).lt
  refine ⟨fun c b hb => ?_, fun y a ha => ?_, fun n hn => ?_, hd.tidy, hd.tags⟩
  · change (s.memory.giveAddress x s.nextName).get? c = some b at hb
    rw [Memory.get?_giveAddress hfresh] at hb
    split at hb
    · next hc =>
      have hold : types x = some (Function.update τ s.nextName (.pointer "" t) b.name) :=
        hd.cell (.slot x) b hb
      rw [hx] at hold
      rw [hc, Cell.Takes, Function.update_self, ← Option.some.inj hold]
    · split at hb
      · cases hb
      · exact hd.cell c b hb
  · change (s.memory.giveAddress x s.nextName).addrs.get? y = some a at ha
    rw [Memory.get?_addrs_giveAddress] at ha
    split at ha
    · next hy =>
      cases ha
      exact ⟨t, by rw [hy, hx], Function.update_self ..⟩
    · exact hd.address y a ha
  · rcases Memory.Mentions.of_giveAddress hn with hn | rfl
    · exact hd.known n hn
    · exact hnew

theorem tagged {d : Declaration} (hd : s.graph.declaration? n = some d) (hint : d.sort = .int) :
    (s.tagged env n d).Typed τ types ∧ Later τ τ s.graph (s.tagged env n d).graph := by
  unfold Store.tagged
  split
  · exact ⟨hs, .refl⟩
  · have hgrows := Graph.Grows.tag (t := ⟨env.node, env.span⟩) rfl s.graph n
    have hlater : Later τ τ s.graph { s.graph with decls := s.graph.decls.modify n.index fun d =>
        { d with derefs := d.derefs ++ [⟨env.node, env.span⟩] } } :=
      ⟨fun m k => hgrows.declares, fun _ _ _ => rfl⟩
    refine ⟨hs.later hlater rfl (hs.tidy.tag n _) fun d' hd' hne => ?_, hlater⟩
    obtain ⟨j, hj⟩ := List.mem_iff_getElem?.mp hd'
    obtain ⟨d₀, hd₀, rfl⟩ := Graph.exists_of_getElem?_tag hj
    by_cases hi : n.index = j
    · subst hi
      rw [if_pos rfl, Option.mem_unique hd₀ hd]
      exact hint
    · rw [if_neg hi] at hne ⊢
      exact hs.tags d₀ (List.mem_of_getElem? hd₀) hne

end

end Typed

end Store
end NullPath
