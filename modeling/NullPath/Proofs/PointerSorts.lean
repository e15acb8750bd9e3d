import NullPath.Proofs.CellAccess
import NullPath.Proofs.Faults
import NullPath.Proofs.NameTypes

/-!
# The sorts of dereferenced names

A name that is dereferenced gets a tag, and later the question is asked whether its value can be
zero.  This question makes sense for numbers only.  Nothing in the execution of a block checks it:
an assignment to a place for pointers shares the name of its value whatever the sort of the name is,
and a pointer may be read back as one of another type, so that truth values are found where addresses
are expected.

Code that respects the types of its pointers does not get there.  Every action keeps the types of
names, and a name that is dereferenced has a type whose values are numbers.

* `Frame.Typed`: the locals of a frame and of its callers have the types of their functions.
* `Explorer.tagged_int`: tags are on numbers only, in every state of an exploration.
-/

namespace NullPath

open Action Store

variable {fs : List Function}

namespace Store

open Graph (Known Later)

variable {α β : Type} {τ τ' : Name → Ty} {g g' : Graph} {types : Slot → Option Ty} {s s' : Store}
  {env : Env} {p : Place} {c : Cell} {n : Name} {t : Ty} {k : ExprSort} {base i : Int}
  {C : Ty → Prop} {e value : Expr} {rv : Rvalue}

/-! ## Actions -/

/-- The action keeps the types of names, and its value meets a condition.  If it fails, tags are still
on numbers only. -/
def Yields (τ : Name → Ty) (types : Slot → Option Ty) (x : Action Store α) (s : Store)
    (R : (Name → Ty) → Store → α → Prop := fun _ _ _ => True) : Prop :=
  Triple x s (fun a s' => ∃ τ', Later τ τ' s.graph s'.graph ∧ s'.Typed τ' types ∧ R τ' s' a)
    fun _ s' => s'.graph.TagsInts

namespace Yields

variable {x : Action Store α} {R : (Name → Ty) → Store → α → Prop}
  {R' : (Name → Ty) → Store → β → Prop}

section
variable (hs : s.Typed τ types)
include hs

theorem pure {a : α} (hR : R τ s a) : Yields τ types (Pure.pure a) s R :=
  Triple.pure ⟨τ, .refl, hs, hR⟩

theorem error (err : Error) : Yields τ types (Action.error err) s R :=
  Triple.error hs.tags

theorem lift {r : Except Error α} (hR : ∀ a, r = .ok a → R τ s a) :
    Yields τ types (Action.lift r) s R :=
  Triple.lift (fun a ha => ⟨τ, .refl, hs, hR a ha⟩) fun _ _ => hs.tags

theorem liftFault {r : Except Fault α} (hR : ∀ a, r = .ok a → R τ s a) :
    Yields τ types (Action.liftFault r) s R :=
  Triple.liftFault (fun a ha => ⟨τ, .refl, hs, hR a ha⟩) fun _ _ => hs.tags

/-- A value that is found without the store. -/
theorem lift_bind {r : Except Error α} {f : α → Action Store β}
    (hf : ∀ a, r = .ok a → Yields τ types (f a) s R') :
    Yields τ types (Action.lift r >>= f) s R' := by
  cases r with
  | ok a => exact hf a rfl
  | error err => exact error hs err

end

theorem bind {f : α → Action Store β} (hx : Yields τ types x s R)
    (hf : ∀ a s' τ', Later τ τ' s.graph s'.graph → s'.Typed τ' types → R τ' s' a →
      Yields τ' types (f a) s' R') : Yields τ types (x >>= f) s R' := by
  refine Triple.bind hx fun a s' _ ⟨τ', hl, hs', hR⟩ => ?_
  refine Triple.mono (hf a s' τ' hl hs' hR) (fun b s'' ⟨τ'', hl', h⟩ => ?_) fun _ _ h => h
  exact ⟨τ'', hl.trans hl', h⟩

theorem get {f : Store → Action Store β} (h : Yields τ types (f s) s R') :
    Yields τ types (Action.get >>= f) s R' :=
  Triple.bind_of_eq rfl h

theorem within (hx : Yields τ types x s R) (activity : String) :
    Yields τ types (Action.within activity x) s R :=
  Triple.within hx activity fun _ _ h => h

theorem mono {R' : (Name → Ty) → Store → α → Prop} (hx : Yields τ types x s R)
    (hR : ∀ τ' s' a, R τ' s' a → R' τ' s' a) : Yields τ types x s R' :=
  Triple.mono hx (fun _ _ ⟨τ', hl, hs, h⟩ => ⟨τ', hl, hs, hR _ _ _ h⟩) fun _ _ h => h

theorem onCopy (hx : Yields τ types x s R) :
    Triple (onCopy x) s
      (fun r s' => ∃ τ', Later τ τ' s.graph s'.graph ∧ Typed τ' types ⟨s'.graph, r.2⟩ ∧
        R τ' ⟨s'.graph, r.2⟩ r.1)
      fun _ s' => s'.graph.TagsInts :=
  Triple.mono (Triple.onCopy hx) (fun _ _ h => h.1) fun _ _ ⟨_, h⟩ => h

/-- An action that ends with a value and is known. -/
theorem of_eq_ok {a : α} (h : x s = (.ok a, s')) (hl : Later τ τ' s.graph s'.graph) (hs : s'.Typed τ' types)
    (hR : R τ' s' a) : Yields τ types x s R :=
  Triple.of_eq_ok h ⟨τ', hl, hs, hR⟩

end Yields

theorem yields_declaration (hs : s.Typed τ types) :
    Yields τ types (declaration n) s fun τ' s' d =>
      τ' = τ ∧ s' = s ∧ s.graph.declaration? n = some d := by
  refine Triple.mono triple_declaration ?_ ?_
  · rintro d s' ⟨rfl, hd⟩
    exact ⟨τ, .refl, hs, rfl, rfl, hd⟩
  · rintro failure s' ⟨rfl, -⟩
    exact hs.tags

theorem yields_onGraph {f : Graph → Except Fault Graph} (hs : s.Typed τ types)
    (hf : ∀ g, f s.graph = .ok g → Later τ τ s.graph g ∧
      ({ s with graph := g } : Store).Typed τ types) :
    Yields τ types (onGraph f) s := by
  refine Triple.mono triple_onGraph ?_ ?_
  · rintro _ s' ⟨g, hg, rfl⟩
    exact ⟨τ, (hf g hg).1, (hf g hg).2, trivial⟩
  · rintro failure s' ⟨rfl, -⟩
    exact hs.tags

theorem yields_tag (hs : s.Typed τ types) (hn : s.graph.Known τ n) (hint : (τ n).sort = .ok .int) :
    Yields τ types (tag env n) s := by
  refine ⟨fun _ s' h => ?_, fun failure s' h => ?_⟩
  · obtain ⟨d, hd, rfl⟩ := tag_eq_ok h
    obtain ⟨k, hk, d', hd', rfl⟩ := hn
    obtain rfl := Option.mem_unique hd hd'
    obtain ⟨htyped, hlater⟩ := hs.tagged hd (Except.ok.inj (hk.symm.trans hint))
    exact ⟨τ, hlater, htyped, trivial⟩
  · -- a tag that cannot be set changes nothing
    rw [triple_tag.failed failure s' h]
    exact hs.tags

/-- The cell is the one that a place leads to: it takes the names of the type of the place, and if it
holds something, the place has a type. -/
structure Resolves (τ : Name → Ty) (types : Slot → Option Ty) (f : Function) (p : Place) (s : Store)
    (c : Cell) : Prop where
  reaches : ∀ t, f.placeType p = .ok t → Reaches τ types s.graph c t.shape
  typed : ∀ b, s.memory.get? c = some b → ∃ t, f.placeType p = .ok t

/-- The name has the type of the place. -/
def Belongs (τ : Name → Ty) (f : Function) (p : Place) (g : Graph) (n : Name) : Prop :=
  g.Known τ n ∧ ∃ t, f.placeType p = .ok t ∧ τ n = t.shape

theorem Belongs.later {f : Function} (hn : Belongs τ f p g n) (h : Later τ τ' g g') :
    Belongs τ' f p g' n := by
  obtain ⟨hk, t, ht, hτ⟩ := hn
  exact ⟨hk.later h, t, ht, (hk.type_eq h).trans hτ⟩

theorem Belongs.reaches {f : Function} (hn : Belongs τ f p g n) (hc : Resolves τ types f p s c) :
    Reaches τ types s.graph c (τ n) := by
  obtain ⟨-, t, ht, hτ⟩ := hn
  rw [hτ]
  exact hc.reaches t ht

/-- A new name for the cell of a place. -/
theorem yields_fresh (hs : s.Typed τ types) (hc : Resolves τ types env.function p s c)
    (ht : env.function.placeType p = .ok t) (hk : t.sort = .ok k) :
    Yields τ types (do
      let name ← declare k none
      setCell c ⟨name, false⟩
      return name) s fun τ' s' n => Belongs τ' env.function p s'.graph n := by
  have hsort := Ty.sort_shape.mpr hk
  have hbound := hs.declared_bound hsort (hc.reaches t ht)
  refine .of_eq_ok rfl (later_declare s k none t.shape) hbound ⟨known_nextName hsort, t, ht, ?_⟩
  exact Function.update_self ..

theorem yields_readCell (hs : s.Typed τ types) (hc : Resolves τ types env.function p s c) :
    Yields τ types (readCell env p c) s fun τ' s' n => Belongs τ' env.function p s'.graph n := by
  refine .get ?_
  split
  · next name hget =>
    obtain ⟨t, ht⟩ := hc.typed _ hget
    have heq := (hs.cell c _ hget).unique (hc.reaches t ht).takes
    exact .pure hs ⟨hs.known name (.of_get? hget), t, ht, heq⟩
  · exact .error hs _
  · split
    · exact .error hs _
    · refine .lift_bind hs fun k hk => ?_
      obtain ⟨t, ht, hk⟩ := Function.exists_placeType hk
      exact yields_fresh hs hc ht hk

theorem yields_resolveAt {k : Nat} (hs : s.Typed τ types) (henv : env.Fits types)
    (hp : env.function.Follows ⟨base, k⟩) :
    Yields τ types (resolveAt env base k) s fun τ' s' c =>
      Resolves τ' types env.function ⟨base, k⟩ s' c := by
  induction k with
  | zero =>
    unfold resolveAt
    split
    · exact .error hs _
    · next l hl =>
      refine .get (.pure hs ⟨fun t ht => ?_, fun _ _ => ⟨_, Function.placeType_of_localVar? hl⟩⟩)
      obtain rfl := Except.ok.inj ((Function.placeType_of_localVar? hl).symm.trans ht)
      unfold Memory.cellOf
      split
      · next a ha =>
        obtain ⟨t', ht', hat⟩ := hs.address _ a ha
        obtain rfl := Option.some.inj ((henv base l hl).symm.trans ht')
        refine ⟨hat, ?_⟩
        rintro p hp
        cases hp
        exact hs.known a (.address ha)
      · exact ⟨henv base l hl, nofun⟩
  | succ k ih =>
    refine (ih fun j hj => hp j (Nat.lt_succ_of_lt hj)).bind fun c₀ s₁ τ₁ _ h₁ hc₀ => ?_
    refine (yields_readCell h₁ hc₀).bind fun n s₂ τ₂ _ h₂ hn => ?_
    obtain ⟨hknown, u, hu, hτ⟩ := hn
    have hint : (τ₂ n).sort = .ok .int := by
      obtain ⟨j, hj, -⟩ := hknown
      have hnum : j = .int := by
        rw [hτ] at hj
        refine Ty.sort_eq_int (Ty.sort_shape.mp hj) ?_
        rintro name rfl
        exact hp k (Nat.lt_succ_self k) name hu
      rw [hj, hnum]
    refine (yields_tag h₂ hknown hint).bind fun _ s₃ τ₃ hl₃ h₃ _ => .pure h₃ ⟨fun t ht => ?_, ?_⟩
    · obtain ⟨name, hptr⟩ := Function.exists_pointer_of_placeType ht
      cases hu.symm.trans hptr
      refine ⟨(hknown.type_eq hl₃).trans hτ, ?_⟩
      rintro p hp
      cases hp
      exact hknown.later hl₃
    · intro b hb
      obtain ⟨j, hj, -⟩ := h₃.known b.name (.of_get? hb)
      have hshape : u.shape = .pointer "" (τ₃ b.name) := by
        rw [← hτ, ← hknown.type_eq hl₃]
        exact h₃.cell _ b hb
      obtain ⟨elem, helem, -⟩ := Ty.exists_elem_of_shape hshape hj
      exact ⟨elem, Function.placeType_succ hu helem⟩

section

variable (hs : s.Typed τ types) (henv : env.Fits types) (hp : env.function.Follows p)
include hs henv hp

theorem yields_resolve :
    Yields τ types (resolve env p) s fun τ' s' c => Resolves τ' types env.function p s' c :=
  yields_resolveAt hs henv hp

theorem yields_readCopy :
    Yields τ types (readCopy env p) s fun τ' s' n => Belongs τ' env.function p s'.graph n :=
  (yields_resolve hs henv hp).bind fun _ _ _ _ hs' hc => yields_readCell hs' hc

theorem yields_readMove :
    Yields τ types (readMove env p) s fun τ' s' n => Belongs τ' env.function p s'.graph n := by
  refine (yields_readCopy hs henv hp).bind fun n s₁ τ₁ _ h₁ hn => ?_
  refine (yields_resolve h₁ henv hp).bind fun c s₂ τ₂ hl₂ h₂ hc => ?_
  have hn₂ := hn.later hl₂
  exact .of_eq_ok rfl .refl (h₂.bound (hn₂.reaches hc) hn₂.1) hn₂

/-- Giving a place a name of its type. -/
theorem yields_bind (hn : Belongs τ env.function p s.graph n) :
    Yields τ types (bind env p n) s := by
  refine (yields_resolve hs henv hp).bind fun c s₁ τ₁ hl₁ h₁ hc => ?_
  have hn₁ := hn.later hl₁
  exact .of_eq_ok rfl .refl (h₁.bound (hn₁.reaches hc) hn₁.1) trivial

theorem yields_writeFresh :
    Yields τ types (writeFresh env p) s fun τ' s' n => Belongs τ' env.function p s'.graph n := by
  refine .lift_bind hs fun k hk => ?_
  obtain ⟨t, ht, hk⟩ := Function.exists_placeType hk
  exact (yields_resolve hs henv hp).bind fun c s₁ τ₁ _ h₁ hc => yields_fresh h₁ hc ht hk

/-- The address of a place is a pointer to what the place holds. -/
theorem yields_ref :
    Yields τ types (ref env p) s fun τ' s' r => s'.graph.Known τ' r.1 ∧
      ∀ t, env.function.placeType p = .ok t → τ' r.1 = .pointer "" t.shape := by
  unfold ref
  split
  · next q hq =>
    obtain ⟨base, derefs⟩ := p
    cases derefs with
    | zero => cases hq
    | succ k =>
      cases hq
      have hq : env.function.Follows ⟨base, k⟩ := fun j hj => hp j (Nat.lt_succ_of_lt hj)
      refine (yields_readCopy hs henv hq).bind fun n s₁ τ₁ _ h₁ hn => .pure h₁ ⟨hn.1, ?_⟩
      obtain ⟨-, u, hu, hτ⟩ := hn
      intro t ht
      obtain ⟨name, hptr⟩ := Function.exists_pointer_of_placeType ht
      cases hu.symm.trans hptr
      exact hτ
  · next hq =>
    split
    · exact .error hs _
    · next l hl =>
      have hlocal : ∀ t, env.function.placeType p = .ok t → t = l.type := by
        intro t ht
        obtain ⟨base, derefs⟩ := p
        cases derefs with
        | zero => exact Except.ok.inj (ht.symm.trans (Function.placeType_of_localVar? hl))
        | succ k => cases hq
      refine .get ?_
      split
      · next a ha =>
        obtain ⟨t', ht', hat⟩ := hs.address _ a ha
        refine .pure hs ⟨hs.known a (.address ha), fun t ht => ?_⟩
        obtain rfl := Option.some.inj ((henv _ l hl).symm.trans ht')
        rw [hlocal t ht]
        exact hat
      · refine .of_eq_ok rfl (later_declare s .int none (.pointer "" l.type.shape))
          (hs.addressed (henv _ l hl)) ⟨known_nextName rfl, fun t ht => ?_⟩
        rw [hlocal t ht]
        exact Function.update_self ..

end

/-! ## Values and statements -/

/-- The value is a literal or a known name, and a name has a type if a condition holds for it. -/
def IsValue (τ : Name → Ty) (g : Graph) (C : Ty → Prop) (e : Expr) : Prop :=
  ∀ n k, e = .name n k → g.Known τ n ∧ ∀ t, C t → τ n = t.shape

theorem IsValue.later (he : IsValue τ g C e) (h : Later τ τ' g g') : IsValue τ' g' C e := by
  intro n k hn
  obtain ⟨hknown, ht⟩ := he n k hn
  exact ⟨hknown.later h, fun t hC => (hknown.type_eq h).trans (ht t hC)⟩

theorem yields_expr (hs : s.Typed τ types) (hn : Belongs τ env.function p s.graph n)
    (hC : ∀ t t', C t → env.function.placeType p = .ok t' → t'.shape = t.shape) :
    Yields τ types (do return (← declaration n).expr) s fun τ' s' e =>
      e.IsAtom ∧ IsValue τ' s'.graph C e := by
  refine (yields_declaration hs).bind ?_
  rintro d s τ' - hs ⟨rfl, rfl, hd⟩
  refine .pure hs ⟨trivial, fun m k hm => ?_⟩
  have hname : m = n := by
    rw [← (Expr.name.inj hm).1, (hs.tidy n.index d hd).1]
  obtain ⟨hknown, t', ht', hτ⟩ := hn
  rw [hname]
  exact ⟨hknown, fun t hCt => hτ.trans (hC t t' hCt ht')⟩

theorem yields_operand {x : Operand} (hs : s.Typed τ types) (henv : env.Fits types)
    (hx : ∀ p ∈ x.places, env.function.Follows p) :
    Yields τ types (operand env x) s fun τ' s' e =>
      e.IsAtom ∧ IsValue τ' s'.graph (x.Points env.function) e := by
  cases x with
  | copy p =>
    refine (yields_readCopy hs henv (hx p List.mem_cons_self)).bind fun n s₁ τ₁ _ h₁ hn => ?_
    exact yields_expr h₁ hn fun t t' hp ht' => hp t' ht'
  | move p =>
    refine (yields_readMove hs henv (hx p List.mem_cons_self)).bind fun n s₁ τ₁ _ h₁ hn => ?_
    exact yields_expr h₁ hn fun t t' hp ht' => hp t' ht'
  | const v t =>
    refine .lift_bind hs fun sort _ => .pure hs ?_
    split
    · exact ⟨trivial, nofun⟩
    · exact ⟨trivial, nofun⟩
  | missing => exact .error hs _

theorem later_of_decls (h : g'.decls = g.decls) : Later τ τ g g' := by
  refine ⟨fun n k ⟨d, hd, hk⟩ => ⟨d, ?_, hk⟩, fun _ _ _ => rfl⟩
  rw [Graph.declaration?, h]
  exact hd

theorem yields_assertExpr (hs : s.Typed τ types) :
    Yields τ types (assertExpr i e) s := by
  refine yields_onGraph hs fun g hg => ?_
  obtain ⟨-, -, -, -, rfl⟩ := Graph.addExpr_eq_ok hg
  have hlater : Later τ τ s.graph (s.graph.modifyNode i fun n => { n with exprs := n.exprs ++ [e] }) :=
    later_of_decls rfl
  exact ⟨hlater, hs.later hlater rfl hs.tidy hs.tags⟩

theorem yields_rvalue (hs : s.Typed τ types) (henv : env.Fits types)
    (hrv : ∀ p ∈ rv.places, env.function.Follows p) :
    Yields τ types (rvalue env rv) s fun τ' s' e =>
      IsValue τ' s'.graph (rv.Points env.function) e := by
  cases rv with
  | use x => exact (yields_operand hs henv hrv).mono fun _ _ _ h => h.2
  | binary op l r =>
    have hl : ∀ p ∈ l.places, env.function.Follows p := fun p hp => hrv p (List.mem_append_left _ hp)
    have hr : ∀ p ∈ r.places, env.function.Follows p :=
      fun p hp => hrv p (List.mem_append_right _ hp)
    refine (yields_operand hs henv hl).bind fun a s₁ τ₁ _ h₁ ⟨haa, ha⟩ => ?_
    refine (yields_operand h₁ henv hr).bind fun b s₂ τ₂ hl₂ h₂ ⟨hba, hb⟩ => ?_
    refine .lift h₂ fun e he n k hn => ?_
    rw [hn] at he
    rcases SourceBinOp.eq_name_of_term haa hba he with ⟨k, hname⟩ | ⟨k, hname⟩
    · obtain ⟨hknown, ht⟩ := ha.later hl₂ n k hname
      exact ⟨hknown, fun t hp => ht t hp.1⟩
    · obtain ⟨hknown, ht⟩ := hb n k hname
      exact ⟨hknown, fun t hp => ht t hp.2⟩
  | unary op x =>
    refine (yields_operand hs henv hrv).bind fun a s₁ τ₁ _ h₁ ⟨haa, ha⟩ => .lift h₁ fun e he n k hn => ?_
    rw [hn] at he
    obtain ⟨k, hname⟩ := SourceUnOp.eq_name_of_term haa he
    exact ha n k hname
  | cast x t =>
    refine (yields_operand hs henv hrv).bind fun a s₁ τ₁ _ h₁ ⟨haa, ha⟩ => .lift h₁ fun e he n k hn => ?_
    rw [hn] at he
    obtain ⟨k, hname⟩ := Ty.eq_name_of_castTerm haa he
    exact ha n k hname
  | ref p =>
    refine (yields_ref hs henv (hrv p List.mem_cons_self)).bind fun r s₁ τ₁ _ h₁ hr => ?_
    obtain ⟨n, isNew⟩ := r
    obtain ⟨hknown, hτ⟩ := hr
    have hvalue : IsValue τ₁ s₁.graph (fun t => (Rvalue.ref p).Points env.function t)
        (.name n .int) := by
      intro m k hm
      obtain ⟨rfl, -⟩ := Expr.name.inj hm
      refine ⟨hknown, fun t ⟨t', ht', hshape⟩ => ?_⟩
      rw [hτ t' ht', hshape]
    cases isNew with
    | false => exact .pure h₁ hvalue
    | true =>
      refine (yields_assertExpr h₁).bind fun _ s₂ τ₂ hl₂ h₂ _ => .pure h₂ (hvalue.later hl₂)
  | missing => exact .error hs _

theorem yields_assertEqual (hs : s.Typed τ types) :
    Yields τ types (assertEqual i n value) s := by
  refine (yields_declaration hs).bind fun d s₁ τ₁ _ h₁ _ => ?_
  split
  · exact .error h₁ _
  · exact yields_assertExpr h₁

theorem exists_pointer_of_sharesName (h : sharesName env p value = .ok (some n)) :
    ∃ t, env.function.placeType p = .ok t ∧ t.isPointer = true := by
  unfold sharesName at h
  split at h
  · split at h
    · cases h
    · next t _ ht =>
      split at h
      · next hptr => exact ⟨t, ht, hptr⟩
      · cases h
    · cases h
  · cases h

section

variable (hs : s.Typed τ types) (henv : env.Fits types)
include hs henv

theorem yields_assign (hp : env.function.Follows p) (hrv : ∀ q ∈ rv.places, env.function.Follows q)
    (hpoints : ∀ t, env.function.placeType p = .ok t → t.isPointer = true →
      rv.Points env.function t) : Yields τ types (assign env p rv) s := by
  refine (yields_rvalue hs henv hrv).bind fun value s₁ τ₁ _ h₁ hvalue => ?_
  refine (Yields.liftFault (R := fun τ' s' shared => τ' = τ₁ ∧ s' = s₁ ∧
    sharesName env p value = .ok shared) h₁ fun shared h => ⟨rfl, rfl, h⟩).bind ?_
  rintro shared s₁ τ₁ - h₁ ⟨rfl, rfl, hshared⟩
  cases shared with
  | some n =>
    obtain ⟨sort, rfl⟩ := eq_name_of_sharesName hshared
    obtain ⟨hknown, hτ⟩ := hvalue n sort rfl
    obtain ⟨t, ht, hptr⟩ := exists_pointer_of_sharesName hshared
    exact yields_bind h₁ henv hp ⟨hknown, t, ht, hτ t (hpoints t ht hptr)⟩
  | none =>
    exact (yields_writeFresh h₁ henv hp).bind fun n s₂ τ₂ _ h₂ _ => yields_assertEqual h₂

theorem yields_makeLive : Yields τ types (makeLive env base) s := by
  have hu := hs.unbound (.of env.depth base)
  have hx : Yields τ types (unbind env base) s fun τ' s' _ =>
      s' = s.unbound (.of env.depth base) := .of_eq_ok rfl .refl hu rfl
  refine hx.bind fun _ s₁ τ₁ _ h₁ _ => ?_
  split
  · exact .error h₁ _
  · split
    · exact .pure h₁ trivial
    · exact (yields_writeFresh h₁ henv (Function.follows_local _ _)).bind fun _ s₂ τ₂ _ h₂ _ => .pure h₂ trivial

theorem yields_statement {st : Statement} (hpoints : st.Points env.function)
    (hst : ∀ p ∈ st.places, env.function.Follows p) :
    Yields τ types (statement env st) s := by
  cases st with
  | assign p rv span =>
    have hassign : Yields τ types (assign { env with span } p rv) s :=
      yields_assign hs henv (hst p List.mem_cons_self)
        (fun q hq => hst q (List.mem_cons_of_mem p hq)) hpoints
    exact hassign
  | storageLive base => exact yields_makeLive hs henv
  | storageDead base => exact .of_eq_ok rfl .refl (hs.unbound _) trivial
  | nop => exact .pure hs trivial
  | missing => exact .error hs _

theorem yields_statements {sts : List Statement}
    (hsts : ∀ st ∈ sts, st.Points env.function ∧ ∀ p ∈ st.places, env.function.Follows p) :
    Yields τ types (statements env sts) s := by
  induction sts generalizing s τ with
  | nil => exact .pure hs trivial
  | cons st sts ih =>
    rw [List.forall_mem_cons] at hsts
    exact (yields_statement hs henv hsts.1.1 hsts.1.2).bind fun _ s₁ τ₁ _ h₁ _ => ih h₁ hsts.2

theorem yields_operands {xs : List Operand}
    (hxs : ∀ p ∈ xs.flatMap Operand.places, env.function.Follows p) :
    Yields τ types (operands env xs) s := by
  induction xs generalizing s τ with
  | nil => exact .pure hs trivial
  | cons x xs ih =>
    rw [List.flatMap_cons, List.forall_mem_append] at hxs
    refine (yields_operand hs henv hxs.1).bind fun v s₁ τ₁ _ h₁ _ => ?_
    exact (ih h₁ hxs.2).bind fun vs s₂ τ₂ _ h₂ _ => .pure h₂ trivial

theorem yields_passArguments (i : Int) (k : Nat) (args : List Expr) :
    Yields τ types (passArguments env i k args) s := by
  induction args generalizing s τ k with
  | nil => exact .pure hs trivial
  | cons v args ih =>
    refine (yields_writeFresh hs henv (Function.follows_local _ _)).bind fun n s₁ τ₁ _ h₁ _ => ?_
    exact (yields_assertEqual h₁).bind fun _ s₂ τ₂ _ h₂ _ => ih h₂ (k + 1)

end

theorem typed_empty (τ : Name → Ty) : Typed τ types {} where
  cell := by
    intro c b hb
    cases c with
    | slot x | behind p => cases hb
  address := by
    intro x a ha
    cases ha
  known n hn := absurd (bare_empty.scope.mentions n hn).2 (Nat.not_lt_zero _)
  tidy := bare_empty.scope.tidy
  tags := by
    intro d hd
    cases hd

end Store

/-! ## Frames -/

/-- The functions whose locals a frame has, those of the outermost call first. -/
def Frame.stack (f : Frame) : List Function :=
  (f.callers.map Caller.function).reverse ++ [f.function]

/-- The types of the locals of functions, by the depth of the call. -/
def slotTypes (fs : List Function) (x : Slot) : Option Ty :=
  fs[x.depth]?.bind fun f => (f.localVar? x.index).map fun l => l.type.shape

theorem Frame.length_stack (f : Frame) : f.stack.length = f.depth + 1 := by
  simp [stack, depth]

theorem slotTypes_append {x : Slot} {t : Ty} (f : Function) (h : slotTypes fs x = some t) :
    slotTypes (fs ++ [f]) x = some t := by
  unfold slotTypes at h ⊢
  obtain ⟨f', hf', ht⟩ := Option.bind_eq_some_iff.mp h
  rw [List.getElem?_append_left (lt_length_of_getElem? hf'), hf']
  exact ht

theorem slotTypes_of_append {f : Function} {x : Slot} {t : Ty}
    (h : slotTypes (fs ++ [f]) x = some t) (hx : x.depth ≠ fs.length) :
    slotTypes fs x = some t := by
  unfold slotTypes at h ⊢
  obtain ⟨f', hf', ht⟩ := Option.bind_eq_some_iff.mp h
  rcases getElem?_snoc hf' with hf' | ⟨hlast, -⟩
  · rw [hf']
    exact ht
  · exact absurd hlast hx

/-- The locals of the innermost function have their types. -/
theorem fits_slotTypes {env : Env} (haddr : env.function.Addressable)
    (hdepth : env.depth = fs.length) (hlt : fs.length < 0x100000000) :
    env.Fits (slotTypes (fs ++ [env.function])) := by
  intro i l hl
  have hi := Function.lt_of_localVar? hl
  unfold Function.Addressable at haddr
  have hslot : Slot.of env.depth i = ⟨fs.length, i.toNat⟩ := by
    rw [Slot.of, hdepth, Int.emod_eq_of_lt (by omega) (by omega),
      Int.emod_eq_of_lt (by omega) (by omega), Int.toNat_natCast]
  have hcast : ((i.toNat : Nat) : Int) = i := Int.toNat_of_nonneg hi.1
  rw [hslot]
  simp [slotTypes, hcast, hl]

theorem Store.Typed.mono {τ : Name → Ty} {types types' : Slot → Option Ty} {s : Store}
    (hs : s.Typed τ types) (h : ∀ x t, types x = some t → types' x = some t) :
    s.Typed τ types' where
  cell := by
    intro c b hb
    have hc := hs.cell c b hb
    cases c with
    | slot x => exact h x _ hc
    | behind p => exact hc
  address := by
    intro x a ha
    obtain ⟨t, ht, hat⟩ := hs.address x a ha
    exact ⟨t, h x t ht, hat⟩
  known := hs.known
  tidy := hs.tidy
  tags := hs.tags

/-- When the locals of the innermost function are dropped, the types of the others remain. -/
theorem Store.Typed.dropped {τ : Name → Ty} {f : Function} {s : Store}
    (hs : s.Typed τ (slotTypes (fs ++ [f]))) :
    Typed τ (slotTypes fs) { s with memory := s.memory.drop fs.length } where
  cell := by
    intro c b hb
    cases c with
    | slot x =>
      obtain ⟨hx, hb⟩ := Assoc.get?_filterKeys_eq_some.mp hb
      have hslot : slotTypes (fs ++ [f]) x = some (τ b.name) := hs.cell (.slot x) b hb
      exact slotTypes_of_append hslot fun heq => by simp [heq] at hx
    | behind p => exact hs.cell (.behind p) b hb
  address := by
    intro x a ha
    obtain ⟨hx, ha⟩ := Assoc.get?_filterKeys_eq_some.mp ha
    obtain ⟨t, ht, hat⟩ := hs.address x a ha
    exact ⟨t, slotTypes_of_append ht fun heq => by simp [heq] at hx, hat⟩
  known := fun n hn => hs.known n (Memory.Mentions.of_drop hn)
  tidy := hs.tidy
  tags := hs.tags

/-- The results of all calls are handed to places that are reached through pointers. -/
def Frame.Returns (f : Frame) : Prop :=
  ∀ c ∈ f.callers, c.function.Follows c.dest

/-- The names in the memory of the frame have types that the locals of all its functions respect. -/
structure Frame.Typed (g : Graph) (f : Frame) : Prop where
  memory : ∃ τ, Store.Typed τ (slotTypes f.stack) ⟨g, f.memory⟩
  returns : f.Returns

/-- Execution stands in the innermost function of a frame, and the locals of all functions can be
told apart. -/
structure Frame.Hosts (frame : Frame) (env : Env) : Prop where
  function : env.function = frame.function
  depth : env.depth = frame.depth
  addressable : ∀ f ∈ frame.stack, f.Addressable
  bounded : frame.depth < 0x100000000

theorem Frame.Hosts.fits {frame : Frame} {env : Env} (h : frame.Hosts env) :
    env.Fits (slotTypes frame.stack) := by
  have hlen : ((frame.callers.map Caller.function).reverse).length = frame.depth := by
    simp [Frame.depth]
  have hbounded := h.bounded
  rw [Frame.stack, ← h.function]
  refine fits_slotTypes (h.addressable _ ?_) ?_ ?_
  · rw [h.function]
    simp [Frame.stack]
  · rw [h.depth, hlen]
  · rw [hlen]
    exact hbounded

namespace Machine

variable {options : Options} {program : Program} {frame : Frame} {env : Env} {m : Machine}
  {τ : Name → Ty} {next : Int}

/-- The action hands on typed frames, and tags are on numbers only, also if it fails. -/
def HandsOn (x : Action Machine (List Frame)) (m : Machine) : Prop :=
  Triple x m (fun fs m' => m'.store.graph.TagsInts ∧ ∀ f ∈ fs, f.Typed m'.store.graph)
    fun _ m' => m'.store.graph.TagsInts

namespace HandsOn

variable {types : Slot → Option Ty}

theorem bind {α : Type} {x : Action Store α} {f : α → Action Machine (List Frame)}
    {R : (Name → Ty) → Store → α → Prop} (hx : Yields τ types x m.store R)
    (hf : ∀ a m' τ', m'.store.Typed τ' types → R τ' m'.store a → HandsOn (f a) m') :
    HandsOn (onStore x >>= f) m :=
  Triple.bind (Triple.onStore hx) fun a m' _ ⟨τ', _, hm', hR⟩ => hf a m' τ' hm' hR

theorem single {x : Action Machine (List Frame)} {f : Frame} {m' : Machine}
    (h : x m = (.ok [f], m')) (hs : Typed τ (slotTypes f.stack) ⟨m'.store.graph, f.memory⟩)
    (hf : f.Returns) : HandsOn x m :=
  Triple.of_eq_ok h ⟨hs.tags, List.forall_mem_singleton.mpr ⟨⟨τ, hs⟩, hf⟩⟩

/-- No frame goes on. -/
theorem none (hs : m.store.Typed τ types) : HandsOn (Pure.pure []) m :=
  Triple.pure ⟨hs.tags, by simp⟩

theorem error (hs : m.store.Typed τ types) (err : Error) : HandsOn (Action.error err) m :=
  Triple.error hs.tags

end HandsOn

theorem handsOn_inlineCall {callee : Function} {args : List Expr} {dest : Place}
    (hs : m.store.Typed τ (slotTypes frame.stack)) (hret : frame.Returns)
    (hdest : frame.function.Follows dest) (haddr : callee.Addressable)
    (hdepth : frame.depth + 1 < 0x100000000) :
    HandsOn (inlineCall frame env callee args dest next) m := by
  unfold inlineCall
  split
  · exact .error hs _
  · have henv : Env.Fits (slotTypes (frame.stack ++ [callee]))
        { function := callee, depth := frame.depth + 1, node := env.node } := by
      refine fits_slotTypes haddr ?_ ?_
      · rw [Frame.length_stack]
        rfl
      · rw [Frame.length_stack]
        exact hdepth
    have hpass := yields_passArguments (hs.mono fun x t => slotTypes_append callee) henv
      env.node 1 args
    refine Triple.bind (Triple.onStore (hpass.within _).onCopy) fun r m₁ _ ⟨τ₁, _, h₁, _⟩ => ?_
    have hstack : (frame.enter r.2 callee dest next env.node).stack = frame.stack ++ [callee] := by
      simp [Frame.stack, Frame.enter]
    rw [← hstack] at h₁
    exact HandsOn.single rfl h₁ (List.forall_mem_cons.mpr ⟨hdest, hret⟩)

section

variable {callee : String} {args : List Operand} {dest : Option Place}
  (hs : m.store.Typed τ (slotTypes frame.stack)) (henv : frame.Hosts env) (hret : frame.Returns)
include hs henv hret

theorem handsOn_call
    (hargs : ∀ p ∈ args.flatMap Operand.places ++ dest.toList, env.function.Follows p)
    (haddr : ∀ f ∈ program.functions, f.Addressable) (hdepth : options.maxCallDepth < 0x100000000) :
    HandsOn (call options program frame env callee args dest next) m := by
  rw [List.forall_mem_append] at hargs
  refine .bind (yields_operands hs henv.fits hargs.1) fun values m₁ τ₁ h₁ _ => ?_
  cases dest with
  | none => exact .none h₁
  | some d =>
    have hdest : env.function.Follows d := hargs.2 d (by simp)
    cases hf : (if options.inlineCalls && (frame.depth : Int) < options.maxCallDepth
        then program.function? callee else none) with
    | some f =>
      have hfollowed : options.followed program frame.depth callee = some f := hf
      have hlt := (bounds_of_followed hfollowed).2
      have hmem := Options.mem_of_followed hfollowed
      exact handsOn_inlineCall h₁ hret (henv.function ▸ hdest) (haddr f hmem) (by omega)
    | none =>
      refine Triple.bind_of_eq rfl (HandsOn.bind (yields_writeFresh h₁ henv.fits hdest)
        fun n m₂ τ₂ h₂ _ => ?_)
      exact .single rfl h₂ hret

theorem handsOn_finishCall : HandsOn (finishCall frame env) m := by
  unfold finishCall
  split
  · exact .none hs
  · next caller callers hcallers =>
    unfold Frame.Returns at hret
    rw [hcallers, List.forall_mem_cons] at hret
    refine .bind ((yields_readCopy hs henv.fits (Function.follows_local _ _)).within _)
      fun result m₁ τ₁ h₁ _ => ?_
    -- the frame goes on with the functions that remain
    let fs := (callers.map Caller.function).reverse
    have hstack : frame.stack = (fs ++ [caller.function]) ++ [frame.function] := by
      simp [Frame.stack, hcallers, fs]
    have hlen : (fs ++ [caller.function]).length = frame.depth := by
      simp [fs, Frame.depth, hcallers]
    have hbounded := henv.bounded
    have hdrop : Typed τ₁ (slotTypes (fs ++ [caller.function]))
        { m₁.store with memory := m₁.store.memory.drop env.depth } := by
      rw [hstack] at h₁
      rw [henv.depth, ← hlen]
      exact h₁.dropped
    have hfits : Env.Fits (slotTypes (fs ++ [caller.function])) (outer env caller callers) := by
      refine fits_slotTypes (henv.addressable _ ?_) ?_ ?_
      · simp [hstack, outer]
      · simp [outer, fs]
      · rw [List.length_append, List.length_singleton] at hlen
        omega
    have hcopy : Yields τ₁ (slotTypes (fs ++ [caller.function])) (do
        drop env.depth
        let name ← writeFresh (outer env caller callers) caller.dest
        assertEqual env.node name (← declaration result).expr)
        m₁.store := by
      refine Triple.bind_of_eq rfl ((yields_writeFresh hdrop hfits hret.1).bind
        fun n s₂ τ₂ _ h₂ _ => ?_)
      exact (yields_declaration h₂).bind fun d s₃ τ₃ _ h₃ _ => yields_assertEqual h₃
    refine Triple.bind (Triple.onStore hcopy.onCopy) fun r m₂ _ hr => ?_
    obtain ⟨τ₂, -, h₂, -⟩ := hr
    exact HandsOn.single rfl h₂ hret.2

theorem handsOn_terminator {t : Terminator} (ht : ∀ p ∈ t.places, env.function.Follows p)
    (haddr : ∀ f ∈ program.functions, f.Addressable) (hdepth : options.maxCallDepth < 0x100000000) :
    HandsOn (terminator options program frame env t) m := by
  cases t with
  | goto target => exact .single rfl hs hret
  | switch x values targets span =>
    rw [terminator]
    split
    · exact .error hs _
    · refine .bind (yields_operand hs henv.fits ht) fun discr m₁ τ₁ h₁ _ => ?_
      refine Triple.of_eq_ok (mapM_goOn frame env _ m₁) ⟨h₁.tags, fun f hf => ?_⟩
      obtain ⟨tg, -, rfl⟩ := List.mem_map.mp hf
      exact ⟨⟨τ₁, h₁⟩, hret⟩
  | assert x expected target span =>
    refine .bind (yields_operand hs henv.fits ht) fun cond m₁ τ₁ h₁ _ => ?_
    split
    · exact .error h₁ _
    · exact .bind (yields_assertExpr h₁) fun _ m₂ τ₂ h₂ _ => .single rfl h₂ hret
  | call callee args dest next span => exact handsOn_call hs { henv with } hret ht haddr hdepth
  | «return» => exact handsOn_finishCall hs henv hret
  | unreachable => exact .none hs
  | missing => exact .error hs _

/-- Executing a block keeps the types of names. -/
theorem handsOn_block {b : Block}
    (hst : ∀ st ∈ b.statements, st.Points env.function ∧ ∀ p ∈ st.places, env.function.Follows p)
    (ht : ∀ p ∈ b.terminator.places, env.function.Follows p)
    (haddr : ∀ f ∈ program.functions, f.Addressable) (hdepth : options.maxCallDepth < 0x100000000) :
    HandsOn (block options program frame env b) m :=
  .bind (yields_statements hs henv.fits hst) fun _ _ _ h₁ _ =>
    handsOn_terminator h₁ henv hret ht haddr hdepth

end

end Machine

/-! ## Explorations -/

namespace Explorer

variable {e : Explorer} {s : Store} {τ : Name → Ty} {types : Slot → Option Ty} {f : Function}
  {options : Options} {fs : List Function}

theorem yields_bindParameters (hs : s.Typed τ types) (henv : Env.Fits types { function := f })
    (count i : Nat) : Yields τ types (bindParameters f count i) s := by
  induction count generalizing s τ i with
  | zero => exact .pure hs trivial
  | succ count ih =>
    rw [bindParameters]
    split
    · exact .error hs _
    · next l hl =>
      refine ((Yields.lift (R := fun τ' s' k => τ' = τ ∧ s' = s ∧ l.type.sort = .ok k) hs
        fun k hk => ⟨rfl, rfl, hk⟩).within _).bind ?_
      rintro k s τ' - hs ⟨rfl, rfl, hk⟩
      have hsort := Ty.sort_shape.mpr hk
      let o : Option Origin := some ⟨f.name, i, parameterLabel l i⟩
      have hdeclare : Yields τ' types (declare k o) s fun τ₁ s₁ n =>
          Belongs τ₁ f ⟨i, 0⟩ s₁.graph n := by
        refine .of_eq_ok rfl (later_declare s k o l.type.shape) (hs.declare o hsort)
          ⟨known_nextName hsort, l.type, Function.placeType_of_localVar? hl, ?_⟩
        exact Function.update_self ..
      refine hdeclare.bind fun n s₁ τ₁ _ h₁ hn => ?_
      refine (yields_bind h₁ henv (Function.follows_local _ _) hn).bind
        fun _ s₂ τ₂ _ h₂ _ => ?_
      exact ih h₂ (i + 1)

theorem yields_enterFunction (hs : s.Typed τ types) (henv : Env.Fits types { function := f }) :
    Yields τ types (enterFunction f) s := by
  unfold enterFunction
  split
  · exact .error hs _
  · split
    · exact .error hs _
    · split
      · refine ((yields_writeFresh hs henv (Function.follows_local _ _)).within _).bind
          fun n s₁ τ₁ _ h₁ _ => ?_
        exact yields_bindParameters h₁ henv _ 1
      · exact yields_bindParameters hs henv _ 1

/-- A frame stays typed when the graph grows. -/
theorem typed_of_later {g g' : Graph} {f : Frame} (hf : f.Typed g)
    (hlater : ∀ τ : Name → Ty, Graph.Later τ τ g g') (htidy : g'.Tidy) (htags : g'.TagsInts) :
    f.Typed g' := by
  obtain ⟨⟨τ, hs⟩, hret⟩ := hf
  exact ⟨⟨τ, hs.later (hlater τ) rfl htidy htags⟩, hret⟩

/-- The innermost function of a frame is at work. -/
theorem hosts_visit {frame : Frame} {i : Int} (h : frame.Within options fs)
    (hdepth : options.maxCallDepth < 0x100000000) (haddr : ∀ f ∈ fs, f.Addressable) :
    frame.visit.Hosts { function := frame.function, depth := frame.depth, node := i } := by
  refine ⟨rfl, rfl, fun f hf => haddr f ?_, ?_⟩
  · rw [Frame.stack, List.mem_append, List.mem_reverse, List.mem_map, List.mem_singleton] at hf
    rcases hf with ⟨c, hc, rfl⟩ | rfl
    · exact h.callers c hc
    · exact h.function
  · have hle := h.depth
    change frame.depth < 0x100000000
    omega

/-- Every waiting frame is typed. -/
theorem keeps_typed {program : Program} (hdepth : options.maxCallDepth < 0x100000000)
    (hp : ∀ f ∈ program.functions, f ∈ fs) (hcode : ∀ f ∈ fs, f.Addressable ∧ f.RespectsPointers) :
    Keeps options program (fun _ => True) (fun g => g.Tidy ∧ g.TagsInts)
      fun g f => f.Within options fs ∧ f.Typed g where
  graph_of_decls g g' hd hg :=
    ⟨fun k d hk => hg.1 k d (hd ▸ hk), fun d hmem => hg.2 d (hd ▸ hmem)⟩
  frame_of_decls g g' f hd hf := by
    obtain ⟨hwithin, hf⟩ := hf
    obtain ⟨τ, hs⟩ := hf.memory
    refine ⟨hwithin, typed_of_later hf (fun _ => later_of_decls hd) ?_ ?_⟩
    · exact fun k d hk => hs.tidy k d (hd ▸ hk)
    · exact fun d hmem => hs.tags d (hd ▸ hmem)
  of_unnumbered g f f' heq hf := by
    have hf' : f.unnumbered.Within options fs ∧ f.unnumbered.Typed g := ⟨{ hf.1 with }, { hf.2 with }⟩
    rw [heq] at hf'
    exact ⟨{ hf'.1 with }, { hf'.2 with }⟩
  block g i frame b stats result m _ hG hf hopen hb hrun := by
    obtain ⟨hwithin, ⟨τ, hs⟩, hret⟩ := hf
    have hrespects := (hcode _ hwithin.function).2
    have hmem := Function.block?_mem hb
    have hx : Machine.HandsOn (Machine.block options program frame.visit
        { function := frame.function, depth := frame.depth, node := i } b)
        { store := ⟨g, frame.memory⟩, stats } :=
      Machine.handsOn_block hs (hosts_visit hwithin hdepth fun f hf => (hcode f hf).1) hret
        (hrespects.statements b hmem) (hrespects.terminators b hmem)
        (fun f hf => (hcode f (hp f hf)).1) hdepth
    have htags : m.store.graph.TagsInts := by
      cases result with
      | ok next => exact (hx.ok _ _ hrun).1
      | error failure => exact hx.failed _ _ hrun
    obtain ⟨es, hgrows⟩ := (Machine.follows_block.of_eq hrun).store
    have htidy := hgrows.tidy hG.1
    refine ⟨⟨htidy, htags⟩, fun f hf => ⟨hf.1, ?_⟩, ?_⟩
    · exact typed_of_later hf.2 (fun _ => ⟨fun _ _ => hgrows.declares, fun _ _ _ => rfl⟩) htidy htags
    · rintro next rfl f hfmem
      have hvisit : frame.visit.Within options fs := { hwithin with }
      exact ⟨hvisit.succeeds ((Machine.block_succeeds hrun).1 f hfmem) hp,
        (hx.ok _ _ hrun).2 f hfmem⟩

theorem starts_typed (hentry : e.entry ∈ fs) (haddr : e.entry.Addressable) :
    e.Starts (fun g => g.Tidy ∧ g.TagsInts)
      fun g f => f.Within e.options fs ∧ f.Typed g := by
  have henv : Env.Fits (slotTypes ([] ++ [e.entry])) { function := e.entry } :=
    fits_slotTypes haddr rfl (by decide)
  have hx := yields_enterFunction (typed_empty fun _ => .untyped) henv
  refine ⟨fun s hs => ?_, fun failure s hs => ?_⟩
  · obtain ⟨τ, -, h, -⟩ := hx.ok _ _ hs
    exact ⟨⟨h.tidy, h.tags⟩, ⟨hentry, by simp, by simp [Frame.depth], by simp⟩, ⟨τ, h⟩, by simp [Frame.Returns]⟩
  · exact ⟨((starts_scoped e).refused failure s hs), hx.failed _ _ hs⟩

/-- In code that respects the types of its pointers, every name with a tag is the name of a number,
so that the test for null compares two numbers. -/
theorem tagged_int (he : e.Unused) (hdepth : e.options.maxCallDepth < 0x100000000)
    (hcode : ∀ f ∈ e.functions, f.Addressable ∧ f.RespectsPointers) (n : Nat) :
    ∀ d ∈ (e.after n).graph.decls, d.derefs ≠ [] →
      d.sort = .int ∧ Expr.isZero d.expr = .binary .eq (.int 0) (.name d.name .int) := by
  cases n with
  | zero =>
    rw [after_zero, he.graph]
    simp
  | succ n =>
    have hentry : e.entry ∈ e.functions := List.mem_cons_self
    have hkeeps := keeps_typed hdepth (fun f hf => List.mem_cons_of_mem e.entry hf) hcode
    have hheld := hkeeps.after he (starts_typed hentry (hcode _ hentry).1) n fun _ _ => trivial
    intro d hd hne
    have hsort := hheld.graph.2 d hd hne
    refine ⟨hsort, ?_⟩
    rw [Declaration.expr, hsort]
    rfl

/-- A pointer parameter is copied, and the copy is dereferenced. -/
def pointerCopy : Explorer where
  entry := {
    name := "typed"
    locals := [⟨"", .integer⟩, ⟨"p", .pointer "" .integer⟩, ⟨"q", .pointer "" .integer⟩]
    argCount := 1
    blocks := [⟨[.assign ⟨2, 0⟩ (.use (.copy ⟨1, 0⟩)) {}, .assign ⟨0, 0⟩ (.use (.copy ⟨2, 1⟩)) {}],
      .return⟩] }

theorem pointerCopy_respectsPointers : pointerCopy.entry.RespectsPointers := by
  have hresult : pointerCopy.entry.placeType ⟨0, 0⟩ = .ok .integer := rfl
  have hparam : pointerCopy.entry.placeType ⟨1, 0⟩ = .ok (.pointer "" .integer) := rfl
  have hcopy : pointerCopy.entry.placeType ⟨2, 0⟩ = .ok (.pointer "" .integer) := rfl
  have hblocks : pointerCopy.entry.blocks = [⟨[.assign ⟨2, 0⟩ (.use (.copy ⟨1, 0⟩)) {},
      .assign ⟨0, 0⟩ (.use (.copy ⟨2, 1⟩)) {}], .return⟩] := rfl
  constructor
  · simp [hblocks, Statement.Points, Rvalue.Points, Operand.Points, Statement.places,
      Rvalue.places, Operand.places, Function.Follows, hresult, hparam, hcopy,
      Ty.integer, Ty.isPointer]
  · simp [hblocks, Terminator.places]

/-- The parameter gets a tag, and it is the name of a number. -/
theorem pointerCopy_tagged_int :
    (∃ d ∈ (pointerCopy.after 1).graph.decls, d.derefs ≠ []) ∧
      ∀ d ∈ (pointerCopy.after 1).graph.decls, d.derefs ≠ [] →
        d.sort = .int ∧ Expr.isZero d.expr = .binary .eq (.int 0) (.name d.name .int) := by
  have hcode : ∀ f ∈ pointerCopy.functions, f.Addressable ∧ f.RespectsPointers := by
    intro f hf
    obtain rfl := List.mem_singleton.mp hf
    exact ⟨by simp [Function.Addressable, pointerCopy], pointerCopy_respectsPointers⟩
  have hdecls : (pointerCopy.after 1).graph.decls = [⟨⟨0⟩, .int, [], none⟩,
      ⟨⟨1⟩, .int, [⟨0, {}⟩], some ⟨"typed", 1, "p"⟩⟩, ⟨⟨2⟩, .int, [], none⟩,
      ⟨⟨3⟩, .int, [], none⟩] := by
    decide +kernel
  have hunused : pointerCopy.Unused := .new ..
  exact ⟨by simp [hdecls], tagged_int hunused (by decide) hcode 1⟩

/-- A truth value is copied to a local for pointers, which is dereferenced. -/
def booleanCopy : Explorer where
  entry := {
    name := "alias"
    locals := [⟨"", .integer⟩, ⟨"b", .boolean⟩, ⟨"p", .pointer "" .integer⟩]
    argCount := 1
    blocks := [⟨[.assign ⟨2, 0⟩ (.use (.copy ⟨1, 0⟩)) {}, .assign ⟨0, 0⟩ (.use (.copy ⟨2, 1⟩)) {}],
      .return⟩] }

/-- Without the hypothesis on the code, the name of a truth value may get a tag. -/
theorem booleanCopy_tagged_bool :
    booleanCopy.Unused ∧ ∃ d ∈ (booleanCopy.after 1).graph.decls, d.derefs ≠ [] ∧ d.sort = .bool := by
  refine ⟨.new .., ?_⟩
  have hdecls : (booleanCopy.after 1).graph.decls = [⟨⟨0⟩, .int, [], none⟩,
      ⟨⟨1⟩, .bool, [⟨0, {}⟩], some ⟨"alias", 1, "b"⟩⟩, ⟨⟨2⟩, .int, [], none⟩,
      ⟨⟨3⟩, .int, [], none⟩] := by
    decide +kernel
  simp [hdecls]

end Explorer
end NullPath
