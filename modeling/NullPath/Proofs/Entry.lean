import NullPath.Proofs.Realize

/-!
# The entry of a function

A function is entered with its result slot and its parameters bound to names of their own, each of
the sort of its type.  Nothing else is bound, and no address has been taken.

* `Slot.of_eq_iff`: different locals have different slots, as long as their numbers fit a word.
* `Function.Entered.exists_model`: values of the bound slots make a model.
-/

namespace NullPath

/-- Slots of different locals or call depths are different. -/
theorem Slot.of_eq_iff {d d' i j : Int} (hd : 0 ≤ d) (hd₁ : d < 0x100000000) (hd' : 0 ≤ d')
    (hd₁' : d' < 0x100000000) (hi : 0 ≤ i) (hi₁ : i < 0x100000000) (hj : 0 ≤ j)
    (hj₁ : j < 0x100000000) : Slot.of d i = Slot.of d' j ↔ d = d' ∧ i = j := by
  rw [Slot.of, Slot.of, Slot.mk.injEq, Int.emod_eq_of_lt hd hd₁, Int.emod_eq_of_lt hd' hd₁',
    Int.emod_eq_of_lt hi hi₁, Int.emod_eq_of_lt hj hj₁]
  omega

theorem mem_of_nth? {α : Type} {xs : List α} {i : Int} {x : α} (h : nth? xs i = some x) :
    x ∈ xs := by
  rw [nth?] at h
  split at h
  · cases h
  · exact List.mem_of_getElem? h

namespace Function

variable {f : Function} {i j : Int} {l l' : LocalVar}

theorem lt_of_localVar? (h : f.localVar? i = some l) : 0 ≤ i ∧ i < f.locals.length := by
  rw [localVar?, nth?] at h
  split at h
  · cases h
  · have := lt_length_of_getElem? h
    omega

theorem localVar?_mem (h : f.localVar? i = some l) : l ∈ f.locals :=
  mem_of_nth? h

theorem block?_mem {k : Int} {b : Block} (h : f.block? k = some b) : b ∈ f.blocks :=
  mem_of_nth? h

/-- The function's locals can be told apart by their slots. -/
def Addressable (f : Function) : Prop :=
  f.locals.length ≤ 0x100000000

theorem Addressable.slot_eq_iff (hf : f.Addressable) (hi : f.localVar? i = some l)
    (hj : f.localVar? j = some l') {d : Int} (hd : 0 ≤ d) (hd₁ : d < 0x100000000) :
    Slot.of d i = Slot.of d j ↔ i = j := by
  have h₁ := lt_of_localVar? hi
  have h₂ := lt_of_localVar? hj
  unfold Addressable at hf
  rw [Slot.of_eq_iff hd hd₁ hd hd₁ (by omega) (by omega) (by omega) (by omega)]
  simp

theorem Addressable.slot_zero_eq_iff (hf : f.Addressable) (hi : f.localVar? i = some l)
    (hj : f.localVar? j = some l') : Slot.of 0 i = Slot.of 0 j ↔ i = j :=
  hf.slot_eq_iff hi hj (Int.le_refl 0) (by decide)

/-- The origin of the name that a slot is bound to: a parameter remembers where it came from. -/
def originOf (f : Function) (k : Nat) (l : LocalVar) : Option Origin :=
  if k = 0 then none else some ⟨f.name, k, Explorer.parameterLabel l k⟩

/-- The slots below a number are bound, each to a name of its own that is declared with the sort
of the local.  Only the result slot may be without a name, if its type has no sort. -/
structure Entered (f : Function) (count : Nat) (s : Store) : Prop where
  addrs : ∀ x, s.memory.addrs.get? x = none
  pointees : ∀ p, s.memory.pointees.get? p = none
  bound : ∀ x b, s.memory.locals.get? x = some b →
    b.moved = false ∧ ∃ k : Nat, k < count ∧ x = .of 0 k
  slots : ∀ k : Nat, k < count → ∃ l, f.localVar? k = some l ∧
    ((k = 0 ∧ (∃ err, l.type.sort = .error err) ∧ s.memory.locals.get? (.of 0 k) = none) ∨
      ∃ sort n d, l.type.sort = .ok sort ∧ s.memory.locals.get? (.of 0 k) = some ⟨n, false⟩ ∧
        s.graph.declaration? n = some d ∧ d.sort = sort ∧ d.origin = f.originOf k l)
  declared : ∀ n d, s.graph.declaration? n = some d →
    ∃ x, s.memory.locals.get? x = some ⟨n, false⟩
  distinct : ∀ x y n, s.memory.locals.get? x = some ⟨n, false⟩ →
    s.memory.locals.get? y = some ⟨n, false⟩ → x = y

/-- The names that the parameters are bound to have the values of the arguments. -/
def Given (f : Function) (s : Store) (m : Model) (args : List Constant) : Prop :=
  ∀ k n, k < f.argCount.toNat →
    s.memory.locals.get? (.of 0 (k + 1 : Nat)) = some ⟨n, false⟩ → m.get? n = args[k]?

namespace Entered

variable {count : Nat} {s s' : Store} {sort : ExprSort}

theorem empty (f : Function) : f.Entered 0 {} := by
  refine ⟨fun _ => rfl, fun _ => rfl, fun x b h => (nomatch h), fun k hk => absurd hk (by omega),
    fun n d h => ?_, fun x y n h => (nomatch h)⟩
  cases h

/-- The result slot stays without a name if its type has no sort. -/
theorem unsorted {err : Error} (hl : f.localVar? 0 = some l) (hsort : l.type.sort = .error err) :
    f.Entered 1 {} := by
  have h := empty f
  refine ⟨h.addrs, h.pointees, fun x b hx => (nomatch hx), fun k hk => ?_, h.declared, h.distinct⟩
  obtain rfl : k = 0 := by omega
  exact ⟨l, hl, .inl ⟨rfl, ⟨err, hsort⟩, rfl⟩⟩

variable (h : f.Entered count s) (hf : f.Addressable)
include h hf

/-- Binding the next slot to a new name. -/
theorem bindNext (hs : s.Scoped) (hl : f.localVar? count = some l)
    (hsort : l.type.sort = .ok sort) : f.Entered (count + 1)
      (Store.bound { s with graph := (s.graph.declare sort (f.originOf count l)).2 }
        (.slot (.of 0 count)) ⟨s.nextName, false⟩) := by
  have hslot : ∀ k, k < count → ∃ l', f.localVar? k = some l' ∧
      ¬Slot.of 0 (k : Int) = Slot.of 0 (count : Int) := by
    intro k hk
    obtain ⟨l', hl', -⟩ := h.slots k hk
    refine ⟨l', hl', fun heq => ?_⟩
    have := (hf.slot_zero_eq_iff hl' hl).mp heq
    omega
  have hget : ∀ x, (s.memory.locals.insert (Slot.of 0 count) ⟨s.nextName, false⟩).get? x =
      if x = Slot.of 0 count then some ⟨s.nextName, false⟩ else s.memory.locals.get? x :=
    fun x => Assoc.get?_insert _ _ _ _
  -- the new name is none of those that are bound already
  have hnew : ∀ x n, s.memory.locals.get? x = some ⟨n, false⟩ → ¬n = s.nextName := by
    rintro x n hx rfl
    exact absurd (hs.mentions _ (.value hx)).2 (Nat.lt_irrefl _)
  have hdecl : ∀ n d, s.graph.declaration? n = some d →
      (s.graph.declare sort (f.originOf count l)).2.declaration? n = some d := by
    intro n d hd
    have hlt := lt_length_of_getElem? hd
    rw [Graph.declaration?, Graph.getElem?_declare, if_neg (by omega)]
    exact hd
  refine ⟨h.addrs, h.pointees, fun x b hx => ?_, fun k hk => ?_, fun n d hd => ?_,
    fun x y n hx hy => ?_⟩
  · rw [Store.bound, Memory.set, hget] at hx
    split at hx
    · next heq =>
      cases hx
      exact ⟨rfl, count, by omega, heq⟩
    · obtain ⟨hmoved, k, hk, hxk⟩ := h.bound x b hx
      exact ⟨hmoved, k, by omega, hxk⟩
  · rw [Store.bound, Memory.set]
    rw [hget]
    by_cases hkc : k = count
    · subst hkc
      refine ⟨l, hl, .inr ⟨sort, s.nextName, ⟨s.nextName, sort, [], f.originOf k l⟩, hsort,
        if_pos rfl, ?_, rfl, rfl⟩⟩
      rw [Graph.declaration?, Graph.getElem?_declare]
      exact if_pos rfl
    · obtain ⟨l', hl', hne⟩ := hslot k (by omega)
      obtain ⟨l₁, hl₁, hcases⟩ := h.slots k (by omega)
      refine ⟨l₁, hl₁, ?_⟩
      rw [if_neg hne]
      refine hcases.imp id ?_
      rintro ⟨sort', n, d, hsort', hn, hd, hrest⟩
      exact ⟨sort', n, d, hsort', hn, hdecl n d hd, hrest⟩
  · rw [Graph.declaration?, Store.bound, Graph.getElem?_declare] at hd
    rw [Store.bound, Memory.set]
    simp only [hget]
    split at hd
    · next hindex =>
      have hname : n = s.nextName := Name.ext hindex
      exact ⟨Slot.of 0 count, by rw [if_pos rfl, hname]⟩
    · obtain ⟨x, hx⟩ := h.declared n d hd
      refine ⟨x, ?_⟩
      rw [if_neg ?_, hx]
      rintro rfl
      obtain ⟨-, k, hk, hxk⟩ := h.bound _ _ hx
      obtain ⟨-, -, hne⟩ := hslot k hk
      exact hne hxk.symm
  · rw [Store.bound, Memory.set, hget] at hx hy
    split at hx <;> split at hy
    · next h₁ h₂ => rw [h₁, h₂]
    · next h₁ h₂ =>
      cases hx
      exact absurd rfl (hnew y _ hy)
    · next h₁ h₂ =>
      cases hy
      exact absurd rfl (hnew x _ hx)
    · exact h.distinct x y n hx hy

/-- Values of the bound slots make a model. -/
theorem exists_model {σ : Int → Option Constant}
    (hσ : ∀ k, k < count → ∀ l sort, f.localVar? k = some l → l.type.sort = .ok sort →
      ∃ c, σ k = some c ∧ c.HasSort sort) : ∃ m : Model, m.Exact s.graph.scope ∧
      ∀ k n, k < count → s.memory.locals.get? (.of 0 k) = some ⟨n, false⟩ →
        m.get? n = σ k := by
  have hvalue : ∀ n, n.index < s.graph.decls.length → ∃ c,
      (∀ k, k < count → s.memory.locals.get? (.of 0 k) = some ⟨n, false⟩ → σ k = some c) ∧
        ∀ d, s.graph.declaration? n = some d → c.HasSort d.sort := by
    intro n hn
    obtain ⟨d, hd⟩ : ∃ d, s.graph.declaration? n = some d := ⟨_, List.getElem?_eq_getElem hn⟩
    obtain ⟨x, hx⟩ := h.declared n d hd
    obtain ⟨-, k, hk, rfl⟩ := h.bound x _ hx
    obtain ⟨l, hl, ⟨-, -, hnone⟩ | ⟨sort, n', d', hsort, hn', hd', hds, -⟩⟩ := h.slots k hk
    · rw [hx] at hnone
      cases hnone
    · obtain rfl : n = n' := by
        rw [hx] at hn'
        cases hn'
        rfl
      obtain ⟨c, hc, hcs⟩ := hσ k hk l sort hl hsort
      refine ⟨c, fun k' hk' hx' => ?_, fun d₁ hd₁ => ?_⟩
      · obtain ⟨l', hl', -⟩ := h.slots k' hk'
        have heq := h.distinct _ _ n hx' hx
        rw [(hf.slot_zero_eq_iff hl' hl).mp heq, hc]
      · rw [hd'] at hd₁
        cases hd₁
        rwa [hds]
  obtain ⟨m, hm⟩ := Model.exists_forall _ _ hvalue
  refine ⟨m, ?_, fun k n hk hx => ?_⟩
  · rintro n _ ⟨-, d, hd, rfl⟩
    obtain ⟨c, hc, -, hsort⟩ := hm n (lt_length_of_getElem? hd)
    exact ⟨c, hc, hsort d hd⟩
  · obtain ⟨l, -, ⟨-, -, hnone⟩ | ⟨sort, n', d, -, hn', hd, -⟩⟩ := h.slots k hk
    · rw [hx] at hnone
      cases hnone
    · rw [hx] at hn'
      cases hn'
      obtain ⟨c, hc, hval, -⟩ := hm n (lt_length_of_getElem? hd)
      rw [hc, hval k hk hx]

/-- Making the next slot hold a new name. -/
theorem bind (hs : s.Scoped) (hl : f.localVar? count = some l)
    (hsort : l.type.sort = .ok sort) (hb : Store.bind { function := f } ⟨count, 0⟩ s.nextName
      { s with graph := (s.graph.declare sort (f.originOf count l)).2 } = (.ok (), s')) :
    f.Entered (count + 1) s' := by
  obtain ⟨c, s₁, hc, rfl⟩ := Store.bind_eq_ok.mp hb
  obtain ⟨-, rfl, rfl⟩ := Store.resolveAt_zero_eq_ok.mp hc
  have hcell : s.memory.cellOf (.of 0 count) = .slot (.of 0 count) := by
    rw [Memory.cellOf, h.addrs]
  rw [hcell]
  exact h.bindNext hf hs hl hsort

theorem bindParameters {rest : Nat} (hs : s.Bare) (hc : count ≠ 0)
    (hb : Explorer.bindParameters f rest count s = (.ok (), s')) : f.Entered (count + rest) s' := by
  induction rest generalizing count s with
  | zero =>
    cases hb
    exact h
  | succ rest ih =>
    obtain ⟨l, sort, s₁, hl, hsort, hbind, hb₁⟩ := Explorer.bindParameters_succ_eq_ok hb
    have horigin : some ⟨f.name, count, Explorer.parameterLabel l count⟩ = f.originOf count l := by
      rw [originOf, if_neg hc]
    rw [horigin] at hbind
    have hs₁ : s₁.Bare :=
      (hs.declare (Ty.sort_cases hsort)).bind hs.scope.knows_nextName hbind
    have := ih (h.bind hf hs.scope hl hsort hbind) hs₁ (by omega) hb₁
    rwa [Nat.add_right_comm] at this

end Entered

/-- What entering a function binds. -/
theorem entered_of_enterFunction {s : Store} (hf : f.Addressable)
    (h : Explorer.enterFunction f {} = (.ok (), s)) : f.Entered (f.argCount.toNat + 1) s := by
  obtain ⟨result, rest, s₁, hlocals, -, hresult, hp⟩ := Explorer.enterFunction_eq_ok h
  have hl : f.localVar? 0 = some result := by rw [localVar?, nth?, hlocals]; rfl
  rw [Nat.add_comm]
  rcases hresult with ⟨⟨err, hsort⟩, rfl⟩ | ⟨⟨sort, hsort⟩, n, hw⟩
  · exact (Entered.unsorted hl hsort).bindParameters hf Store.bare_empty one_ne_zero hp
  · have hs₁ : s₁.Bare := Store.bare_empty.writeFresh hw
    refine Entered.bindParameters ?_ hf hs₁ one_ne_zero hp
    obtain ⟨sort', c, s₂, hsort', hc, rfl, rfl⟩ := Store.writeFresh_eq_ok.mp hw
    obtain ⟨-, rfl, rfl⟩ := Store.resolveAt_zero_eq_ok.mp hc
    obtain rfl : sort = sort' := by
      have hplace : f.placeSort ⟨0, 0⟩ = result.type.sort := by
        rw [placeSort, placeType, hl]
        rfl
      rw [hplace, hsort] at hsort'
      exact Except.ok.inj hsort'
    exact (Entered.empty f).bindNext hf Store.bare_empty.scope hl hsort

end Function

/-- The model gives the parameters of an exploration these values.  The names of parameters are
those that have an origin. -/
def Graph.Reads (g : Graph) (m : Model) (args : List Constant) : Prop :=
  ∀ n d o, g.declaration? n = some d → d.origin = some o → m.get? n = nth? args (o.index - 1)

namespace Explorer

variable {s₀ : Store} {e : Explorer} {vs : List Visit} {m : Model}

/-- Every visit knows the names that are bound at the entry. -/
theorem Logged.knows_of_mentions (hl : Logged s₀ e vs) {j : Nat} {w : Visit} {n : Name}
    (hw : vs[j]? = some w) (hn : s₀.memory.Mentions n) :
    w.entered.store.Knows (fun _ => True) n := by
  have hs₀ := (enterFunction_bare Store.bare_empty hl.entered).scope
  exact ⟨trivial, Nat.lt_of_lt_of_le (hs₀.mentions n hn).2 (hl.based j w hw).length_le⟩

/-- The names with an origin are those that the parameters are bound to at the entry. -/
theorem Logged.reads_iff (hl : Logged s₀ e vs) (hf : e.entry.Addressable) {args : List Constant} :
    e.graph.Reads m args ↔ e.entry.Given s₀ m args := by
  have hent := Function.entered_of_enterFunction hf hl.entered
  have hindex : ∀ k, nth? args ((k + 1 : Nat) - 1 : Int) = args[k]? := by
    intro k
    rw [nth?, if_neg (by omega)]
    congr 1
    omega
  constructor
  · intro h k n hk hn
    obtain ⟨l, -, ⟨h₀, -⟩ | ⟨sort, n', d, -, hn', hd, -, ho⟩⟩ := hent.slots (k + 1) (by omega)
    · omega
    · rw [hn] at hn'
      cases hn'
      obtain ⟨d', hd', hext⟩ := hl.base.decls n.index d hd
      have horigin : d'.origin = some ⟨e.entry.name, (k + 1 : Nat), parameterLabel l (k + 1)⟩ := by
        rw [hext.origin, ho, Function.originOf, if_neg (by omega)]
      rw [h n d' _ hd' horigin, ← hindex k]
  · intro h n d o hd ho
    have hlt := hl.origins n.index d hd (by rw [ho]; simp)
    obtain ⟨d₀, hd₀⟩ : ∃ d₀, s₀.graph.declaration? n = some d₀ := ⟨_, List.getElem?_eq_getElem hlt⟩
    obtain ⟨d', hd', hext⟩ := hl.base.decls n.index d₀ hd₀
    have heq : d' = d := Option.mem_unique hd' hd
    obtain ⟨x, hx⟩ := hent.declared n d₀ hd₀
    obtain ⟨-, k, hk, rfl⟩ := hent.bound x _ hx
    obtain ⟨l, -, ⟨-, -, hnone⟩ | ⟨sort, n', d₁, -, hn', hd₁, -, ho₁⟩⟩ := hent.slots k hk
    · rw [hx] at hnone
      cases hnone
    · rw [hx] at hn'
      cases hn'
      have horigin : e.entry.originOf k l = some o := by
        have hd₀₁ : d₁ = d₀ := Option.mem_unique hd₁ hd₀
        rw [← ho₁, hd₀₁, ← hext.origin, heq, ho]
      rw [Function.originOf] at horigin
      split at horigin
      · cases horigin
      · next hk₀ =>
        cases horigin
        obtain ⟨k, rfl⟩ := Nat.exists_eq_succ_of_ne_zero hk₀
        rw [h k n (by omega) hx]
        exact (hindex k).symm

end Explorer
end NullPath
