import NullPath.Proofs.Actions
import NullPath.Proofs.Values

/-!
# How a store grows while a node is built

Executing a block touches one node.  Everything else in the graph only grows: assertions are
appended to this node, new names are declared, and names get tags for this node.  The names that
an execution meets are those that its memory mentions and those that it declares, so a set of
names that contains both is never left.

The facts come in two kinds only: a name that has just been declared equals a term over older names,
or a name that has just been declared is an address and not zero.  The fact of an `assert` is the
one exception, and it is recorded after everything else.  So a block is a list of definitions with
quiet changes in between, and whatever holds of a single definition, of a quiet change and of one
change after the other holds of a block.

* `Graph.Grows`: the growth of a graph, with the assertions that were appended.
* `Memory.Mentions`: the names in a memory.
* `Store.Scoped`: a set of names that contains those of the memory and all later ones.
* `Store.Evolves`: a store grows, stays in its scope, and asserts and tags only what is in scope.
* `Machine.block_unfolds`: a block records definitions, up to the fact of an `assert`.
-/

namespace NullPath

open Graph

/-! ## Growth of a graph -/

/-- A declaration gains tags for one node. -/
structure Declaration.Gains (i : Int) (d d' : Declaration) : Prop where
  name : d'.name = d.name
  sort : d'.sort = d.sort
  origin : d'.origin = d.origin
  derefs : ∃ ts, d'.derefs = d.derefs ++ ts ∧ ∀ t ∈ ts, t.node = i

namespace Declaration.Gains

variable {i : Int} {d d' d'' : Declaration}

theorem refl {i : Int} {d : Declaration} : d.Gains i d :=
  ⟨rfl, rfl, rfl, [], by simp, by simp⟩

theorem trans (h : d.Gains i d') (h' : d'.Gains i d'') : d.Gains i d'' := by
  obtain ⟨ts, hts, hn⟩ := h.derefs
  obtain ⟨ts', hts', hn'⟩ := h'.derefs
  refine ⟨h'.name.trans h.name, h'.sort.trans h.sort, h'.origin.trans h.origin, ts ++ ts', ?_, ?_⟩
  · rw [hts', hts, List.append_assoc]
  · intro t ht
    rcases List.mem_append.mp ht with ht | ht
    · exact hn t ht
    · exact hn' t ht

end Declaration.Gains

namespace Graph

variable {i : Int} {es es' : List Expr} {g g' g'' : Graph} {sort : ExprSort} {o : Option Origin}

/-- Names are numbered in the order of declaration, and each has a sort that values have. -/
def Tidy (g : Graph) : Prop :=
  ∀ (k : Nat) d, g.decls[k]? = some d → d.name = ⟨k⟩ ∧ (d.sort = .int ∨ d.sort = .bool)

/-- The name is declared with the sort. -/
def Declares (g : Graph) (n : Name) (s : ExprSort) : Prop :=
  ∃ d, g.declaration? n = some d ∧ d.sort = s

/-- The declared names of a set, with their sorts. -/
def scope (g : Graph) (P : Name → Prop := fun _ => True) : Scope :=
  fun n s => P n ∧ g.Declares n s

/-- The declared names of a set with the sorts they are used with.  A name whose value is taken
as an address is used as a number, whatever it was declared as. -/
def uses (g : Graph) (P : Name → Prop := fun _ => True) : Scope :=
  fun n s => P n ∧ ∃ d, g.declaration? n = some d ∧ (s = d.sort ∨ s = .int)

theorem scope_le_uses (g : Graph) (P : Name → Prop) : (g.scope P).Le (g.uses P) := by
  rintro n s ⟨hn, d, hd, rfl⟩
  exact ⟨hn, d, hd, .inl rfl⟩

theorem getElem?_declare (k : Nat) :
    (g.declare sort o).2.decls[k]? =
      if k = g.decls.length then some ⟨⟨k⟩, sort, [], o⟩ else g.decls[k]? := by
  rw [declare, List.getElem?_append]
  by_cases hk : k = g.decls.length
  · subst hk
    simp
  · rw [if_neg hk]
    split
    · rfl
    · rw [List.getElem?_eq_none (by simp; omega), List.getElem?_eq_none (by omega)]

theorem length_declare : (g.declare sort o).2.decls.length = g.decls.length + 1 := by
  simp [declare]

/-- A tag is appended to the declaration of its name, and to no other. -/
theorem getElem?_tag {n : Name} {t : DerefTag} {k : Nat} {d : Declaration}
    (hd : g.decls[k]? = some d) :
    (g.decls.modify n.index fun d => { d with derefs := d.derefs ++ [t] })[k]? =
      some (if n.index = k then { d with derefs := d.derefs ++ [t] } else d) := by
  rw [List.getElem?_modify, hd]
  by_cases hk : n.index = k <;> simp [hk]

theorem exists_of_getElem?_tag {n : Name} {t : DerefTag} {k : Nat} {d' : Declaration}
    (h : (g.decls.modify n.index fun d => { d with derefs := d.derefs ++ [t] })[k]? = some d') :
    ∃ d, g.decls[k]? = some d ∧
      d' = if n.index = k then { d with derefs := d.derefs ++ [t] } else d := by
  have hlt := lt_length_of_getElem? h
  rw [List.length_modify] at hlt
  have hd := List.getElem?_eq_getElem hlt
  exact ⟨_, hd, Option.some.inj (h.symm.trans (getElem?_tag hd))⟩

theorem Tidy.declare (h : g.Tidy) (hsort : sort = .int ∨ sort = .bool) :
    (g.declare sort o).2.Tidy := by
  intro k d hd
  rw [getElem?_declare] at hd
  split at hd
  · cases hd
    exact ⟨rfl, hsort⟩
  · exact h k d hd

theorem Tidy.tag (h : g.Tidy) (n : Name) (t : DerefTag) :
    Tidy { g with decls := g.decls.modify n.index fun d => { d with derefs := d.derefs ++ [t] } } := by
  intro k d' hd'
  obtain ⟨d, hd, rfl⟩ := exists_of_getElem?_tag hd'
  have htidy := h k d hd
  split <;> exact htidy

/-- While a node is built, assertions are appended to it, names are declared, and tags for the
node are added. -/
structure Grows (i : Int) (es : List Expr) (g g' : Graph) : Prop where
  tidy : g.Tidy → g'.Tidy
  nodes : g'.nodes = g.nodes.modify i.toNat fun n => { n with exprs := n.exprs ++ es }
  decls : ∀ (k : Nat) d, g.decls[k]? = some d → ∃ d', g'.decls[k]? = some d' ∧ d.Gains i d'
  fresh : ∀ (k : Nat) d, g.decls.length ≤ k → g'.decls[k]? = some d →
    d.origin = none ∧ ∀ t ∈ d.derefs, t.node = i

namespace Grows

theorem node? (h : Grows i es g g') (j : Int) :
    g'.node? j = (g.modifyNode i fun n => { n with exprs := n.exprs ++ es }).node? j := by
  rw [Graph.node?, Graph.node?, h.nodes]
  rfl

theorem of_decls (ht : g.Tidy → g'.Tidy) (hn : g'.nodes = g.nodes)
    (hd : ∀ (k : Nat) d, g.decls[k]? = some d → ∃ d', g'.decls[k]? = some d' ∧ d.Gains i d')
    (hf : ∀ k d, g.decls.length ≤ k → g'.decls[k]? = some d →
      d.origin = none ∧ ∀ t ∈ d.derefs, t.node = i) : Grows i [] g g' := by
  refine ⟨ht, ?_, hd, hf⟩
  rw [hn]
  simp only [List.append_nil]
  exact (List.modify_id _ _).symm

theorem refl {i : Int} {g : Graph} : Grows i [] g g := by
  refine of_decls id rfl (fun k d hd => ⟨d, hd, .refl⟩) fun k d hk hd => ?_
  rw [List.getElem?_eq_none hk] at hd
  cases hd

theorem declare (i : Int) (g : Graph) (hsort : sort = .int ∨ sort = .bool) :
    Grows i [] g (g.declare sort none).2 := by
  refine of_decls (·.declare hsort) rfl (fun k d hd => ⟨d, ?_, .refl⟩) fun k d hk hd => ?_
  · have hk := lt_length_of_getElem? hd
    rw [getElem?_declare, if_neg (by omega), hd]
  · rw [getElem?_declare] at hd
    split at hd
    · cases hd
      simp
    · rw [List.getElem?_eq_none hk] at hd
      cases hd

theorem tag {t : DerefTag} (ht : t.node = i) (g : Graph) (n : Name) :
    Grows i [] g { g with decls := g.decls.modify n.index fun d =>
      { d with derefs := d.derefs ++ [t] } } := by
  refine of_decls (·.tag n t) rfl (fun k d hd => ⟨_, getElem?_tag hd, ?_⟩) fun k d hk hd => ?_
  · split
    · exact ⟨rfl, rfl, rfl, _, rfl, by simp [ht]⟩
    · exact .refl
  · rw [List.getElem?_eq_none (by simpa using hk)] at hd
    cases hd

theorem assert (i : Int) (g : Graph) (e : Expr) :
    Grows i [e] g (g.modifyNode i fun n => { n with exprs := n.exprs ++ [e] }) := by
  refine ⟨id, rfl, fun k d hd => ⟨d, hd, .refl⟩, fun k d hk hd => ?_⟩
  rw [modifyNode, List.getElem?_eq_none hk] at hd
  cases hd

variable (h : Grows i es g g')
include h

theorem length_le : g.decls.length ≤ g'.decls.length := by
  by_contra hlt
  obtain ⟨d', hd', -⟩ := h.decls _ _ (List.getElem?_eq_getElem (Nat.not_le.mp hlt))
  exact absurd (lt_length_of_getElem? hd') (Nat.lt_irrefl _)

/-- A declaration is a new one, or it was there before. -/
theorem new_or_gains {k : Nat} {d' : Declaration} (hd' : g'.decls[k]? = some d') :
    (g.decls.length ≤ k ∧ d'.origin = none ∧ ∀ t ∈ d'.derefs, t.node = i) ∨
      ∃ d, g.decls[k]? = some d ∧ d.Gains i d' := by
  by_cases hk : g.decls.length ≤ k
  · exact .inl ⟨hk, h.fresh k d' hk hd'⟩
  · have hd := List.getElem?_eq_getElem (Nat.lt_of_not_le hk)
    obtain ⟨d₁, hd₁, hgain⟩ := h.decls k _ hd
    obtain rfl := Option.mem_unique hd₁ hd'
    exact .inr ⟨_, hd, hgain⟩

/-- A tag was made at the node, or it was there before. -/
theorem node_or_tag {k : Nat} {d' : Declaration} {t : DerefTag} (hd' : g'.decls[k]? = some d')
    (ht : t ∈ d'.derefs) : t.node = i ∨ ∃ d, g.decls[k]? = some d ∧ t ∈ d.derefs := by
  rcases h.new_or_gains hd' with ⟨-, -, hnode⟩ | ⟨d, hd, hgain⟩
  · exact .inl (hnode t ht)
  · obtain ⟨ts, hts, hnode⟩ := hgain.derefs
    rw [hts, List.mem_append] at ht
    exact ht.symm.imp (hnode t) fun ht => ⟨d, hd, ht⟩

theorem trans (h' : Grows i es' g' g'') : Grows i (es ++ es') g g'' := by
  refine ⟨h'.tidy ∘ h.tidy, ?_, ?_, ?_⟩
  · rw [h'.nodes, h.nodes, List.modify_modify_eq]
    congr 1
    funext n
    simp
  · intro k d hd
    obtain ⟨d', hd', hg⟩ := h.decls k d hd
    obtain ⟨d'', hd'', hg'⟩ := h'.decls k d' hd'
    exact ⟨d'', hd'', hg.trans hg'⟩
  · intro k d'' hk hd''
    rcases h'.new_or_gains hd'' with ⟨-, hnew⟩ | ⟨d', hd', hg⟩
    · exact hnew
    · obtain ⟨ho, ht⟩ := h.fresh k d' hk hd'
      refine ⟨hg.origin.trans ho, fun t htm => ?_⟩
      rcases h'.node_or_tag hd'' htm with hn | ⟨d₁, hd₁, htm⟩
      · exact hn
      · exact ht t (Option.mem_unique hd₁ hd' ▸ htm)

theorem declares {n : Name} {s : ExprSort} (hn : g.Declares n s) : g'.Declares n s := by
  obtain ⟨d, hd, rfl⟩ := hn
  obtain ⟨d', hd', hg⟩ := h.decls n.index d hd
  exact ⟨d', hd', hg.sort⟩

theorem scope_le (P : Name → Prop) : (g.scope P).Le (g'.scope P) :=
  fun _ _ hn => ⟨hn.1, h.declares hn.2⟩

theorem uses_le (P : Name → Prop) : (g.uses P).Le (g'.uses P) := by
  rintro n s ⟨hn, d, hd, hs⟩
  obtain ⟨d', hd', hg⟩ := h.decls n.index d hd
  exact ⟨hn, d', hd', by rwa [hg.sort]⟩

/-- A name that was declared before keeps its sort. -/
theorem declares_iff {n : Name} {s : ExprSort} (hn : n.index < g.decls.length) :
    g'.Declares n s ↔ g.Declares n s := by
  refine ⟨?_, h.declares⟩
  rintro ⟨d', hd', rfl⟩
  rcases h.new_or_gains hd' with ⟨hle, -⟩ | ⟨d, hd, hg⟩
  · omega
  · exact ⟨d, hd, hg.sort.symm⟩

end Grows

end Graph

/-! ## The names of a memory -/

namespace Memory

/-- The name occurs in the memory: as a value, as an address, or as a pointer with something
behind it. -/
inductive Mentions (m : Memory) : Name → Prop
  | value {x : Slot} {b : Binding} : m.locals.get? x = some b → m.Mentions b.name
  | address {x : Slot} {n : Name} : m.addrs.get? x = some n → m.Mentions n
  | pointer {p : Name} {b : Binding} : m.pointees.get? p = some b → m.Mentions p
  | pointee {p : Name} {b : Binding} : m.pointees.get? p = some b → m.Mentions b.name

variable {m : Memory} {n : Name} {c : Cell} {b : Binding} {x : Slot}

theorem Mentions.of_get? (h : m.get? c = some b) : m.Mentions b.name := by
  cases c with
  | slot x => exact .value h
  | behind p => exact .pointee h

theorem Mentions.of_cellOf {p : Name} (h : m.cellOf x = .behind p) : m.Mentions p := by
  unfold cellOf at h
  split at h
  · next a ha =>
    cases h
    exact .address ha
  · cases h

theorem Mentions.of_set (h : (m.set c b).Mentions n) :
    m.Mentions n ∨ n = b.name ∨ c = .behind n := by
  cases c with
  | slot x =>
    cases h with
    | value hv =>
      rcases Assoc.get?_of_insert hv with ⟨-, rfl⟩ | hv
      · exact .inr (.inl rfl)
      · exact .inl (.value hv)
    | address ha => exact .inl (.address ha)
    | pointer hp => exact .inl (.pointer hp)
    | pointee hp => exact .inl (.pointee hp)
  | behind q =>
    cases h with
    | value hv => exact .inl (.value hv)
    | address ha => exact .inl (.address ha)
    | pointer hp =>
      rcases Assoc.get?_of_insert hp with ⟨rfl, -⟩ | hp
      · exact .inr (.inr rfl)
      · exact .inl (.pointer hp)
    | pointee hp =>
      rcases Assoc.get?_of_insert hp with ⟨-, rfl⟩ | hp
      · exact .inr (.inl rfl)
      · exact .inl (.pointee hp)

theorem Mentions.of_unbind (h : (m.unbind x).Mentions n) : m.Mentions n := by
  cases h with
  | value hv => exact .value (Assoc.get?_erase_eq_some.mp hv).2
  | address ha => exact .address (Assoc.get?_erase_eq_some.mp ha).2
  | pointer hp => exact .pointer hp
  | pointee hp => exact .pointee hp

theorem Mentions.of_drop {depth : Int} (h : (m.drop depth).Mentions n) : m.Mentions n := by
  cases h with
  | value hv => exact .value (Assoc.get?_filterKeys_eq_some.mp hv).2
  | address ha => exact .address (Assoc.get?_filterKeys_eq_some.mp ha).2
  | pointer hp => exact .pointer hp
  | pointee hp => exact .pointee hp

theorem Mentions.of_giveAddress {a : Name} (h : (m.giveAddress x a).Mentions n) :
    m.Mentions n ∨ n = a := by
  unfold giveAddress at h
  split at h
  · next b hb =>
    cases h with
    | value hv => exact .inl (.value (Assoc.get?_erase_eq_some.mp hv).2)
    | address ha =>
      rcases Assoc.get?_of_insert ha with ⟨-, rfl⟩ | ha
      · exact .inr rfl
      · exact .inl (.address ha)
    | pointer hp =>
      rcases Assoc.get?_of_insert hp with ⟨hq, -⟩ | hp
      · exact .inr hq
      · exact .inl (.pointer hp)
    | pointee hp =>
      rcases Assoc.get?_of_insert hp with ⟨-, rfl⟩ | hp
      · exact .inl (.value hb)
      · exact .inl (.pointee hp)
  · cases h with
    | value hv => exact .inl (.value hv)
    | address ha =>
      rcases Assoc.get?_of_insert ha with ⟨-, rfl⟩ | ha
      · exact .inr rfl
      · exact .inl (.address ha)
    | pointer hp => exact .inl (.pointer hp)
    | pointee hp => exact .inl (.pointee hp)

end Memory

theorem Ty.sort_cases {t : Ty} {sort : ExprSort} (h : t.sort = .ok sort) :
    sort = .int ∨ sort = .bool := by
  unfold Ty.sort at h
  split at h
  · cases h
  · cases h
    exact .inr rfl
  · cases h
    exact .inl rfl
  · cases h
    exact .inl rfl
  · cases h

theorem Function.placeSort_cases {f : Function} {p : Place} {sort : ExprSort}
    (h : f.placeSort p = .ok sort) : sort = .int ∨ sort = .bool := by
  unfold Function.placeSort at h
  split at h
  · exact Ty.sort_cases h
  · cases h

/-! ## Code without division -/

/-- The right-hand side divides nothing. -/
def Rvalue.DivisionFree : Rvalue → Prop
  | .binary op _ _ => op ≠ .div ∧ op ≠ .rem
  | _ => True

/-- The statement divides nothing. -/
def Statement.DivisionFree : Statement → Prop
  | .assign _ rv _ => rv.DivisionFree
  | _ => True

/-- The function divides nothing. -/
def Function.DivisionFree (f : Function) : Prop :=
  ∀ b ∈ f.blocks, ∀ st ∈ b.statements, st.DivisionFree

/-! ## Scopes of a store -/

namespace Store

variable {P : Name → Prop} {i : Int} {es es' : List Expr} {s s' s'' : Store} {n : Name} {c : Cell}
  {sort : ExprSort} {o : Option Origin}

/-- The name is declared and belongs to the set. -/
def Knows (P : Name → Prop) (s : Store) (n : Name) : Prop :=
  P n ∧ n.index < s.graph.decls.length

/-- A set of names that contains the names of the memory and all names still to be declared. -/
structure Scoped (P : Name → Prop := fun _ => True) (s : Store) : Prop where
  tidy : s.graph.Tidy
  fresh : ∀ n : Name, s.graph.decls.length ≤ n.index → P n
  mentions : ∀ n, s.memory.Mentions n → s.Knows P n

/-- Scopes depend on the declared names and the memory alone. -/
theorem Scoped.of_decls_eq {g : Graph} (hs : s.Scoped P) (h : g.decls = s.graph.decls) :
    Scoped P ⟨g, s.memory⟩ := by
  refine ⟨fun k d hd => hs.tidy k d (by rw [← h]; exact hd), fun n hn => hs.fresh n ?_,
    fun n hn => ?_⟩
  · rw [← h]
    exact hn
  · have := hs.mentions n hn
    exact ⟨this.1, by rw [h]; exact this.2⟩

/-- The cell is a slot, or lies behind a pointer that is in scope. -/
def Locates (P : Name → Prop) (s : Store) (c : Cell) : Prop :=
  ∀ p, c = .behind p → s.Knows P p

/-- The store grows at a node.  It stays in scope, and so do the new assertions and the names that
are tagged. -/
structure Evolves (P : Name → Prop) (i : Int) (es : List Expr) (s s' : Store) : Prop where
  grows : s.graph.Grows i es s'.graph
  scope : s'.Scoped P
  asserts : ∀ e ∈ es, e.HasSort (s'.graph.uses P) .bool
  tags : ∀ (k : Nat) d d', s.graph.decls[k]? = some d → s'.graph.decls[k]? = some d' →
    d'.derefs ≠ d.derefs → P ⟨k⟩

namespace Evolves

theorem trans (h : s.Evolves P i es s') (h' : s'.Evolves P i es' s'') :
    s.Evolves P i (es ++ es') s'' := by
  refine ⟨h.grows.trans h'.grows, h'.scope, fun e he => ?_, fun k d d'' hd hd'' hne => ?_⟩
  · rcases List.mem_append.mp he with he | he
    · exact (h.asserts e he).mono (h'.grows.uses_le P)
    · exact h'.asserts e he
  · obtain ⟨d', hd', -⟩ := h.grows.decls k d hd
    by_cases heq : d'.derefs = d.derefs
    · exact h'.tags k d' d'' hd' hd'' (by rwa [heq])
    · exact h.tags k d d' hd hd' heq

theorem knows (h : s.Evolves P i es s') (hn : s.Knows P n) : s'.Knows P n :=
  ⟨hn.1, Nat.lt_of_lt_of_le hn.2 h.grows.length_le⟩

theorem locates (h : s.Evolves P i es s') (hc : s.Locates P c) : s'.Locates P c :=
  fun p hp => h.knows (hc p hp)

variable (hs : s.Scoped P)
include hs

/-- A change of the memory that brings in only known names. -/
theorem of_memory {memory : Memory} (hm : ∀ n, memory.Mentions n → s.Knows P n) :
    s.Evolves P i [] { s with memory } := by
  refine ⟨.refl, ⟨hs.tidy, hs.fresh, hm⟩, by simp, fun k d d' hd hd' hne => ?_⟩
  rw [hd] at hd'
  cases hd'
  exact absurd rfl hne

theorem refl : s.Evolves P i [] s :=
  of_memory hs hs.mentions

/-- The memory may be put back to what it was before a change. -/
theorem back (h : s.Evolves P i es s') : s'.Evolves P i [] { s' with memory := s.memory } :=
  of_memory h.scope fun n hn => h.knows (hs.mentions n hn)

theorem drop (depth : Int) : s.Evolves P i [] { s with memory := s.memory.drop depth } :=
  of_memory hs fun n hn => hs.mentions n hn.of_drop

theorem bound {b : Binding} (hc : s.Locates P c) (hb : s.Knows P b.name) :
    s.Evolves P i [] (s.bound c b) := by
  refine of_memory hs fun n hn => ?_
  rcases hn.of_set with hn | rfl | hn
  · exact hs.mentions n hn
  · exact hb
  · exact hc n hn

theorem unbound {x : Slot} : s.Evolves P i [] (s.unbound x) :=
  of_memory hs fun n hn => hs.mentions n hn.of_unbind

end Evolves

theorem Scoped.declare (hs : s.Scoped P) (hsort : sort = .int ∨ sort = .bool) :
    Scoped P { s with graph := (s.graph.declare sort o).2 } := by
  refine ⟨hs.tidy.declare hsort, ?_, ?_⟩
  · intro n hn
    rw [length_declare] at hn
    exact hs.fresh n (by omega)
  · intro n hn
    have := hs.mentions n hn
    refine ⟨this.1, ?_⟩
    rw [length_declare]
    exact Nat.lt_succ_of_lt this.2

/-- A name that has just been declared is in scope. -/
theorem Scoped.knows_nextName (hs : s.Scoped P) :
    Knows P { s with graph := (s.graph.declare sort o).2 } s.nextName := by
  refine ⟨hs.fresh _ (Nat.le_refl _), ?_⟩
  rw [length_declare]
  exact Nat.lt_succ_self _

namespace Evolves

variable (hs : s.Scoped P)
include hs

theorem declared (hsort : sort = .int ∨ sort = .bool) : s.Evolves P i [] (s.declared sort) := by
  refine ⟨.declare i _ hsort, hs.declare hsort, by simp, fun k d d' hd hd' hne => ?_⟩
  have hk := lt_length_of_getElem? hd
  rw [Store.declared, getElem?_declare, if_neg (by omega), hd] at hd'
  cases hd'
  exact absurd rfl hne

theorem declared_bound (hsort : sort = .int ∨ sort = .bool) (hc : s.Locates P c) :
    s.Evolves P i [] ((s.declared sort).bound c ⟨s.nextName, false⟩) := by
  have hd : s.Evolves P i [] (s.declared sort) := declared hs hsort
  exact hd.trans (bound hd.scope (hd.locates hc) hs.knows_nextName)

theorem addressed {x : Slot} : s.Evolves P i [] (s.addressed x) := by
  have hd : s.Evolves P i [] (s.declared .int) := declared hs (.inl rfl)
  refine hd.trans (of_memory hd.scope fun n hn => ?_)
  rcases hn.of_giveAddress with hn | rfl
  · exact hd.scope.mentions n hn
  · exact hs.knows_nextName

theorem tagged {env : Env} {d : Declaration} (hn : s.Knows P n) :
    s.Evolves P env.node [] (s.tagged env n d) := by
  unfold Store.tagged
  split
  · exact refl hs
  · refine ⟨.tag (t := ⟨env.node, env.span⟩) rfl _ _, ⟨hs.tidy.tag n _, ?_, ?_⟩, by simp, ?_⟩
    · intro n hn
      rw [List.length_modify] at hn
      exact hs.fresh n hn
    · intro n hn
      have := hs.mentions n hn
      simpa [Knows] using this
    · intro k d₁ d₂ hd₁ hd₂ hne
      rw [getElem?_tag hd₁, Option.some.injEq] at hd₂
      by_cases hk : n.index = k
      · subst hk
        exact hn.1
      · rw [if_neg hk] at hd₂
        rw [hd₂] at hne
        exact absurd rfl hne

theorem asserted {e : Expr} (he : e.HasSort (s.graph.uses P) .bool) :
    s.Evolves P i [e] (s.asserted i e) := by
  refine ⟨.assert i _ e, ⟨hs.tidy, hs.fresh, hs.mentions⟩, ?_, ?_⟩
  · intro e' he'
    obtain rfl := List.mem_singleton.mp he'
    exact he
  · intro k d d' hd hd' hne
    rw [Store.asserted, modifyNode, hd] at hd'
    cases hd'
    exact absurd rfl hne

end Evolves

/-! ## Reading and writing -/

variable {env : Env} {p : Place} {base : Int} {k : Nat} {d : Declaration} {e value : Expr}
  {rv : Rvalue}

section
variable (hs : s.Scoped P)
include hs

theorem Scoped.locates_cellOf (x : Slot) : s.Locates P (s.memory.cellOf x) :=
  fun p hp => hs.mentions p (.of_cellOf hp)

theorem Scoped.readCell (hc : s.Locates P c) (h : readCell env p c s = (.ok n, s')) :
    s.Evolves P i [] s' ∧ s'.Knows P n := by
  rcases readCell_eq_ok h with ⟨hget, rfl⟩ | ⟨-, -, sort, hsort, rfl, rfl⟩
  · exact ⟨.refl hs, hs.mentions n (.of_get? hget)⟩
  · exact ⟨.declared_bound hs (Function.placeSort_cases hsort) hc, hs.knows_nextName⟩

theorem Scoped.resolveAt (h : resolveAt env base k s = (.ok c, s')) :
    s.Evolves P env.node [] s' ∧ s'.Locates P c := by
  induction k generalizing c s' with
  | zero =>
    obtain ⟨-, rfl, rfl⟩ := resolveAt_zero_eq_ok.mp h
    exact ⟨.refl hs, hs.locates_cellOf _⟩
  | succ k ih =>
    obtain ⟨c₀, s₁, pointer, s₂, d, hc₀, hp, -, rfl, rfl⟩ := resolveAt_succ_eq_ok h
    obtain ⟨h₁, hl⟩ := ih hc₀
    obtain ⟨h₂, hk⟩ := h₁.scope.readCell (i := env.node) hl hp
    have h₃ : s₂.Evolves P env.node [] (s₂.tagged env pointer d) := .tagged h₂.scope hk
    refine ⟨(h₁.trans h₂).trans h₃, fun q hq => ?_⟩
    cases hq
    exact h₃.knows hk

theorem Scoped.resolve (h : resolve env p s = (.ok c, s')) :
    s.Evolves P env.node [] s' ∧ s'.Locates P c :=
  hs.resolveAt h

theorem Scoped.readCopy (h : readCopy env p s = (.ok n, s')) :
    s.Evolves P env.node [] s' ∧ s'.Knows P n := by
  obtain ⟨c, s₁, hc, hn⟩ := readCopy_eq_ok.mp h
  obtain ⟨h₁, hl⟩ := hs.resolve hc
  obtain ⟨h₂, hk⟩ := h₁.scope.readCell hl hn
  exact ⟨h₁.trans h₂, hk⟩

theorem Scoped.readMove (h : readMove env p s = (.ok n, s')) :
    s.Evolves P env.node [] s' ∧ s'.Knows P n := by
  obtain ⟨s₁, c, s₂, hn, hc, rfl⟩ := readMove_eq_ok.mp h
  obtain ⟨h₁, hk⟩ := hs.readCopy hn
  obtain ⟨h₂, hl⟩ := h₁.scope.resolve hc
  exact ⟨(h₁.trans h₂).trans (.bound h₂.scope hl (h₂.knows hk)), h₂.knows hk⟩

theorem Scoped.bind (hn : s.Knows P n) (h : bind env p n s = (.ok (), s')) :
    s.Evolves P env.node [] s' := by
  obtain ⟨c, s₁, hc, rfl⟩ := bind_eq_ok.mp h
  obtain ⟨h₁, hl⟩ := hs.resolve hc
  exact h₁.trans (.bound h₁.scope hl (h₁.knows hn))

theorem Scoped.writeFresh (h : writeFresh env p s = (.ok n, s')) :
    s.Evolves P env.node [] s' ∧ s'.Knows P n := by
  obtain ⟨sort, c, s₁, hsort, hc, rfl, rfl⟩ := writeFresh_eq_ok.mp h
  obtain ⟨h₁, hl⟩ := hs.resolve hc
  exact ⟨h₁.trans (.declared_bound h₁.scope (Function.placeSort_cases hsort) hl),
    h₁.scope.knows_nextName⟩

theorem Scoped.ref {isNew : Bool} (h : ref env p s = (.ok (n, isNew), s')) :
    s.Evolves P env.node [] s' ∧ s'.Knows P n := by
  rcases ref_eq_ok h with ⟨q, -, -, hq⟩ | ⟨-, -, ⟨ha, -, rfl⟩ | ⟨-, -, rfl, rfl⟩⟩
  · exact hs.readCopy hq
  · exact ⟨.refl hs, hs.mentions n (.address ha)⟩
  · exact ⟨.addressed hs, hs.knows_nextName⟩

end

/-! ## Values and statements -/

/-- A known name as a term. -/
theorem Scoped.sorted_expr (hs : s.Scoped P) (hn : s.Knows P n)
    (hd : s.graph.declaration? n = some d) : d.expr.HasSort (s.graph.scope P) d.sort := by
  obtain ⟨hname, hsort⟩ := hs.tidy n.index d hd
  refine ⟨?_, rfl⟩
  rw [Declaration.expr, hname]
  exact ⟨⟨hn.1, d, hd, rfl⟩, hsort⟩

/-- A known name is the same term before and after a change. -/
theorem Evolves.sorted_expr (h : s.Evolves P i es s') (hs : s.Scoped P) (hn : s.Knows P n)
    (hd : s'.graph.declaration? n = some d) : d.expr.Sorted (s.graph.scope P) := by
  obtain ⟨d', hd', hgain⟩ := h.grows.decls n.index _ (List.getElem?_eq_getElem hn.2)
  obtain rfl := Option.mem_unique hd' hd
  rw [Declaration.expr, hgain.name, hgain.sort]
  exact (hs.sorted_expr hn (List.getElem?_eq_getElem hn.2)).sorted

theorem Scoped.operand {x : Operand} (hs : s.Scoped P) (h : operand env x s = (.ok e, s')) :
    s.Evolves P env.node [] s' ∧ e.Sorted (s'.graph.scope P) ∧ e.DivisionFree := by
  cases x with
  | copy p =>
    obtain ⟨n, d, hn, hd, rfl⟩ := operand_copy_eq_ok.mp h
    obtain ⟨h₁, hk⟩ := hs.readCopy hn
    exact ⟨h₁, (h₁.scope.sorted_expr hk hd).sorted, trivial⟩
  | move p =>
    obtain ⟨n, d, hn, hd, rfl⟩ := operand_move_eq_ok.mp h
    obtain ⟨h₁, hk⟩ := hs.readMove hn
    exact ⟨h₁, (h₁.scope.sorted_expr hk hd).sorted, trivial⟩
  | const v t =>
    obtain ⟨sort, hsort, rfl, rfl⟩ := operand_const_eq_ok.mp h
    refine ⟨.refl hs, ?_⟩
    split
    · exact ⟨Expr.sorted_bool _ _, trivial⟩
    · exact ⟨Expr.sorted_int _ _, trivial⟩
  | missing => exact absurd h Action.error_ne_ok

theorem Knows.hasSort_int (hn : s.Knows P n) : (Expr.name n .int).HasSort (s.graph.uses P) .int :=
  ⟨⟨⟨hn.1, _, List.getElem?_eq_getElem hn.2, .inr rfl⟩, .inl rfl⟩, rfl⟩

/-! ## Definitions -/

variable {D : Prop}

/-- The change of a store consists of definitions.  Between them names may be declared, tagged and
bound, but nothing is asserted.  The terms divide nothing if a condition holds. -/
inductive Unfolds (P : Name → Prop) (i : Int) (D : Prop) : Store → Store → Prop
  | quiet {s s' : Store} : s.Evolves P i [] s' → Unfolds P i D s s'
  | address {s : Store} (hs : s.Scoped P) (x : Slot) :
    Unfolds P i D s ((s.addressed x).asserted i (nonzero s.nextName))
  | define {s : Store} {c : Cell} {e : Expr} (hs : s.Scoped P) (hc : s.Locates P c)
    (he : e.Sorted (s.graph.uses P)) (hdiv : D → e.DivisionFree) :
    Unfolds P i D s (s.defined e.sort c i e)
  | trans {s s' s'' : Store} : Unfolds P i D s s' → Unfolds P i D s' s'' → Unfolds P i D s s''

theorem Evolves.defined (hs : s.Scoped P) (hc : s.Locates P c) (he : e.Sorted (s.graph.uses P)) :
    s.Evolves P i ([] ++ [.mkEq (.name s.nextName e.sort) e]) (s.defined e.sort c i e) := by
  have hbound : s.Evolves P i [] ((s.declared e.sort).bound c ⟨s.nextName, false⟩) :=
    .declared_bound hs he.sort_cases hc
  have hname := (hbound.scope.sorted_expr hs.knows_nextName
    (declaration?_declared s e.sort)).mono (scope_le_uses _ P)
  exact hbound.trans (.asserted hbound.scope (hname.mkEq ⟨he.mono (hbound.grows.uses_le P), rfl⟩))

namespace Unfolds

theorem refl (hs : s.Scoped P) : Unfolds P i D s s :=
  .quiet (.refl hs)

/-- The store grows by the facts that define names. -/
theorem evolves (h : Unfolds P i D s s') :
    ∃ es, s.Evolves P i es s' ∧ (D → ∀ a ∈ es, a.DivisionFree) := by
  induction h with
  | quiet h => exact ⟨[], h, by simp⟩
  | @address s hs x =>
    have hev : s.Evolves P i [] (s.addressed x) := .addressed hs
    have hint : (s.addressed x).Knows P s.nextName := hs.knows_nextName
    refine ⟨_, hev.trans (.asserted hev.scope hint.hasSort_int.isZero.mkNot), fun _ => ?_⟩
    exact List.forall_mem_singleton.mpr (Expr.DivisionFree.mkNot (Expr.DivisionFree.isZero trivial))
  | define hs hc he hdiv =>
    refine ⟨_, .defined hs hc he, fun hD => ?_⟩
    exact List.forall_mem_singleton.mpr (Expr.DivisionFree.mkEq trivial (hdiv hD))
  | trans _ _ ih ih' =>
    obtain ⟨es, he, hd⟩ := ih
    obtain ⟨es', he', hd'⟩ := ih'
    exact ⟨es ++ es', he.trans he', fun hD => List.forall_mem_append.mpr ⟨hd hD, hd' hD⟩⟩

theorem scope (h : Unfolds P i D s s') : s'.Scoped P := by
  obtain ⟨es, he, -⟩ := h.evolves
  exact he.scope

end Unfolds

theorem Scoped.rvalue_unfolds (hs : s.Scoped P) (h : rvalue env rv s = (.ok e, s')) :
    Unfolds P env.node D s s' ∧ e.Sorted (s'.graph.uses P) ∧
      (rv.DivisionFree → e.DivisionFree) := by
  cases rv with
  | use x =>
    obtain ⟨h₁, hsort, hdiv⟩ := hs.operand h
    exact ⟨.quiet h₁, hsort.mono (scope_le_uses _ P), fun _ => hdiv⟩
  | binary op l r =>
    obtain ⟨a, s₁, b, ha, hb, ht⟩ := rvalue_binary_eq_ok.mp h
    obtain ⟨h₁, hsa, hda⟩ := hs.operand ha
    obtain ⟨h₂, hsb, hdb⟩ := h₁.scope.operand hb
    obtain ⟨o, -, -, hsort, hdiv, -⟩ := op.eval_term ht (hsa.mono (h₂.grows.scope_le P)) hsb
    exact ⟨.quiet (h₁.trans h₂), hsort.sorted.mono (scope_le_uses _ P),
      fun hd => hdiv hd.1 hd.2 hda hdb⟩
  | unary op x =>
    obtain ⟨a, ha, ht⟩ := rvalue_unary_eq_ok.mp h
    obtain ⟨h₁, hsa, hda⟩ := hs.operand ha
    obtain ⟨hsort, hdiv, -⟩ := op.eval_term ht hsa
    exact ⟨.quiet h₁, hsort.sorted.mono (scope_le_uses _ P), fun _ => hdiv hda⟩
  | cast x t =>
    obtain ⟨a, ha, ht⟩ := rvalue_cast_eq_ok.mp h
    obtain ⟨h₁, hsa, hda⟩ := hs.operand ha
    obtain ⟨hsort, hdiv, -⟩ := t.eval_castTerm ht hsa
    exact ⟨.quiet h₁, hsort.sorted.mono (scope_le_uses _ P), fun _ => hdiv hda⟩
  | ref p =>
    obtain ⟨n, isNew, s₁, hn, rfl, rfl⟩ := rvalue_ref_eq_ok h
    obtain ⟨h₁, hk⟩ := hs.ref hn
    refine ⟨?_, ?_, fun _ => trivial⟩
    · rcases ref_eq_ok hn with ⟨q, -, rfl, -⟩ | ⟨-, -, ⟨-, rfl, rfl⟩ | ⟨-, rfl, rfl, rfl⟩⟩
      · exact .quiet h₁
      · exact .refl hs
      · exact .address hs _
    · cases isNew <;> exact hk.hasSort_int.sorted
  | missing => exact absurd h Action.error_ne_ok

theorem Scoped.rvalue (hs : s.Scoped P) (h : rvalue env rv s = (.ok e, s')) :
    ∃ es, s.Evolves P env.node es s' ∧ e.Sorted (s'.graph.uses P) := by
  obtain ⟨hun, hsort, -⟩ := hs.rvalue_unfolds (D := True) h
  obtain ⟨es, he, -⟩ := hun.evolves
  exact ⟨es, he, hsort⟩

/-- Writing a new name and recording an equation for it. -/
theorem Scoped.define_unfolds {s₁ : Store} (hs : s.Scoped P) (hv : value.Sorted (s.graph.uses P))
    (hdiv : D → value.DivisionFree) (hw : Store.writeFresh env p s = (.ok n, s₁))
    (ha : Store.assertEqual env.node n value s₁ = (.ok (), s')) : Unfolds P env.node D s s' := by
  obtain ⟨c, s₂, -, hc, -, -, rfl⟩ := define_eq_ok hw ha
  obtain ⟨hev, hl⟩ := hs.resolve hc
  exact (Unfolds.quiet hev).trans (.define hev.scope hl (hv.mono (hev.grows.uses_le P)) hdiv)

/-- A name that an assignment shares is the value. -/
theorem eq_name_of_sharesName (h : sharesName env p value = .ok (some n)) :
    ∃ sort, value = .name n sort := by
  unfold sharesName at h
  split at h
  · next m sort =>
    split at h
    · cases h
    · split at h
      · cases h
        exact ⟨sort, rfl⟩
      · cases h
    · cases h
  · cases h

theorem Scoped.assign_unfolds (hs : s.Scoped P) (h : assign env p rv s = (.ok (), s')) :
    Unfolds P env.node rv.DivisionFree s s' := by
  obtain ⟨value, s₁, hv, h₁⟩ := assign_eq_ok.mp h
  obtain ⟨hun, hsort, hdiv⟩ := hs.rvalue_unfolds hv
  refine hun.trans ?_
  rcases h₁ with ⟨n, hshared, hb⟩ | ⟨-, n, s₂, hw, ha⟩
  · obtain ⟨sort, rfl⟩ := eq_name_of_sharesName hshared
    obtain ⟨⟨hP, d, hd, -⟩, -⟩ := hsort
    exact .quiet (hun.scope.bind ⟨hP, lt_length_of_getElem? hd⟩ hb)
  · exact hun.scope.define_unfolds hsort hdiv hw ha

theorem Scoped.makeLive (hs : s.Scoped P) (h : makeLive env base s = (.ok (), s')) :
    s.Evolves P env.node [] s' := by
  have hu : s.Evolves P env.node [] (s.unbound (.of env.depth base)) := .unbound hs
  obtain ⟨l, -, ⟨-, rfl⟩ | ⟨-, n, hw⟩⟩ := makeLive_eq_ok h
  · exact hu
  · exact hu.trans (hu.scope.writeFresh hw).1

theorem Scoped.statement_unfolds {st : Statement} (hs : s.Scoped P)
    (h : statement env st s = (.ok (), s')) : Unfolds P env.node st.DivisionFree s s' := by
  cases st with
  | assign p rv span =>
    have ha : assign { env with span } p rv s = (.ok (), s') := h
    exact (hs.assign_unfolds ha :)
  | storageLive base => exact .quiet (hs.makeLive h)
  | storageDead base =>
    obtain rfl := (Prod.mk.inj h).2.symm
    exact .quiet (.unbound hs)
  | nop =>
    cases h
    exact .refl hs
  | missing => exact absurd h Action.error_ne_ok

theorem Unfolds.mono {D' : Prop} (h : Unfolds P i D s s') (hD : D' → D) : Unfolds P i D' s s' := by
  induction h with
  | quiet h => exact .quiet h
  | address hs x => exact .address hs x
  | define hs hc he hdiv => exact .define hs hc he (hdiv ∘ hD)
  | trans _ _ ih ih' => exact ih.trans ih'

variable (hs : s.Scoped P)
include hs

theorem Scoped.statements_unfolds {sts : List Statement} (h : statements env sts s = (.ok (), s')) :
    Unfolds P env.node (∀ st ∈ sts, st.DivisionFree) s s' := by
  induction sts generalizing s with
  | nil =>
    cases h
    exact .refl hs
  | cons st sts ih =>
    obtain ⟨s₁, h₁, h₂⟩ := statements_cons_eq_ok.mp h
    have hst := hs.statement_unfolds h₁
    rw [List.forall_mem_cons]
    exact (hst.mono And.left).trans ((ih hst.scope h₂).mono And.right)

theorem Scoped.statement {st : Statement} (h : statement env st s = (.ok (), s')) :
    ∃ es, s.Evolves P env.node es s' ∧ (st.DivisionFree → ∀ a ∈ es, a.DivisionFree) :=
  (hs.statement_unfolds h).evolves

theorem Scoped.statements {sts : List Statement} (h : statements env sts s = (.ok (), s')) :
    ∃ es, s.Evolves P env.node es s' ∧
      ((∀ st ∈ sts, st.DivisionFree) → ∀ a ∈ es, a.DivisionFree) :=
  (hs.statements_unfolds h).evolves

theorem Scoped.operands {xs : List Operand} {vs : List Expr} (h : operands env xs s = (.ok vs, s'))
    : s.Evolves P env.node [] s' ∧ ∀ v ∈ vs, v.Sorted (s'.graph.scope P) ∧ v.DivisionFree := by
  induction xs generalizing s vs with
  | nil =>
    cases h
    exact ⟨.refl hs, by simp⟩
  | cons x xs ih =>
    obtain ⟨v, s₁, vs', hv, hvs, rfl⟩ := operands_cons_eq_ok.mp h
    obtain ⟨h₁, hsort, hdiv⟩ := hs.operand hv
    obtain ⟨h₂, hall⟩ := ih h₁.scope hvs
    refine ⟨h₁.trans h₂, List.forall_mem_cons.mpr ⟨⟨?_, hdiv⟩, hall⟩⟩
    exact hsort.mono (h₂.grows.scope_le P)

theorem Scoped.passArguments_unfolds {args : List Expr}
    (hargs : ∀ v ∈ args, v.Sorted (s.graph.scope P) ∧ v.DivisionFree)
    (h : passArguments env env.node k args s = (.ok (), s')) : Unfolds P env.node D s s' := by
  induction args generalizing s k with
  | nil =>
    cases h
    exact .refl hs
  | cons v args ih =>
    obtain ⟨n, s₁, s₂, hw, heq, h₂⟩ := passArguments_cons_eq_ok.mp h
    rw [List.forall_mem_cons] at hargs
    have hdef : Unfolds P env.node D s s₂ :=
      hs.define_unfolds (hargs.1.1.mono (scope_le_uses _ P)) (fun _ => hargs.1.2) hw heq
    obtain ⟨es, he, -⟩ := hdef.evolves
    refine hdef.trans (ih he.scope (fun a ha => ?_) h₂)
    exact ⟨(hargs.2 a ha).1.mono (he.grows.scope_le P), (hargs.2 a ha).2⟩

end Store

/-! ## Blocks -/

/-- The block ends with a condition that the program asserts. -/
def Terminator.isAssert : Terminator → Bool
  | .assert .. => true
  | _ => false

/-- The fact of an `assert` is recorded after everything else. -/
def Store.Checked (P : Name → Prop) (t : Terminator) (i : Int) (s s' : Store) : Prop :=
  if t.isAssert then
    ∃ fact, fact.HasSort (s.graph.uses P) .bool ∧ fact.DivisionFree ∧ s' = s.asserted i fact
  else s' = s

theorem Store.Checked.evolves {P : Name → Prop} {t : Terminator} {i : Int} {s s' : Store}
    (h : Checked P t i s s') (hs : s.Scoped P) :
    ∃ es, s.Evolves P i es s' ∧ ∀ a ∈ es, a.DivisionFree := by
  unfold Checked at h
  split at h
  · obtain ⟨fact, hsort, hdiv, rfl⟩ := h
    exact ⟨_, .asserted hs hsort, List.forall_mem_singleton.mpr hdiv⟩
  · rw [h]
    exact ⟨[], .refl hs, by simp⟩

/-- The frame goes on from a node, and its memory and its guard are in scope. -/
structure Frame.GoesOn (P : Name → Prop) (frame : Frame) (node : Int) (g : Graph) (f : Frame) :
    Prop where
  id : f.id = 0
  parent : f.parent = some node
  path : f.path = frame.path
  memory : Store.Scoped P { graph := g, memory := f.memory }
  guard : ∀ c, f.guard = some c → c.HasSort (g.uses P) .bool ∧ c.DivisionFree

namespace Machine

variable {P : Name → Prop} {options : Options} {program : Program} {frame : Frame} {env : Env}
  {m m' : Machine} {s s' : Store} {fs : List Frame} {t : Terminator} {b : Block} {D : Prop}

theorem Concludes.unfolds (h : Concludes options program frame env s t s' fs) (hs : s.Scoped P) :
    (∃ s₁, Store.Unfolds P env.node D s s₁ ∧ Store.Checked P t env.node s₁ s') ∧
      ∀ f ∈ fs, frame.GoesOn P env.node s'.graph f := by
  cases h with
  | goto =>
    refine ⟨⟨_, .refl hs, rfl⟩, List.forall_mem_singleton.mpr ?_⟩
    exact ⟨rfl, rfl, rfl, hs, fun c hc => nomatch hc⟩
  | switch _ hd =>
    obtain ⟨h₁, hsort, hdiv⟩ := hs.operand hd
    refine ⟨⟨_, .quiet h₁, rfl⟩, fun f hf => ?_⟩
    obtain ⟨⟨target, c⟩, htc, rfl⟩ := List.mem_map.mp hf
    refine ⟨rfl, rfl, rfl, h₁.scope, fun c' hc' => ?_⟩
    cases hc'
    have hmem := (List.of_mem_zip htc).2
    exact ⟨(hasSort_of_mem_switchGuards hsort hmem).mono (scope_le_uses _ P),
      divisionFree_of_mem_switchGuards hdiv hmem⟩
  | @assert x expected target span cond s₁ _ hc hbool _ =>
    obtain ⟨h₁, hsort, hdiv⟩ := hs.operand hc
    have hfact : (Expr.mkEq cond (.bool expected)).HasSort (s₁.graph.uses P) .bool :=
      Expr.HasSort.mkEq ⟨hsort.mono (scope_le_uses _ P), hbool⟩ (.bool expected)
    have h₂ := Store.Evolves.asserted (i := env.node) h₁.scope hfact
    refine ⟨⟨s₁, .quiet h₁, _, hfact, hdiv.mkEq trivial, rfl⟩, List.forall_mem_singleton.mpr ?_⟩
    exact ⟨rfl, rfl, rfl, h₂.scope, fun c hc => nomatch hc⟩
  | stop hv => exact ⟨⟨_, .quiet (hs.operands hv).1, rfl⟩, by simp⟩
  | enter hv _ _ hpass =>
    obtain ⟨h₁, hall⟩ := hs.operands hv
    have hun := h₁.scope.passArguments_unfolds (D := D) hall hpass
    obtain ⟨es, he, -⟩ := hun.evolves
    -- the caller goes on with its own memory, which mentions no name of the callee
    refine ⟨⟨_, ((Store.Unfolds.quiet h₁).trans hun).trans (.quiet (he.back h₁.scope)), rfl⟩,
      List.forall_mem_singleton.mpr ?_⟩
    exact ⟨rfl, rfl, rfl, he.scope, fun c hc => nomatch hc⟩
  | skip hv _ hw =>
    obtain ⟨h₁, -⟩ := hs.operands hv
    obtain ⟨h₂, -⟩ := h₁.scope.writeFresh hw
    refine ⟨⟨_, .quiet (h₁.trans h₂), rfl⟩, List.forall_mem_singleton.mpr ?_⟩
    exact ⟨rfl, rfl, rfl, h₂.scope, fun c hc => nomatch hc⟩
  | resume _ hr hw hd heq =>
    obtain ⟨h₁, hk⟩ := hs.readCopy hr
    have hdrop := Store.Evolves.drop (i := env.node) h₁.scope env.depth
    obtain ⟨h₂, -⟩ := hdrop.scope.writeFresh hw
    have hres := (h₂.sorted_expr hdrop.scope hk hd).mono (scope_le_uses _ P)
    have hdef := hdrop.scope.define_unfolds (D := D) hres (fun _ => trivial) hw heq
    obtain ⟨es, he, -⟩ := hdef.evolves
    refine ⟨⟨_, ((Store.Unfolds.quiet (h₁.trans hdrop)).trans hdef).trans
      (.quiet ((hdrop.trans he).back h₁.scope)), rfl⟩, List.forall_mem_singleton.mpr ?_⟩
    exact ⟨rfl, rfl, rfl, he.scope, fun c hc => nomatch hc⟩
  | finish | unreachable => exact ⟨⟨_, .refl hs, rfl⟩, by simp⟩

theorem Concludes.evolves (h : Concludes options program frame env s t s' fs) (hs : s.Scoped P) :
    ∃ es, s.Evolves P env.node es s' := by
  obtain ⟨⟨s₁, hun, hchecked⟩, -⟩ := h.unfolds (D := True) hs
  obtain ⟨es, he, -⟩ := hun.evolves
  obtain ⟨es', he', -⟩ := hchecked.evolves he.scope
  exact ⟨es ++ es', he.trans he'⟩

variable (hs : m.store.Scoped P) (h : block options program frame env b m = (.ok fs, m'))
include hs h

/-- A block consists of definitions, up to the fact of an `assert`, and every frame that goes on is
in scope. -/
theorem block_unfolds :
    (∃ s, Store.Unfolds P env.node (∀ st ∈ b.statements, st.DivisionFree) m.store s ∧
      Store.Checked P b.terminator env.node s m'.store) ∧
      ∀ f ∈ fs, frame.GoesOn P env.node m'.store.graph f := by
  obtain ⟨s₁, hst, ht⟩ := block_concludes h
  have hun := hs.statements_unfolds hst
  obtain ⟨⟨s, hs₂, hchecked⟩, hfs⟩ := ht.unfolds hun.scope
  exact ⟨⟨s, hun.trans hs₂, hchecked⟩, hfs⟩

/-- Executing a block grows the store at its node. -/
theorem block_evolves :
    ∃ es, m.store.Evolves P env.node es m'.store ∧
      ((∀ st ∈ b.statements, st.DivisionFree) → ∀ a ∈ es, a.DivisionFree) ∧
      ∀ f ∈ fs, frame.GoesOn P env.node m'.store.graph f := by
  obtain ⟨⟨s, hun, hchecked⟩, hfs⟩ := block_unfolds hs h
  obtain ⟨es, he, hdiv⟩ := hun.evolves
  obtain ⟨es', he', hdiv'⟩ := hchecked.evolves he.scope
  exact ⟨es ++ es', he.trans he',
    fun hd => List.forall_mem_append.mpr ⟨hdiv hd, hdiv'⟩, hfs⟩

end Machine
end NullPath
