import NullPath.Proofs.CellAccess

/-!
# Chains of pointers

A place is a local and a number of dereferences.  In a memory at rest it denotes a cell if one can
walk there: from the cell of the local to what lies behind its value, from there to what lies behind
the value found, and so on, over values that are present and have not been moved out.

Looking for the cell of a place is the same walk on a memory in which some values may be missing.
It ends at the cell that the place denotes in the memory it leaves behind, and it adds only what the
walk needs: new names as values behind pointers, and a tag for each pointer that is followed.
Afterwards the walk is complete and its pointers are tagged.  Further reads take nothing of this
away, so whoever looks again finds the same cell and changes nothing at all.

* `Memory.cellAt?`, `Memory.nameAt?`: the walk over a memory at rest.
* `Graph.tagsOf`, `Store.tagsOf_tagged`: the tags of a name, and what tagging a pointer does to them.
* `Store.cellAt?_of_resolveAt`: the walk that is made when a place is looked for.
* `Store.Learns`: what reading adds.
-/

namespace NullPath

open Action

/-! ## Walking through a memory -/

namespace Memory

/-- The name in a cell, if there is one and it has not been moved out. -/
def value? (m : Memory) (c : Cell) : Option Name :=
  match m.get? c with
  | some ⟨n, false⟩ => some n
  | _ => none

/-- The cell that a slot leads to after a number of dereferences. -/
def cellAt? (m : Memory) (x : Slot) : Nat → Option Cell
  | 0 => some (m.cellOf x)
  | k + 1 => ((m.cellAt? x k).bind m.value?).map .behind

/-- The name in the cell that a slot leads to after a number of dereferences. -/
def nameAt? (m : Memory) (x : Slot) (k : Nat) : Option Name :=
  (m.cellAt? x k).bind m.value?

variable {m : Memory} {x : Slot} {c : Cell} {n : Name} {k : Nat} {b : Binding}

theorem value?_eq_some : m.value? c = some n ↔ m.get? c = some ⟨n, false⟩ := by
  unfold value?
  rcases m.get? c with _ | ⟨n', _ | _⟩ <;> simp

theorem lookup?_eq_value? (m : Memory) (depth base : Int) :
    m.lookup? depth base = m.value? (m.cellOf (.of depth base)) :=
  rfl

theorem nameAt?_eq_some :
    m.nameAt? x k = some n ↔ ∃ c, m.cellAt? x k = some c ∧ m.get? c = some ⟨n, false⟩ := by
  rw [nameAt?, Option.bind_eq_some_iff]
  exact exists_congr fun c => and_congr_right fun _ => value?_eq_some

theorem cellAt?_succ_eq_some :
    m.cellAt? x (k + 1) = some c ↔ ∃ n, m.nameAt? x k = some n ∧ c = .behind n := by
  rw [cellAt?, ← nameAt?, Option.map_eq_some_iff]
  exact exists_congr fun n => and_congr_right fun _ => eq_comm

/-- A walk that does not read a cell does not see that the cell is overwritten. -/
theorem cellAt?_set (h : ∀ j < k, m.cellAt? x j ≠ some c) :
    (m.set c b).cellAt? x k = m.cellAt? x k := by
  induction k with
  | zero =>
    show some ((m.set c b).cellOf x) = some (m.cellOf x)
    rw [cellOf, cellOf, addrs_set]
  | succ k ih =>
    have hprefix := ih fun j hj => h j (Nat.lt_succ_of_lt hj)
    have hlast : m.cellAt? x k ≠ some c := h k (Nat.lt_succ_self k)
    rw [cellAt?, cellAt?, hprefix]
    cases hc : m.cellAt? x k with
    | none => rfl
    | some c₀ =>
      have hne : c₀ ≠ c := fun heq => hlast (by rw [hc, heq])
      rw [Option.bind_some, Option.bind_some, value?, value?, get?_set, if_neg hne]

end Memory

/-! ## The tags of a name -/

namespace Graph

/-- The tags of a name, in the order in which they were added.  A name that is not declared has
none. -/
def tagsOf (g : Graph) (n : Name) : List DerefTag :=
  match g.declaration? n with
  | some d => d.derefs
  | none => []

variable {g : Graph} {n : Name} {d : Declaration}

theorem tagsOf_of_declaration? (h : g.declaration? n = some d) : g.tagsOf n = d.derefs := by
  rw [tagsOf, h]

theorem tagsOf_declare (g : Graph) (sort : ExprSort) (o : Option Origin) (n : Name) :
    (g.declare sort o).2.tagsOf n = g.tagsOf n := by
  unfold tagsOf declaration?
  rw [getElem?_declare]
  by_cases hn : n.index = g.decls.length
  · rw [if_pos hn, hn, List.getElem?_eq_none (Nat.le_refl _)]
  · rw [if_neg hn]

/-- A tag is appended to the tags of its name. -/
theorem tagsOf_modify (hd : g.declaration? n = some d) (t : DerefTag) (n' : Name) :
    Graph.tagsOf { g with decls := g.decls.modify n.index fun d =>
      { d with derefs := d.derefs ++ [t] } } n' = g.tagsOf n' ++ if n' = n then [t] else [] := by
  by_cases hn' : n' = n
  · subst hn'
    have hmod := getElem?_tag (n := n') (t := t) hd
    rw [if_pos rfl] at hmod
    rw [if_pos rfl, tagsOf_of_declaration? hd]
    unfold tagsOf declaration?
    rw [hmod]
  · have hne : n.index ≠ n'.index := fun heq => hn' (Name.ext heq.symm)
    rw [if_neg hn', List.append_nil]
    unfold tagsOf declaration?
    rw [List.getElem?_modify_ne _ _ hne]

end Graph

namespace Store

variable {s s' s'' : Store} {env : Env} {p : Place} {c : Cell} {n : Name} {b : Binding} {base : Int}
  {k : Nat} {x : Slot} {d : Declaration}

/-- A pointer that is not tagged at the present node gets one tag there.  No other tag comes, and
none goes. -/
theorem tagsOf_tagged (hd : s.graph.declaration? n = some d) (n' : Name) :
    (s.tagged env n d).graph.tagsOf n' = s.graph.tagsOf n' ++
      if n' = n ∧ ∀ t ∈ s.graph.tagsOf n', t.node ≠ env.node then [⟨env.node, env.span⟩]
      else [] := by
  have htags : d.isDerefedAt env.node = true ↔ ¬∀ t ∈ s.graph.tagsOf n, t.node ≠ env.node := by
    rw [Graph.tagsOf_of_declaration? hd, Declaration.isDerefedAt, List.any_eq_true]
    simp
  unfold tagged
  by_cases hat : d.isDerefedAt env.node = true
  · rw [if_pos hat, if_neg, List.append_nil]
    rintro ⟨rfl, hall⟩
    exact htags.mp hat hall
  · rw [if_neg hat]
    have hall := not_not.mp (mt htags.mpr hat)
    refine (Graph.tagsOf_modify hd _ n').trans (congrArg _ ?_)
    by_cases hn' : n' = n
    · subst hn'
      rw [if_pos rfl, if_pos ⟨rfl, hall⟩]
    · rw [if_neg hn', if_neg fun h => hn' h.1]

/-- A pointer that has been followed is tagged. -/
theorem exists_tagsOf_tagged (env : Env) (hd : s.graph.declaration? n = some d) :
    ∃ t ∈ (s.tagged env n d).graph.tagsOf n, t.node = env.node := by
  rw [tagsOf_tagged hd]
  by_cases hall : ∀ t ∈ s.graph.tagsOf n, t.node ≠ env.node
  · rw [if_pos ⟨rfl, hall⟩]
    exact ⟨_, List.mem_append_right _ List.mem_cons_self, rfl⟩
  · push Not at hall
    obtain ⟨t, ht, hnode⟩ := hall
    exact ⟨t, List.mem_append_left _ ht, hnode⟩

/-- Nothing happens when a pointer is followed that has been followed at this node before. -/
theorem tag_of_tagsOf (h : ∃ t ∈ s.graph.tagsOf n, t.node = env.node) :
    tag env n s = (.ok (), s) := by
  obtain ⟨t, ht, hnode⟩ := h
  cases hd : s.graph.declaration? n with
  | none =>
    rw [Graph.tagsOf, hd] at ht
    cases ht
  | some d =>
    rw [Graph.tagsOf_of_declaration? hd] at ht
    have hat : d.isDerefedAt env.node = true :=
      List.any_eq_true.mpr ⟨t, ht, beq_iff_eq.mpr hnode⟩
    unfold tag
    rw [bind_apply, declaration_eq_ok.mpr ⟨hd, rfl⟩]
    dsimp only
    rw [hat]
    rfl

/-! ## The walk of a read -/

/-- Reads do not lead a walk elsewhere. -/
theorem Discovers.cellAt? (h : s.Discovers s') (hc : s.memory.cellAt? x k = some c) :
    s'.memory.cellAt? x k = some c := by
  induction k generalizing c with
  | zero =>
    show some (s'.memory.cellOf x) = some c
    rw [h.cellOf]
    exact hc
  | succ k ih =>
    obtain ⟨n, hn, rfl⟩ := Memory.cellAt?_succ_eq_some.mp hc
    obtain ⟨c₀, hc₀, hget⟩ := Memory.nameAt?_eq_some.mp hn
    refine Memory.cellAt?_succ_eq_some.mpr ⟨n, ?_, rfl⟩
    exact Memory.nameAt?_eq_some.mpr ⟨c₀, ih hc₀, h.cells c₀ _ hget⟩

/-- A place is led to the cell that it denotes in the memory that is left behind. -/
theorem cellAt?_of_resolveAt (h : resolveAt env base k s = (.ok c, s')) :
    s'.memory.cellAt? (.of env.depth base) k = some c := by
  induction k generalizing c s' with
  | zero =>
    obtain ⟨-, rfl, rfl⟩ := resolveAt_zero_eq_ok.mp h
    rfl
  | succ k ih =>
    obtain ⟨c₀, t₁, pointer, t₂, d, hc₀, hr, -, rfl, rfl⟩ := resolveAt_succ_eq_ok h
    have hread := (discovers_readCell env _ c₀).of_eq hr
    have hname : t₂.memory.nameAt? (.of env.depth base) k = some pointer :=
      Memory.nameAt?_eq_some.mpr ⟨c₀, hread.cellAt? (ih hc₀), get?_of_readCell hr⟩
    have hcell := Memory.cellAt?_succ_eq_some.mpr ⟨pointer, hname, rfl⟩
    exact (Discovers.tagged env pointer d).cellAt? hcell

/-- A place shows the name that it denotes in the memory that is left behind. -/
theorem nameAt?_of_readCopy (h : readCopy env p s = (.ok n, s')) :
    s'.memory.nameAt? (.of env.depth p.base) p.derefs = some n := by
  obtain ⟨c, t, hc, hr⟩ := readCopy_eq_ok.mp h
  have hread := (discovers_readCell env p c).of_eq hr
  exact Memory.nameAt?_eq_some.mpr
    ⟨c, hread.cellAt? (cellAt?_of_resolveAt hc), get?_of_readCell hr⟩

/-- A place that has been led to a cell starts at a local of the function. -/
theorem exists_localVar?_of_resolveAt (h : resolveAt env base k s = (.ok c, s')) :
    ∃ l, env.function.localVar? base = some l := by
  induction k generalizing c s' with
  | zero => exact (resolveAt_zero_eq_ok.mp h).1
  | succ k ih =>
    obtain ⟨c₀, t₁, -, -, -, hc₀, -⟩ := resolveAt_succ_eq_ok h
    exact ih hc₀

/-! ## What reading adds -/

/-- Memory has only been added to, by new names, and no tag has been lost. -/
structure Learns (s s' : Store) : Prop extends Discovers s s' where
  news : ∀ c b, s'.memory.get? c = some b →
    s.memory.get? c = some b ∨ s.graph.decls.length ≤ b.name.index
  tags : ∀ n, s.graph.tagsOf n ⊆ s'.graph.tagsOf n

namespace Learns

theorem refl (s : Store) : s.Learns s :=
  ⟨.refl, fun _ _ h => .inl h, fun _ => List.Subset.refl _⟩

theorem trans (h : s.Learns s') (h' : s'.Learns s'') : s.Learns s'' := by
  refine ⟨h.toDiscovers.trans h'.toDiscovers, fun c b hb => ?_, fun n =>
    List.Subset.trans (h.tags n) (h'.tags n)⟩
  rcases h'.news c b hb with hb | hlt
  · exact h.news c b hb
  · exact .inr (h.length_le.trans hlt)

theorem tagged (hd : s.graph.declaration? n = some d) : s.Learns (s.tagged env n d) := by
  refine ⟨.tagged env n d, fun c b hb => .inl ?_, fun n' => ?_⟩
  · have hmem : (s.tagged env n d).memory = s.memory := by
      unfold Store.tagged
      split <;> rfl
    rwa [hmem] at hb
  · rw [tagsOf_tagged hd]
    exact List.subset_append_left _ _

theorem of_readCell (h : readCell env p c s = (.ok n, s')) : s.Learns s' := by
  rcases readCell_eq_ok h with ⟨-, rfl⟩ | ⟨hnone, -, sort, -, rfl, rfl⟩
  · exact refl s'
  · refine ⟨.declared_bound hnone, fun c' b' hb' => ?_, fun n' => ?_⟩
    · rw [bound, Memory.get?_set] at hb'
      split at hb'
      · cases hb'
        exact .inr (Nat.le_refl _)
      · exact .inl hb'
    · show _ ⊆ (s.graph.declare sort none).2.tagsOf n'
      rw [Graph.tagsOf_declare]
      exact List.Subset.refl _

theorem of_resolveAt (h : resolveAt env base k s = (.ok c, s')) : s.Learns s' := by
  induction k generalizing c s' with
  | zero =>
    obtain ⟨-, -, rfl⟩ := resolveAt_zero_eq_ok.mp h
    exact refl s'
  | succ k ih =>
    obtain ⟨c₀, t₁, pointer, t₂, d, hc₀, hr, hd, -, rfl⟩ := resolveAt_succ_eq_ok h
    exact (ih hc₀).trans ((of_readCell hr).trans (tagged hd))

end Learns

/-! ## Reading again -/

/-- A place that has been led to a cell is led there again, and nothing happens on the way. -/
theorem resolveAt_settled (h : resolveAt env base k s = (.ok c, s')) (hl : s'.Learns s'') :
    resolveAt env base k s'' = (.ok c, s'') := by
  induction k generalizing c s' with
  | zero =>
    obtain ⟨hlocal, rfl, rfl⟩ := resolveAt_zero_eq_ok.mp h
    exact resolveAt_zero_eq_ok.mpr ⟨hlocal, (hl.cellOf _).symm, rfl⟩
  | succ k ih =>
    obtain ⟨c₀, t₁, pointer, t₂, d, hc₀, hr, hd, rfl, rfl⟩ := resolveAt_succ_eq_ok h
    have hlater : t₂.Learns s'' := (Learns.tagged hd).trans hl
    -- the pointer is where it was read, and it is tagged
    have hagain := ih hc₀ ((Learns.of_readCell hr).trans hlater)
    have hheld := hlater.cells c₀ _ (get?_of_readCell hr)
    obtain ⟨t, ht, hnode⟩ := exists_tagsOf_tagged env hd
    have htag : tag env pointer s'' = (.ok (), s'') :=
      tag_of_tagsOf ⟨t, hl.tags pointer ht, hnode⟩
    exact Action.bind_eq_ok.mpr ⟨c₀, s'', hagain, Action.bind_eq_ok.mpr
      ⟨pointer, s'', readCell_of_get? hheld, Action.bind_eq_ok.mpr ⟨(), s'', htag, rfl⟩⟩⟩

/-- A place that has been read shows the same name again, and nothing else happens. -/
theorem readCopy_settled (h : readCopy env p s = (.ok n, s')) (hl : s'.Learns s'') :
    readCopy env p s'' = (.ok n, s'') := by
  obtain ⟨c, t, hc, hr⟩ := readCopy_eq_ok.mp h
  have hagain := resolveAt_settled hc ((Learns.of_readCell hr).trans hl)
  have hheld := hl.cells c _ (get?_of_readCell hr)
  exact readCopy_eq_ok.mpr ⟨c, s'', hagain, readCell_of_get? hheld⟩

/-- The second time that a move goes to its cell, nothing happens on the way. -/
theorem readMove_eq_bound (h : readMove env p s = (.ok n, s')) :
    ∃ c s₁, readCopy env p s = (.ok n, s₁) ∧ (resolve env p s).1 = .ok c ∧
      s₁.memory.get? c = some ⟨n, false⟩ ∧ s' = s₁.bound c ⟨n, true⟩ := by
  obtain ⟨s₁, c, s₂, hn, hc, rfl⟩ := readMove_eq_ok.mp h
  obtain ⟨c₀, t, ht, hr⟩ := readCopy_eq_ok.mp hn
  have hagain : resolve env p s₁ = (.ok c₀, s₁) := resolveAt_settled ht (.of_readCell hr)
  obtain ⟨hcell, rfl⟩ := Prod.mk.inj (hagain.symm.trans hc)
  obtain rfl := Except.ok.inj hcell
  exact ⟨c₀, s₁, hn, congrArg Prod.fst ht, get?_of_readCell hr, rfl⟩

/-- **Reading is idempotent.**  A read that succeeds shows the name that the place holds in the
memory it leaves behind.  A second read in the same environment shows this name again, and it leaves
memory, declarations, tags and nodes exactly as the first one did. -/
theorem readCopy_idempotent (h : readCopy env p s = (.ok n, s')) :
    s'.memory.nameAt? (.of env.depth p.base) p.derefs = some n ∧
      readCopy env p s' = (.ok n, s') :=
  ⟨nameAt?_of_readCopy h, readCopy_settled h (.refl s')⟩

/-! ## A pointer to a pointer -/

/-- A position in a function with a pointer to a pointer as parameter. -/
def twoStepEnv : Env where
  function :=
    { name := "f", locals := [⟨"", .integer⟩, ⟨"q", .pointerTo (.pointerTo .integer)⟩],
      argCount := 1, blocks := [] }

/-- The parameter has a value, and nothing is known of what it points to. -/
def unreadStore : Store where
  graph := (Graph.declare {} .int none).2
  memory := Memory.empty.set (.slot (.of 0 1)) ⟨⟨0⟩, false⟩

/-- The first read through both pointers makes up two names and tags the parameter and the first of
them.  The second read finds all this. -/
theorem unreadStore_idempotent :
    ∃ s', readCopy twoStepEnv ⟨1, 2⟩ unreadStore = (.ok ⟨2⟩, s') ∧ s' ≠ unreadStore ∧
      s'.graph.tagsOf ⟨0⟩ = [⟨0, {}⟩] ∧ s'.graph.tagsOf ⟨1⟩ = [⟨0, {}⟩] ∧
      s'.memory.nameAt? (.of 0 1) 2 = some ⟨2⟩ ∧
      readCopy twoStepEnv ⟨1, 2⟩ s' = (.ok ⟨2⟩, s') := by
  obtain ⟨s', hs', htags₀, htags₁⟩ : ∃ s', readCopy twoStepEnv ⟨1, 2⟩ unreadStore = (.ok ⟨2⟩, s') ∧
      s'.graph.tagsOf ⟨0⟩ = [⟨0, {}⟩] ∧ s'.graph.tagsOf ⟨1⟩ = [⟨0, {}⟩] :=
    ⟨_, rfl, rfl, rfl⟩
  obtain ⟨hname, hagain⟩ := readCopy_idempotent hs'
  refine ⟨s', hs', ?_, htags₀, htags₁, hname, hagain⟩
  rintro rfl
  cases htags₀

end Store
end NullPath
