import NullPath.Proofs.HeapDescription
import NullPath.Proofs.Preservation

/-!
# Looking for the cell of a place

On the way to the cell of a place pointers are read, and the first read through a pointer makes up a
name for the value behind it.  So looking for a cell changes memory, but it only adds to it: no
address is given or taken away, and a cell that holds something holds it still.

Reading what a pointer leads to is reading the cell behind the name of the pointer.  It shows what
the cell holds: a name, or that the value has been moved out.

* `Store.Discovers`: memory has only been added to.
* `Store.discovers_readCopy`: reading does no more, even if it fails.
-/

namespace NullPath

namespace Action

variable {σ α : Type} {R R' : σ → σ → Prop} {s : σ}

/-- What holds however an action ends holds of its last state. -/
theorem Triple.state {P : σ → Prop} {x : Action σ α}
    (h : Triple x s (fun _ s' => P s') fun _ s' => P s') : P (x s).2 := by
  cases hx : x s with
  | mk r s' =>
    cases r with
    | ok a => exact h.ok a s' hx
    | error e => exact h.failed e s' hx

/-- An action whose value is only rewritten ends in the same state. -/
theorem bind_pure_state {β : Type} (x : Action σ α) (f : α → β) (s : σ) :
    ((x >>= fun a => Pure.pure (f a)) s).2 = (x s).2 := by
  rw [bind_apply]
  cases x s with
  | mk r s' => cases r <;> rfl

theorem Follows.mono {x : Action σ α} (h : Follows R x) (hR : ∀ s s', R s s' → R' s s') :
    Follows R' x :=
  fun s => hR s _ (h s)

end Action

open Action

namespace Store

variable {s s' s'' : Store} {env : Env} {p : Place} {c : Cell} {n : Name} {b : Binding}

/-! ## Additions to a memory -/

/-- Names have been declared and empty cells filled, and nothing else has changed in memory. -/
structure Discovers (s s' : Store) : Prop where
  length_le : s.graph.decls.length ≤ s'.graph.decls.length
  addrs : s'.memory.addrs = s.memory.addrs
  cells : ∀ c b, s.memory.get? c = some b → s'.memory.get? c = some b

namespace Discovers

theorem refl : s.Discovers s :=
  ⟨Nat.le_refl _, rfl, fun _ _ h => h⟩

theorem trans (h : s.Discovers s') (h' : s'.Discovers s'') : s.Discovers s'' :=
  ⟨h.length_le.trans h'.length_le, h'.addrs.trans h.addrs,
    fun c b hc => h'.cells c b (h.cells c b hc)⟩

instance : IsPreorder Store Discovers where
  refl _ := refl
  trans _ _ _ := trans

theorem cellOf (h : s.Discovers s') (x : Slot) : s'.memory.cellOf x = s.memory.cellOf x := by
  rw [Memory.cellOf, Memory.cellOf, h.addrs]

theorem of_graph {g : Graph} (h : s.graph.decls.length ≤ g.decls.length) :
    s.Discovers { s with graph := g } :=
  ⟨h, rfl, fun _ _ hc => hc⟩

/-- An empty cell gets a new name. -/
theorem declared_bound {sort : ExprSort} (hc : s.memory.get? c = none) :
    s.Discovers ((s.declared sort).bound c b) := by
  refine ⟨?_, Memory.addrs_set _ _ _, fun c' b' hc' => ?_⟩
  · rw [bound, declared, Graph.length_declare]
    exact Nat.le_succ _
  · rw [bound, Memory.get?_set, if_neg]
    · exact hc'
    · rintro rfl
      cases hc.symm.trans hc'

theorem tagged (env : Env) (n : Name) (d : Declaration) : s.Discovers (s.tagged env n d) := by
  unfold Store.tagged
  split
  · exact refl
  · refine of_graph (Nat.le_of_eq ?_)
    exact (List.length_modify ..).symm

end Discovers

/-- Tagging a pointer leaves memory alone.  If it fails, nothing has happened. -/
theorem triple_tag : Triple (tag env n) s (fun _ s' => ∃ d, s' = s.tagged env n d) fun _ s' =>
    s' = s := by
  refine ⟨fun _ s' h => ?_, fun e s' h => ?_⟩
  · obtain ⟨d, -, hs'⟩ := tag_eq_ok h
    exact ⟨d, hs'⟩
  · refine Triple.failed (Q := fun _ _ => True) (E := fun _ s' => s' = s) ?_ e s' h
    refine Triple.bind (triple_declaration.mono (fun _ _ h => h) fun _ _ h => h.1) ?_
    rintro d s₁ - ⟨rfl, -⟩
    split
    · exact triple_onGraph.mono (fun _ _ _ => trivial) fun _ _ h => h.1
    · exact .pure trivial

theorem discovers_tag (env : Env) (n : Name) : Follows Discovers (tag env n) := by
  intro s
  refine Triple.state (triple_tag.mono ?_ ?_)
  · rintro - s' ⟨d, rfl⟩
    exact .tagged env n d
  · rintro - s' rfl
    exact .refl

theorem discovers_readCell (env : Env) (p : Place) (c : Cell) :
    Follows Discovers (readCell env p c) := by
  intro s
  unfold readCell
  rw [bind_get]
  rcases hc : s.memory.get? c with _ | ⟨name, _ | _⟩
  · split
    · exact .refl
    · cases env.function.placeSort p with
      | ok sort => exact .declared_bound hc
      | error e => exact .refl
  · exact .refl
  · exact .refl

theorem discovers_resolve (env : Env) (p : Place) : Follows Discovers (resolve env p) :=
  follows_resolveAt env (discovers_readCell env) (discovers_tag env) p.base p.derefs

theorem discovers_readCopy (env : Env) (p : Place) : Follows Discovers (readCopy env p) :=
  (discovers_resolve env p).bind fun c => discovers_readCell env p c

/-! ## The cell behind a pointer -/

/-- A cell that has been read holds the name that was read. -/
theorem get?_of_readCell (h : readCell env p c s = (.ok n, s')) :
    s'.memory.get? c = some ⟨n, false⟩ := by
  rcases readCell_eq_ok h with ⟨hn, rfl⟩ | ⟨-, -, sort, -, rfl, rfl⟩
  · exact hn
  · rw [bound, Memory.get?_set, if_pos rfl]

theorem readCell_of_get? (h : s.memory.get? c = some ⟨n, false⟩) :
    readCell env p c s = (.ok n, s) := by
  unfold readCell
  rw [bind_get, h]
  rfl

/-- A declared name can be tagged, which leaves memory alone. -/
theorem exists_tag (env : Env) (hn : n.index < s.graph.decls.length) :
    ∃ s', tag env n s = (.ok (), s') ∧ s'.memory = s.memory := by
  have hd : s.graph.declaration? n = some _ := List.getElem?_eq_getElem hn
  obtain ⟨g, hg⟩ : ∃ g, s.graph.addTag n ⟨env.node, env.span⟩ = .ok g := by
    rw [Graph.addTag, Graph.declaration, hd]
    exact ⟨_, rfl⟩
  unfold tag
  rw [bind_apply, declaration_eq_ok.mpr ⟨hd, rfl⟩]
  dsimp only
  split
  · exact ⟨_, onGraph_eq_ok.mpr ⟨g, hg, rfl⟩, rfl⟩
  · exact ⟨s, rfl, rfl⟩

/-- The cell behind a pointer: the pointer is read, and it is declared. -/
theorem resolveAt_succ_of {base : Int} {k : Nat} {c₀ : Cell} {s₁ s₂ : Store}
    (hc : resolveAt env base k s = (.ok c₀, s₁)) (hr : readCell env ⟨base, k⟩ c₀ s₁ = (.ok n, s₂))
    (hn : n.index < s₂.graph.decls.length) :
    ∃ s', resolveAt env base (k + 1) s = (.ok (.behind n), s') ∧ s'.memory = s₂.memory := by
  obtain ⟨s', htag, hmem⟩ := exists_tag env hn
  refine ⟨s', ?_, hmem⟩
  exact Action.bind_eq_ok.mpr ⟨c₀, s₁, hc, Action.bind_eq_ok.mpr ⟨n, s₂, hr,
    Action.bind_eq_ok.mpr ⟨(), s', htag, rfl⟩⟩⟩

end Store

/-! ## What a place shows -/

/-- The outcome of reading a cell with this content: its name, or that it was moved out. -/
def Binding.Shown (b : Binding) : Except Failure Name → Prop
  | .ok n => b.moved = false ∧ n = b.name
  | .error (.error e) => b.moved = true ∧ e.cause = .moved
  | .error (.fault _) => False

theorem Binding.shown_iff_eq_ok {n : Name} {r : Except Failure Name} :
    Binding.Shown ⟨n, false⟩ r ↔ r = .ok n := by
  match r with
  | .ok n' => simp [Shown]
  | .error (.error e) => simp [Shown]
  | .error (.fault f) => simp [Shown]

theorem Binding.shown_iff_moved {n : Name} {r : Except Failure Name} :
    Binding.Shown ⟨n, true⟩ r ↔ ∃ e, r = .error (.error e) ∧ e.cause = .moved := by
  match r with
  | .ok n' => simp [Shown]
  | .error (.error e) => simp [Shown]
  | .error (.fault f) => simp [Shown]

namespace Store

variable {s s' : Store} {env : Env} {p : Place} {c : Cell} {a : Name} {b : Binding}

theorem shown_readCell (h : s.memory.get? c = some b) : b.Shown (readCell env p c s).1 := by
  unfold readCell
  rw [bind_get, h]
  rcases b with ⟨n, _ | _⟩
  · exact Binding.shown_iff_eq_ok.mpr rfl
  · exact Binding.shown_iff_moved.mpr ⟨_, rfl, rfl⟩

/-- A place that leads to a cell shows what the cell holds. -/
theorem shown_readCopy (h : resolve env p s = (.ok c, s')) (hb : s.memory.get? c = some b) :
    b.Shown (readCopy env p s).1 := by
  unfold readCopy
  rw [bind_apply, h]
  exact shown_readCell (((discovers_resolve env p).of_eq h).cells c b hb)

/-- What a pointer leads to, if the pointer has a declared name as value. -/
theorem resolve_deref (h : (readCopy env p s).1 = .ok a) (ha : a.index < s.graph.decls.length) :
    ∃ s', resolve env p.deref s = (.ok (.behind a), s') := by
  obtain ⟨s₁, hs₁⟩ : ∃ s₁, readCopy env p s = (.ok a, s₁) := ⟨_, Prod.ext h rfl⟩
  obtain ⟨c, t, hc, hr⟩ := readCopy_eq_ok.mp hs₁
  have hlen := ((discovers_readCopy env p).of_eq hs₁).length_le
  obtain ⟨s', hs', -⟩ := resolveAt_succ_of hc hr (Nat.lt_of_lt_of_le ha hlen)
  exact ⟨s', hs'⟩

/-- A pointer shows what lies behind its value. -/
theorem shown_deref (h : (readCopy env p s).1 = .ok a) (ha : a.index < s.graph.decls.length)
    (hb : s.memory.pointees.get? a = some b) : b.Shown (readCopy env p.deref s).1 := by
  obtain ⟨s', hs'⟩ := resolve_deref h ha
  exact shown_readCopy hs' hb

end Store
end NullPath
