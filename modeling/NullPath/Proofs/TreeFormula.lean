import Mathlib.Data.Finset.Card
import Mathlib.Logic.Relation
import NullPath.Graph.Formula
import NullPath.Proofs.Truth

/-!
# Formulas and path constraints of a tree

The formula of a node is built by recursion over successors, with nested implications; the path
constraint of a node is built by a loop over predecessors.  In a tree the two speak about the same
paths: the formula of the root is true exactly if every node whose path constraint is true has
only true assertions.

Both recursions are bounded by the number of nodes.  In a tree the bound is never felt, because a
trail from the root does not visit a node twice: going back along the only predecessors, two
visits of one node would lead back to a visit of the root, which has no predecessor.

* `Graph.IsTree`: the root has no predecessor, and what it reaches has exactly one.
* `Graph.IsTree.guards_of_trail`: the path constraint collects the guards of the trail.
* `Graph.IsTree.satisfies_formulaWithin_iff`: the formula of the root.
-/

namespace NullPath

theorem lt_length_of_getElem? {α : Type} {l : List α} {i : Nat} {a : α} (h : l[i]? = some a) :
    i < l.length :=
  (List.getElem?_eq_some_iff.mp h).1

namespace Graph

variable {g g' : Graph} {m : Model} {i : Int} {n : Node} {e : Expr}

/-! ## Looking up nodes -/

theorem node?_of_nonneg (hi : 0 ≤ i) : g.node? i = g.nodes[i.toNat]? := by
  rw [node?, nth?, if_neg (by omega)]

@[simp] theorem node?_natCast (i : Nat) : g.node? i = g.nodes[i]? := by
  rw [node?_of_nonneg (by omega), Int.toNat_natCast]

theorem nonneg_of_node? (h : g.node? i = some n) : 0 ≤ i := by
  by_contra hi
  rw [node?, nth?, if_pos (by omega)] at h
  cases h

theorem lt_length_of_node? (h : g.node? i = some n) : i.toNat < g.nodes.length := by
  rw [node?_of_nonneg (nonneg_of_node? h)] at h
  exact lt_length_of_getElem? h

theorem node_bind_eq_ok {k : Node → Except Fault Graph} :
    g.node i >>= k = .ok g' ↔ ∃ n, g.node? i = some n ∧ k n = .ok g' := by
  unfold node
  cases g.node? i <;> simp [bind, Except.bind]

theorem node?_modifyNode (hi : 0 ≤ i) (f : Node → Node) (j : Int) :
    (g.modifyNode i f).node? j = if j = i then (g.node? j).map f else g.node? j := by
  by_cases hj : 0 ≤ j
  · rw [node?_of_nonneg hj, node?_of_nonneg hj, modifyNode, List.getElem?_modify]
    by_cases hij : j = i
    · simp [hij]
    · have hne : ¬i.toNat = j.toNat := by omega
      simp [hij, hne]
  · have hnone : ∀ h : Graph, h.node? j = none := fun h => by rw [node?, nth?, if_pos (by omega)]
    rw [hnone, hnone]
    simp

theorem node?_addNode (g : Graph) (j : Int) :
    g.addNode.2.node? j = if j = g.nodes.length then some {} else g.node? j := by
  by_cases hj : 0 ≤ j
  · rw [node?_of_nonneg hj, node?_of_nonneg hj, addNode]
    by_cases hjl : j = g.nodes.length
    · simp [hjl]
    · rw [if_neg hjl]
      by_cases hlt : j.toNat < g.nodes.length
      · rw [List.getElem?_append_left hlt]
      · rw [List.getElem?_eq_none (by simp; omega), List.getElem?_eq_none (by omega)]
  · have hnone : ∀ h : Graph, h.node? j = none := fun h => by rw [node?, nth?, if_pos (by omega)]
    rw [hnone, hnone, if_neg (by omega)]

/-! ## Edges -/

/-- There is an edge from one node to another. -/
def Links (g : Graph) (a b : Int) : Prop :=
  ∃ n e, g.node? a = some n ∧ e ∈ n.out ∧ e.target = b

/-- A node is reached from another along edges. -/
def Reaches (g : Graph) : Int → Int → Prop :=
  Relation.ReflTransGen g.Links

/-- Every edge is recorded at its target, with its guard and its source. -/
def Mirrored (g : Graph) : Prop :=
  ∀ a n e, g.node? a = some n → e ∈ n.out →
    ∃ n', g.node? e.target = some n' ∧ ⟨e.guard, a⟩ ∈ n'.into

/-- The graphs that come from the empty graph by adding nodes, assertions, edges and names. -/
inductive Built : Graph → Prop
  | empty : Built .empty
  | addNode {g : Graph} : Built g → Built g.addNode.2
  | addExpr {g g' : Graph} {i : Int} {e : Expr} : Built g → g.addExpr i e = .ok g' → Built g'
  | addEdge {g g' : Graph} {i : Int} {e : Edge} : Built g → g.addEdge i e = .ok g' → Built g'
  | close {g g' : Graph} {i : Int} : Built g → g.close i = .ok g' → Built g'
  | declare {g : Graph} (s : ExprSort) (o : Option Origin) : Built g → Built (g.declare s o).2
  | addTag {g g' : Graph} {n : Name} {t : DerefTag} : Built g → g.addTag n t = .ok g' → Built g'

theorem addExpr_eq_ok (h : g.addExpr i e = .ok g') :
    ∃ n, g.node? i = some n ∧ n.closed = false ∧ e.sort = .bool ∧
      g' = g.modifyNode i fun n => { n with exprs := n.exprs ++ [e] } := by
  obtain ⟨n, hn, hadd⟩ := node_bind_eq_ok.mp h
  simp only [bind, Except.bind, pure, Except.pure] at hadd
  split at hadd
  · cases hadd
  · next hc =>
    split at hadd
    · cases hadd
    · next hs =>
      cases hadd
      exact ⟨n, hn, by simpa using hc, by simpa using hs, rfl⟩

theorem close_eq_ok (h : g.close i = .ok g') :
    ∃ n, g.node? i = some n ∧ g' = g.modifyNode i fun n => { n with closed := true } := by
  obtain ⟨n, hn, ⟨⟩⟩ := node_bind_eq_ok.mp h
  exact ⟨n, hn, rfl⟩

theorem addEdge_eq_ok {e : Edge} (h : g.addEdge i e = .ok g') :
    ∃ n n', g.node? i = some n ∧ g.node? e.target = some n' ∧
      g' = (g.modifyNode i fun n => { n with out := n.out ++ [e] }).modifyNode e.target
        fun n => { n with into := n.into ++ [⟨e.guard, i⟩] } := by
  obtain ⟨n, hn, htarget⟩ := node_bind_eq_ok.mp h
  obtain ⟨n', hn', ⟨⟩⟩ := node_bind_eq_ok.mp htarget
  exact ⟨n, n', hn, hn', rfl⟩

theorem addTag_eq_ok {n : Name} {t : DerefTag} (h : g.addTag n t = .ok g') :
    ∃ d, g.declaration? n = some d ∧
      g' = { g with decls := g.decls.modify n.index fun d =>
        { d with derefs := d.derefs ++ [t] } } := by
  unfold addTag declaration at h
  cases hd : g.declaration? n with
  | none => rw [hd] at h; cases h
  | some d =>
    rw [hd] at h
    cases h
    exact ⟨d, rfl, rfl⟩

theorem Mirrored.addNode (hg : g.Mirrored) : g.addNode.2.Mirrored := by
  intro a n e hn he
  rw [node?_addNode] at hn
  split at hn
  · cases hn
    cases he
  · obtain ⟨n', hn', hmem⟩ := hg a n e hn he
    refine ⟨n', ?_, hmem⟩
    rw [node?_addNode, if_neg, hn']
    have hlt := lt_length_of_node? hn'
    omega

/-- Edges stand in the nodes alone. -/
theorem Mirrored.of_nodes_eq (hg : g.Mirrored) (h : g'.nodes = g.nodes) : g'.Mirrored := by
  have hnode : ∀ i, g'.node? i = g.node? i := fun i => by rw [node?, node?, h]
  intro a n e hn he
  obtain ⟨n', hn', hmem⟩ := hg a n e (hnode a ▸ hn) he
  exact ⟨n', hnode _ ▸ hn', hmem⟩

/-- A change of one node that keeps its edges keeps all edges mirrored. -/
theorem Mirrored.modifyNode (hg : g.Mirrored) (hi : 0 ≤ i) {f : Node → Node}
    (hout : ∀ n, (f n).out = n.out) (hinto : ∀ n, (f n).into = n.into) :
    (g.modifyNode i f).Mirrored := by
  intro a n e hn he
  have hold : ∃ n₀, g.node? a = some n₀ ∧ e ∈ n₀.out := by
    rw [node?_modifyNode hi] at hn
    split at hn
    · obtain ⟨n₀, hn₀, rfl⟩ := Option.map_eq_some_iff.mp hn
      exact ⟨n₀, hn₀, hout n₀ ▸ he⟩
    · exact ⟨n, hn, he⟩
  obtain ⟨n₀, hn₀, he₀⟩ := hold
  obtain ⟨n', hn', hmem⟩ := hg a n₀ e hn₀ he₀
  rw [node?_modifyNode hi]
  split
  · exact ⟨f n', by rw [hn']; rfl, by rw [hinto]; exact hmem⟩
  · exact ⟨n', hn', hmem⟩

theorem Mirrored.addEdge (hg : g.Mirrored) {e : Edge} (h : g.addEdge i e = .ok g') :
    g'.Mirrored := by
  obtain ⟨s, t, hs, ht, rfl⟩ := addEdge_eq_ok h
  have hi := nonneg_of_node? hs
  have hj := nonneg_of_node? ht
  intro a n e' hn he'
  -- an edge of the new graph is an old edge or the added one
  have hcase : (∃ n₀, g.node? a = some n₀ ∧ e' ∈ n₀.out) ∨ (a = i ∧ e' = e) := by
    have hn₁ : ∃ n₁, (g.modifyNode i fun n => { n with out := n.out ++ [e] }).node? a = some n₁ ∧
        e' ∈ n₁.out := by
      rw [node?_modifyNode hj] at hn
      split at hn
      · obtain ⟨n₁, hn₁, rfl⟩ := Option.map_eq_some_iff.mp hn
        exact ⟨n₁, hn₁, he'⟩
      · exact ⟨n, hn, he'⟩
    obtain ⟨n₁, hn₁, he₁⟩ := hn₁
    rw [node?_modifyNode hi] at hn₁
    split at hn₁
    · next hai =>
      obtain ⟨n₀, hn₀, rfl⟩ := Option.map_eq_some_iff.mp hn₁
      rcases List.mem_append.mp he₁ with he₁ | he₁
      · exact .inl ⟨n₀, hn₀, he₁⟩
      · exact .inr ⟨hai, List.mem_singleton.mp he₁⟩
    · exact .inl ⟨n₁, hn₁, he₁⟩
  have hfind : ∀ b n', g.node? b = some n' → ∃ n'',
      ((g.modifyNode i fun n => { n with out := n.out ++ [e] }).modifyNode e.target
        fun n => { n with into := n.into ++ [⟨e.guard, i⟩] }).node? b = some n'' ∧
      n'.into ⊆ n''.into ∧ (b = e.target → ⟨e.guard, i⟩ ∈ n''.into) := by
    intro b n' hb
    have hb₁ : ∃ n₁, (g.modifyNode i fun n => { n with out := n.out ++ [e] }).node? b = some n₁ ∧
        n₁.into = n'.into := by
      rw [node?_modifyNode hi, hb]
      split
      · exact ⟨_, rfl, rfl⟩
      · exact ⟨_, rfl, rfl⟩
    obtain ⟨n₁, hn₁, hinto⟩ := hb₁
    rw [node?_modifyNode hj, hn₁]
    split
    · exact ⟨_, rfl, by simp [hinto], by simp⟩
    · next hne => exact ⟨_, rfl, by simp [hinto], fun h => absurd h hne⟩
  rcases hcase with ⟨n₀, hn₀, he₀⟩ | ⟨rfl, rfl⟩
  · obtain ⟨n', hn', hmem⟩ := hg a n₀ e' hn₀ he₀
    obtain ⟨n'', hn'', hsub, -⟩ := hfind _ _ hn'
    exact ⟨n'', hn'', hsub hmem⟩
  · obtain ⟨n'', hn'', -, hmem⟩ := hfind _ _ ht
    exact ⟨n'', hn'', hmem rfl⟩

/-- In a graph that was built by its operations, every edge is recorded at its target. -/
theorem Built.mirrored (h : Built g) : g.Mirrored := by
  induction h with
  | empty =>
    intro a n e hn
    have hlt := lt_length_of_node? hn
    exact absurd hlt (Nat.not_lt_zero _)
  | addNode _ ih => exact ih.addNode
  | addExpr _ h ih =>
    obtain ⟨n, hn, -, -, rfl⟩ := addExpr_eq_ok h
    exact ih.modifyNode (nonneg_of_node? hn) (fun _ => rfl) (fun _ => rfl)
  | addEdge _ h ih => exact ih.addEdge h
  | close _ h ih =>
    obtain ⟨n, hn, rfl⟩ := close_eq_ok h
    exact ih.modifyNode (nonneg_of_node? hn) (fun _ => rfl) (fun _ => rfl)
  | declare _ _ _ ih => exact ih.of_nodes_eq rfl
  | addTag _ h ih =>
    obtain ⟨d, -, rfl⟩ := addTag_eq_ok h
    exact ih.of_nodes_eq rfl

/-! ## Trails of a tree -/

/-- The edges that can be followed from a node form a tree: the node has no predecessor, and every
other node that it reaches has exactly one. -/
structure IsTree (g : Graph) (r : Int) : Prop where
  root : ∃ n, g.node? r = some n ∧ n.into = []
  only : ∀ a n, g.Reaches r a → a ≠ r → g.node? a = some n → ∃ e, n.into = [e]

/-- A way along edges, with the guards on it and its length. -/
inductive Trail (g : Graph) : Int → Int → List Expr → Nat → Prop
  | nil (a : Int) : Trail g a a [] 0
  | cons {a b : Int} {n : Node} {e : Edge} {gs : List Expr} {k : Nat} :
    g.node? a = some n → e ∈ n.out → Trail g e.target b gs k →
      Trail g a b (e.guard.toList ++ gs) (k + 1)

variable {r a b : Int} {gs : List Expr} {k : Nat} {c : Option Expr}

theorem Trail.append {c : Int} {hs : List Expr} {l : Nat} (h : g.Trail a b gs k)
    (h' : g.Trail b c hs l) : g.Trail a c (gs ++ hs) (k + l) := by
  induction h with
  | nil a => simpa using h'
  | cons hn he _ ih =>
    have := Trail.cons hn he (ih h')
    rwa [← List.append_assoc, Nat.add_right_comm] at this

theorem Trail.reaches (h : g.Trail a b gs k) : g.Reaches a b := by
  induction h with
  | nil a => exact Relation.ReflTransGen.refl
  | cons hn he _ ih => exact Relation.ReflTransGen.head ⟨_, _, hn, he, rfl⟩ ih

theorem Reaches.exists_trail (h : g.Reaches a b) : ∃ gs k, g.Trail a b gs k := by
  induction h with
  | refl => exact ⟨[], 0, .nil a⟩
  | tail _ hl ih =>
    obtain ⟨gs, k, ht⟩ := ih
    obtain ⟨n, e, hn, he, rfl⟩ := hl
    exact ⟨_, _, ht.append (.cons hn he (.nil _))⟩

theorem Trail.exists_last (h : g.Trail a b gs (k + 1)) :
    ∃ c hs n e, g.Trail a c hs k ∧ g.node? c = some n ∧ e ∈ n.out ∧ e.target = b ∧
      gs = hs ++ e.guard.toList := by
  induction k generalizing a gs with
  | zero =>
    cases h with
    | @cons _ _ n e _ _ hn he htr =>
      cases htr
      exact ⟨a, [], n, e, .nil a, hn, he, rfl, by simp⟩
  | succ k ih =>
    cases h with
    | cons hn he htr =>
      obtain ⟨c, hs, n', e', hc, hn', he', heq, rfl⟩ := ih htr
      exact ⟨c, _, n', e', .cons hn he hc, hn', he', heq, (List.append_assoc _ _ _).symm⟩

/-- A trail has initial parts of every smaller length. -/
theorem Trail.exists_initial (h : g.Trail a b gs k) {i : Nat} (hi : i ≤ k) :
    ∃ c hs, g.Trail a c hs i := by
  induction h generalizing i with
  | nil a =>
    obtain rfl : i = 0 := by omega
    exact ⟨a, [], .nil a⟩
  | cons hn he _ ih =>
    cases i with
    | zero => exact ⟨_, [], .nil _⟩
    | succ i =>
      obtain ⟨c, hs, hc⟩ := ih (Nat.le_of_succ_le_succ hi)
      exact ⟨c, _, .cons hn he hc⟩

/-- The end of a trail is a node, if its start is one. -/
theorem Trail.exists_node (hg : g.Mirrored) (h : g.Trail a b gs k) (ha : ∃ n, g.node? a = some n) :
    ∃ n, g.node? b = some n := by
  induction h with
  | nil a => exact ha
  | cons hn he _ ih =>
    obtain ⟨n', hn', -⟩ := hg _ _ _ hn he
    exact ih ⟨n', hn'⟩

namespace IsTree

section

variable (ht : g.IsTree r) (hg : g.Mirrored)
include ht hg

/-- No edge leads to the root. -/
theorem target_ne {e : Edge} (hn : g.node? a = some n) (he : e ∈ n.out) : e.target ≠ r := by
  intro heq
  obtain ⟨n', hn', hmem⟩ := hg a n e hn he
  obtain ⟨n₀, hn₀, hinto⟩ := ht.root
  rw [heq, hn₀] at hn'
  cases hn'
  rw [hinto] at hmem
  cases hmem

/-- The only predecessor of a node behind an edge is recorded by this edge. -/
theorem into_target (ha : g.Reaches r a) {e : Edge} (hn : g.node? a = some n) (he : e ∈ n.out) :
    ∃ n', g.node? e.target = some n' ∧ n'.into = [⟨e.guard, a⟩] := by
  obtain ⟨n', hn', hmem⟩ := hg a n e hn he
  have hreach : g.Reaches r e.target := Relation.ReflTransGen.tail ha ⟨n, e, hn, he, rfl⟩
  obtain ⟨e', he'⟩ := ht.only _ n' hreach (ht.target_ne hg hn he) hn'
  rw [he'] at hmem
  refine ⟨n', hn', ?_⟩
  rw [he', List.mem_singleton.mp hmem]

/-- Going back from the end of a trail collects the guards of the trail. -/
theorem guardsWithin_of_trail (h : g.Trail a b gs k) (ha : g.Reaches r a) (d : Nat) :
    g.guardsWithin (d + k) b = g.guardsWithin d a ++ gs := by
  induction h generalizing d with
  | nil a => simp
  | @cons a b n e gs k hn he _ ih =>
    obtain ⟨n', hn', hinto⟩ := ht.into_target hg ha hn he
    have hreach : g.Reaches r e.target := Relation.ReflTransGen.tail ha ⟨n, e, hn, he, rfl⟩
    have hback : g.guardsWithin (d + 1) e.target = g.guardsWithin d a ++ e.guard.toList := by
      rw [guardsWithin, hn']
      simp only [hinto]
    rw [show d + (k + 1) = d + 1 + k by omega, ih hreach, hback, List.append_assoc]

/-- Two trails from the root to one node have one length. -/
theorem length_unique {hs : List Expr} {l : Nat} (h : g.Trail r b gs k) (h' : g.Trail r b hs l) :
    k = l := by
  induction k generalizing b gs hs l with
  | zero =>
    cases h
    cases l with
    | zero => rfl
    | succ l =>
      obtain ⟨a, -, n, e, -, hn, he, heq, -⟩ := h'.exists_last
      exact absurd heq (ht.target_ne hg hn he)
  | succ k ih =>
    obtain ⟨a, gs', n, e, hta, hn, he, heq, -⟩ := h.exists_last
    cases l with
    | zero =>
      cases h'
      exact absurd heq (ht.target_ne hg hn he)
    | succ l =>
      obtain ⟨a', hs', n', e', hta', hn', he', heq', -⟩ := h'.exists_last
      -- both last edges are recorded as the only predecessor of the common end
      obtain ⟨t, hnode, hinto⟩ := ht.into_target hg hta.reaches hn he
      obtain ⟨t', hnode', hinto'⟩ := ht.into_target hg hta'.reaches hn' he'
      rw [heq] at hnode
      rw [heq', hnode] at hnode'
      cases hnode'
      rw [hinto] at hinto'
      have haa : a = a' := by
        have := List.head_eq_of_cons_eq hinto'
        exact congrArg Edge.target this
      subst haa
      rw [ih hta hta']

/-- A trail from the root is shorter than the number of nodes. -/
theorem length_lt (h : g.Trail r b gs k) : k < g.nodes.length := by
  obtain ⟨n₀, hn₀, -⟩ := ht.root
  have hstage : ∀ i, ∃ c, i ≤ k → ∃ hs, g.Trail r c hs i := by
    intro i
    by_cases hik : i ≤ k
    · obtain ⟨c, hs, hc⟩ := h.exists_initial hik
      exact ⟨c, fun _ => ⟨hs, hc⟩⟩
    · exact ⟨0, fun hle => absurd hle hik⟩
  choose c hc using hstage
  have hmaps : ∀ i ∈ Finset.range (k + 1), (c i).toNat ∈ Finset.range g.nodes.length := by
    intro i hi
    obtain ⟨hs, htr⟩ := hc i (by simpa [Nat.lt_succ_iff] using hi)
    obtain ⟨n, hn⟩ := htr.exists_node hg ⟨n₀, hn₀⟩
    exact Finset.mem_range.mpr (lt_length_of_node? hn)
  have hinj : Set.InjOn (fun i => (c i).toNat) (Finset.range (k + 1) : Set Nat) := by
    intro i hi j hj hij
    obtain ⟨hs, htr⟩ := hc i (by simpa [Nat.lt_succ_iff] using hi)
    obtain ⟨hs', htr'⟩ := hc j (by simpa [Nat.lt_succ_iff] using hj)
    obtain ⟨n, hn⟩ := htr.exists_node hg ⟨n₀, hn₀⟩
    obtain ⟨n', hn'⟩ := htr'.exists_node hg ⟨n₀, hn₀⟩
    have hnn := nonneg_of_node? hn
    have hnn' := nonneg_of_node? hn'
    have hcij : c i = c j := by
      have : (c i).toNat = (c j).toNat := hij
      omega
    rw [hcij] at htr
    exact ht.length_unique hg htr htr'
  have hcard := Finset.card_le_card_of_injOn _ hmaps hinj
  rw [Finset.card_range, Finset.card_range] at hcard
  omega

/-- The guards on the way to a node are those of any trail from the root. -/
theorem guards_of_trail (h : g.Trail r b gs k) : g.guards b = gs := by
  have hk := ht.length_lt hg h
  have hroot : ∀ d, g.guardsWithin d r = [] := by
    intro d
    obtain ⟨n, hn, hinto⟩ := ht.root
    cases d with
    | zero => rfl
    | succ d => rw [guardsWithin, hn]; simp only [hinto]
  have hsplit : g.nodes.length = (g.nodes.length - k) + k := by omega
  rw [guards, hsplit, ht.guardsWithin_of_trail hg h Relation.ReflTransGen.refl, hroot,
    List.nil_append]

end

end IsTree

/-! ## The formula of a tree -/

/-- The assertions and guards that can be met from a node on have values in the model. -/
def DefinedFrom (g : Graph) (m : Model) (r : Int) : Prop :=
  ∀ a n, g.Reaches r a → g.node? a = some n →
    (∀ e ∈ n.exprs, m.Defines e) ∧ ∀ e ∈ n.out, ∀ c ∈ e.guard, m.Defines c

theorem defines_underGuard (hc : ∀ x ∈ c, m.Defines x) (he : m.Defines e) :
    m.Defines (underGuard c e) := by
  cases c with
  | none => exact he
  | some c => exact Model.defines_mkImplies (hc c rfl) he

theorem satisfies_underGuard (hc : ∀ x ∈ c, m.Defines x) (he : m.Defines e) :
    m.Satisfies (underGuard c e) ↔ ((∀ x ∈ c.toList, m.Satisfies x) → m.Satisfies e) := by
  cases c with
  | none => simp [underGuard]
  | some c =>
    rw [underGuard, Model.satisfies_mkImplies (hc c rfl) he]
    simp

theorem defines_formulaWithin (h : g.DefinedFrom m r) (d : Nat) (hr : g.Reaches r a) :
    m.Defines (g.formulaWithin d a) := by
  induction d generalizing a with
  | zero => exact ⟨.ofBool true, rfl⟩
  | succ d ih =>
    rw [formulaWithin]
    cases hn : g.node? a with
    | none => exact ⟨.ofBool true, rfl⟩
    | some n =>
      obtain ⟨hexprs, hguards⟩ := h a n hr hn
      refine Model.defines_conj fun e he => ?_
      rcases List.mem_append.mp he with he | he
      · exact hexprs e he
      · obtain ⟨e', he', rfl⟩ := List.mem_map.mp he
        exact defines_underGuard (hguards e' he')
          (ih (Relation.ReflTransGen.tail hr ⟨n, e', hn, he', rfl⟩))

/-- The formula of a node: along every trail whose guards are true, the assertions are true. -/
theorem satisfies_formulaWithin_iff (ht : g.IsTree r) (hg : g.Mirrored) (hd : g.DefinedFrom m r)
    {d : Nat} (h : g.Trail r a gs k) (hk : g.nodes.length ≤ d + k) :
    m.Satisfies (g.formulaWithin d a) ↔
      ∀ b hs l n, g.Trail a b hs l → (∀ c ∈ hs, m.Satisfies c) → g.node? b = some n →
        ∀ e ∈ n.exprs, m.Satisfies e := by
  induction d generalizing a gs k with
  | zero =>
    -- the bound is not felt: a trail of this length does not exist
    have hlt := ht.length_lt hg h
    omega
  | succ d ih =>
    obtain ⟨n₀, hn₀⟩ := h.exists_node hg (ht.root.imp fun _ h => h.1)
    have hchild : ∀ e ∈ n₀.out, m.Satisfies (underGuard e.guard (g.formulaWithin d e.target)) ↔
        ((∀ x ∈ e.guard.toList, m.Satisfies x) → ∀ b hs l n, g.Trail e.target b hs l →
          (∀ c ∈ hs, m.Satisfies c) → g.node? b = some n → ∀ x ∈ n.exprs, m.Satisfies x) := by
      intro e he
      have hedge : g.Trail a e.target (e.guard.toList ++ []) 1 := .cons hn₀ he (.nil _)
      have hto := h.append hedge
      rw [satisfies_underGuard (hd a n₀ h.reaches hn₀ |>.2 e he)
        (defines_formulaWithin hd d hto.reaches), ih hto (by omega)]
    rw [formulaWithin, hn₀]
    rw [Model.satisfies_conj, List.forall_mem_append, List.forall_mem_map]
    constructor
    · rintro ⟨hexprs, hout⟩ b hs l n htr hsat hn
      cases htr with
      | nil =>
        rw [hn₀] at hn
        cases hn
        exact hexprs
      | cons hn₁ he htr =>
        rw [hn₀] at hn₁
        cases hn₁
        rw [List.forall_mem_append] at hsat
        exact (hchild _ he).mp (hout _ he) hsat.1 _ _ _ _ htr hsat.2 hn
    · intro hall
      refine ⟨hall a [] 0 n₀ (.nil a) (by simp) hn₀, fun e he => (hchild e he).mpr ?_⟩
      intro hguard b hs l n htr hsat hn
      exact hall b _ _ n (.cons hn₀ he htr) (List.forall_mem_append.mpr ⟨hguard, hsat⟩) hn

/-- The formula of the root, in terms of the guards on the way to each node. -/
theorem IsTree.satisfies_formulaWithin_iff (ht : g.IsTree r) (hg : g.Mirrored)
    (hd : g.DefinedFrom m r) :
    m.Satisfies (g.formulaWithin g.nodes.length r) ↔
      ∀ a n, g.Reaches r a → g.node? a = some n → (∀ c ∈ g.guards a, m.Satisfies c) →
        ∀ e ∈ n.exprs, m.Satisfies e := by
  rw [Graph.satisfies_formulaWithin_iff ht hg hd (.nil r) (Nat.le_add_right _ _)]
  constructor
  · intro h a n hr hn hsat
    obtain ⟨gs, k, htr⟩ := hr.exists_trail
    rw [ht.guards_of_trail hg htr] at hsat
    exact h a gs k n htr hsat hn
  · intro h b hs l n htr hsat hn
    rw [← ht.guards_of_trail hg htr] at hsat
    exact h b n htr.reaches hn hsat

/-- Guards on the way to a node are among the guards on the way to what it reaches. -/
theorem IsTree.guards_subset (ht : g.IsTree r) (hg : g.Mirrored) (ha : g.Reaches r a)
    (hab : g.Reaches a b) : g.guards a ⊆ g.guards b := by
  obtain ⟨gs, k, htr⟩ := ha.exists_trail
  obtain ⟨hs, l, htr'⟩ := hab.exists_trail
  rw [ht.guards_of_trail hg htr, ht.guards_of_trail hg (htr.append htr')]
  exact List.subset_append_left gs hs

/-- **The formula of the root and the path constraints describe the same paths.**  The formula of
the root of a tree is true in a model exactly if every node of the tree whose path constraint is
true has only true assertions.  So a model of the formula and of the path constraint of a node
satisfies all assertions from the root down to this node. -/
theorem IsTree.formula_describes_paths (hb : g.Built) (ht : g.IsTree r) (hd : g.DefinedFrom m r) :
    ∃ φ, g.formula r = .ok φ ∧ m.Defines φ ∧
      (m.Satisfies φ ↔ ∀ a, g.Reaches r a → ∃ π n, g.pathConstraint a = .ok π ∧
        g.node? a = some n ∧ (m.Satisfies π → ∀ e ∈ n.exprs, m.Satisfies e)) ∧
      ∀ a, g.Reaches r a → ∃ π, g.pathConstraint a = .ok π ∧ (m.Satisfies φ → m.Satisfies π →
        ∀ b n, g.Reaches r b → g.Reaches b a → g.node? b = some n →
          ∀ e ∈ n.exprs, m.Satisfies e) := by
  have hg := hb.mirrored
  obtain ⟨n₀, hn₀, -⟩ := ht.root
  have hnode : ∀ a, g.Reaches r a → ∃ n, g.node? a = some n := by
    intro a ha
    obtain ⟨gs, k, htr⟩ := ha.exists_trail
    exact htr.exists_node hg ⟨n₀, hn₀⟩
  refine ⟨_, formula_eq_ok hn₀, defines_formulaWithin hd _ Relation.ReflTransGen.refl, ?_, ?_⟩
  · rw [ht.satisfies_formulaWithin_iff hg hd]
    constructor
    · intro h a ha
      obtain ⟨n, hn⟩ := hnode a ha
      refine ⟨_, n, pathConstraint_eq_ok hn, hn, fun hsat => ?_⟩
      exact h a n ha hn (Model.satisfies_conj.mp hsat)
    · intro h a n ha hn hsat
      obtain ⟨π, n', hπ, hn', himp⟩ := h a ha
      rw [pathConstraint_eq_ok hn] at hπ
      rw [hn] at hn'
      cases hπ
      cases hn'
      exact himp (Model.satisfies_conj.mpr hsat)
  · intro a ha
    obtain ⟨n, hn⟩ := hnode a ha
    refine ⟨_, pathConstraint_eq_ok hn, fun hφ hπ b n' hrb hba hn' => ?_⟩
    refine (ht.satisfies_formulaWithin_iff hg hd).mp hφ b n' hrb hn' fun c hc => ?_
    exact Model.satisfies_conj.mp hπ c (ht.guards_subset hg hrb hba hc)

/-- The edges form a tree if the root is the one node without a predecessor and all others have
exactly one. -/
theorem IsTree.of_forall (hn : g.node? r = some n) (hr : n.into = [])
    (h : ∀ (i : Nat) n, g.nodes[i]? = some n → (i : Int) ≠ r → n.into.length = 1) : g.IsTree r where
  root := ⟨n, hn, hr⟩
  only := by
    intro a n _ har hn
    have hnn := nonneg_of_node? hn
    rw [node?_of_nonneg hnn] at hn
    exact List.length_eq_one_iff.mp (h a.toNat n hn (by omega))

theorem DefinedFrom.of_forall (h : ∀ n ∈ g.nodes, (∀ e ∈ n.exprs, m.Defines e) ∧
    ∀ e ∈ n.out, ∀ c ∈ e.guard, m.Defines c) : g.DefinedFrom m r := by
  intro a n _ hn
  rw [node?_of_nonneg (nonneg_of_node? hn)] at hn
  exact h n (List.mem_of_getElem? hn)

/-- A fork on a truth value, with a true assertion on one side and a false one on the other. -/
def forkExample : Graph where
  nodes := [
    { out := [⟨some (.name ⟨0⟩ .bool), 1⟩, ⟨some (.not (.name ⟨0⟩ .bool)), 2⟩] },
    { exprs := [.name ⟨1⟩ .bool], into := [⟨some (.name ⟨0⟩ .bool), 0⟩] },
    { exprs := [.bool false], into := [⟨some (.not (.name ⟨0⟩ .bool)), 0⟩] }]

theorem forkExample_built : forkExample.Built := by
  have h₃ : Built (addNode (addNode (addNode .empty).2).2).2 := .addNode (.addNode (.addNode .empty))
  have h₄ := Built.addEdge (i := 0) (e := ⟨some (.name ⟨0⟩ .bool), 1⟩) h₃ rfl
  have h₅ := Built.addExpr (i := 1) (e := .name ⟨1⟩ .bool) h₄ rfl
  have h₆ := Built.addEdge (i := 0) (e := ⟨some (.not (.name ⟨0⟩ .bool)), 2⟩) h₅ rfl
  exact Built.addExpr (i := 2) (e := .bool false) h₆ rfl

/-- The values under which the example goes to its true assertion. -/
def forkModel : Model :=
  ⟨[(⟨0⟩, .ofBool true), (⟨1⟩, .ofBool true)]⟩

/-- In the example the formula is true, since the false assertion is off the path. -/
theorem forkExample_describes_paths :
    forkExample.Built ∧ forkExample.IsTree 0 ∧ forkExample.DefinedFrom forkModel 0 ∧
      ∃ φ, forkExample.formula 0 = .ok φ ∧ forkModel.Satisfies φ ∧
        ∀ a, forkExample.Reaches 0 a → ∃ π n, forkExample.pathConstraint a = .ok π ∧
          forkExample.node? a = some n ∧
            (forkModel.Satisfies π → ∀ e ∈ n.exprs, forkModel.Satisfies e) := by
  have ht : forkExample.IsTree 0 := by
    refine IsTree.of_forall (n := forkExample.nodes[0]) rfl rfl fun i n hn hi => ?_
    match i with
    | 0 => exact absurd rfl hi
    | 1 => cases hn; rfl
    | 2 => cases hn; rfl
  have hd : forkExample.DefinedFrom forkModel 0 := by
    refine DefinedFrom.of_forall fun n hn => ?_
    simp only [forkExample, List.mem_cons, List.not_mem_nil, or_false] at hn
    rcases hn with rfl | rfl | rfl
    · refine ⟨by simp, fun e he c hc => ?_⟩
      simp only [List.mem_cons, List.not_mem_nil, or_false] at he
      rcases he with rfl | rfl <;> cases hc
      · exact ⟨.ofBool true, rfl⟩
      · exact ⟨.ofBool false, rfl⟩
    · exact ⟨by simpa using ⟨.ofBool true, rfl⟩, by simp⟩
    · exact ⟨by simpa using ⟨.ofBool false, rfl⟩, by simp⟩
  obtain ⟨φ, hφ, -, hiff, -⟩ := IsTree.formula_describes_paths forkExample_built ht hd
  have hsat : forkModel.Satisfies φ := by
    cases hφ
    exact ⟨.ofBool true, rfl, rfl⟩
  exact ⟨forkExample_built, ht, hd, φ, hφ, hsat, hiff.mp hsat⟩

end Graph
end NullPath
