import Mathlib.Data.Fintype.Card
import Mathlib.GroupTheory.Perm.ViaEmbedding
import NullPath.Proofs.Twins

/-!
# The order of exploration

The searcher decides in which order frames are explored, and nothing else.  Explorations of one task
fail together or succeed together.  If they succeed, their counters are equal, and their graphs are
equal up to the numbers of nodes and names and the order of successors.

Both renamings are read off the logs.  Nodes correspond if the same choices lead to them; names
correspond if they were declared at the entry, or at the same place of corresponding visits.

* `Graph.Isomorphic`: graphs that are equal up to numbering.
* `Explorer.Pair.perm_map`, `Explorer.Pair.stats_eq`: what is summed up over twins.
* `Explorer.Pair.isomorphic`: the graphs of two finished logs.
* `Explorer.run_searcher`: the searcher does not matter.
-/

namespace NullPath

/-! ## Graphs up to numbering -/

/-- The edge with its target and the names of its guard renamed. -/
def Edge.rename (ν : Equiv.Perm Int) (ρ : Equiv.Perm Name) (ed : Edge) : Edge :=
  ⟨ed.guard.map (Expr.rename ρ.toEmbedding), ν ed.target⟩

/-- Two nodes are equal up to renamings, and their successors also up to order. -/
structure Node.Isomorphic (ν : Equiv.Perm Int) (ρ : Equiv.Perm Name) (n n' : Node) : Prop where
  exprs : n'.exprs = n.exprs.map (Expr.rename ρ.toEmbedding)
  closed : n'.closed = n.closed
  out : n'.out.Perm (n.out.map (Edge.rename ν ρ))
  into : n'.into = n.into.map (Edge.rename ν ρ)

/-- Two declarations are equal up to renamings, and their tags also up to order. -/
structure Declaration.Isomorphic (ν : Equiv.Perm Int) (ρ : Equiv.Perm Name) (d d' : Declaration) :
    Prop where
  name : d'.name = ρ d.name
  sort : d'.sort = d.sort
  origin : d'.origin = d.origin
  tags : ∀ t : DerefTag, t ∈ d.derefs ↔ ⟨ν t.node, t.span⟩ ∈ d'.derefs

/-- Two graphs are equal up to renamings of nodes and names: one has a node or a declaration where
the other one has it, and they are equal up to the renamings. -/
structure Graph.Isomorphic (ν : Equiv.Perm Int) (ρ : Equiv.Perm Name) (g g' : Graph) : Prop where
  nodes : ∀ i, Option.Rel (Node.Isomorphic ν ρ) (g.node? i) (g'.node? (ν i))
  decls : ∀ n, Option.Rel (Declaration.Isomorphic ν ρ) (g.declaration? n) (g'.declaration? (ρ n))

theorem Expr.rename_refl (x : Expr) : x.rename (.refl Name) = x := by
  induction x with
  | const | name => rfl
  | not x ih | neg x ih => rw [rename, ih]
  | ite c t x ihc iht ihx => rw [rename, ihc, iht, ihx]
  | binary op l r ihl ihr => rw [rename, ihl, ihr]

theorem Edge.rename_injective (ν : Equiv.Perm Int) (ρ : Equiv.Perm Name) :
    Function.Injective (Edge.rename ν ρ) := by
  have hexpr : Function.LeftInverse (Expr.rename ρ.symm.toEmbedding)
      (Expr.rename ρ.toEmbedding) := fun x => by
    rw [Expr.rename_rename]
    convert Expr.rename_refl x
    ext n
    simp
  rintro ⟨c, t⟩ ⟨c', t'⟩ h
  obtain ⟨hc, ht⟩ := Edge.mk.inj h
  obtain rfl := Option.map_injective hexpr.injective hc
  obtain rfl := ν.injective ht
  rfl

/-- A relation that pairs the numbers below two bounds, which then are equal, is part of a
permutation of everything that is numbered. -/
theorem exists_perm_of_rel {β : Type} (ι : ℕ ↪ β) {m n : ℕ} {R : ℕ → ℕ → Prop}
    (hleft : ∀ k < m, ∃ l < n, R k l) (hright : ∀ l < n, ∃ k < m, R k l)
    (hunique : ∀ k l l', R k l → R k l' → l = l')
    (hinjective : ∀ k k' l, R k l → R k' l → k = k') :
    ∃ π : Equiv.Perm β, (∀ k < m, ∀ l < n, R k l → π (ι k) = ι l) ∧
      ∀ b, (∀ k < m, ι k ≠ b) → ∀ l < n, ι l ≠ π b := by
  have htotal : ∀ k : Fin m, ∃ l : Fin n, R k l := fun k => by
    obtain ⟨l, hl, hkl⟩ := hleft k k.isLt
    exact ⟨⟨l, hl⟩, hkl⟩
  choose f hf using htotal
  have hbij : Function.Bijective f := by
    refine ⟨fun k k' h => Fin.ext (hinjective k k' (f k) (hf k) (h ▸ hf k')), fun l => ?_⟩
    obtain ⟨k, hk, hkl⟩ := hright l l.isLt
    exact ⟨⟨k, hk⟩, Fin.ext (hunique k _ _ (hf ⟨k, hk⟩) hkl)⟩
  obtain rfl : m = n := by simpa using Fintype.card_of_bijective hbij
  let ε : Equiv.Perm (Fin m) := Equiv.ofBijective f hbij
  let ι' : Fin m ↪ β := Fin.valEmbedding.trans ι
  refine ⟨ε.viaEmbedding ι', fun k hk l hl hkl => ?_, fun b hb l hl heq => ?_⟩
  · have hε : ε ⟨k, hk⟩ = ⟨l, hl⟩ := Fin.ext (hunique k _ _ (hf ⟨k, hk⟩) hkl)
    exact (ε.viaEmbedding_apply ι' ⟨k, hk⟩).trans (congrArg ι' hε)
  · have hout : b ∉ Set.range ι' := by
      rintro ⟨k, rfl⟩
      exact hb k k.isLt rfl
    rw [ε.viaEmbedding_apply_of_notMem ι' b hout] at heq
    exact hb l hl heq

theorem Declaration.mem_spansAt {d : Declaration} {i : Int} {span : Span} :
    span ∈ d.spansAt i ↔ ⟨i, span⟩ ∈ d.derefs := by
  simp only [spansAt, List.mem_map, List.mem_filter, beq_iff_eq]
  constructor
  · rintro ⟨⟨k, s⟩, ⟨hmem, rfl⟩, rfl⟩
    exact hmem
  · exact fun h => ⟨⟨i, span⟩, ⟨h, rfl⟩, rfl⟩

theorem Frame.countP_admits {ρ ρ' : Name ↪ Name} {rs fs fs' : List Frame} {options : Options}
    (h : List.Forall₂ (Frame.Renamed ρ) rs fs) (h' : List.Forall₂ (Frame.Renamed ρ') rs fs')
    (hpath : ∀ f ∈ fs, ∀ f' ∈ fs', f'.path = f.path) :
    fs'.countP (fun f => !options.admits f) = fs.countP fun f => !options.admits f := by
  induction h generalizing fs' with
  | nil =>
    cases h'
    rfl
  | @cons r f _ _ hf _ ih =>
    cases h' with
    | @cons _ f' _ _ hf' h' =>
      have halike : f.Alike f' := ⟨hf'.function.trans hf.function.symm,
        hf'.block.trans hf.block.symm, hf'.callers.trans hf.callers.symm⟩
      have hsame := halike.admits (hpath f (by simp) f' (by simp)) options
      rw [List.countP_cons, List.countP_cons, hsame, ih h' fun a ha a' ha' =>
        hpath a (.tail _ ha) a' (.tail _ ha')]

namespace Explorer

variable {s₀ : Store} {e e' : Explorer} {vs vs' : List Visit} {cs cs' : Nat → List Nat} {i j : Nat}
  {v w : Visit} {α : Type}

/-! ## One log -/

/-- Values of visits, together with the choices that lead to them. -/
def marked {α : Type} (F : Visit → α) (vs : List Visit) (cs : Nat → List Nat) :
    List (List Nat × α) :=
  List.ofFn fun k : Fin vs.length => (cs k, F vs[k])

theorem mem_marked {F : Visit → α} {a : List Nat × α} :
    a ∈ marked F vs cs ↔ ∃ i v, vs[i]? = some v ∧ (cs i, F v) = a := by
  rw [marked, List.mem_ofFn]
  constructor
  · rintro ⟨k, rfl⟩
    exact ⟨k, vs[k], List.getElem?_eq_getElem k.isLt, rfl⟩
  · rintro ⟨i, v, hv, rfl⟩
    obtain ⟨hi, rfl⟩ := List.getElem?_eq_some_iff.mp hv
    exact ⟨⟨i, hi⟩, rfl⟩

theorem nodup_marked (F : Visit → α) (hcs : e.Choices vs cs) : (marked F vs cs).Nodup := by
  refine List.nodup_ofFn.mpr fun k k' h => ?_
  exact Fin.ext (hcs.injective k k' k.isLt k'.isLt (Prod.mk.inj h).1)

theorem map_snd_marked (F : Visit → α) (vs : List Visit) (cs : Nat → List Nat) :
    (marked F vs cs).map Prod.snd = vs.map F := by
  rw [marked, List.map_ofFn]
  exact List.ofFn_getElem_eq_map vs F

/-- A name is declared by one visit only. -/
theorem Logged.declares_unique (hl : Logged s₀ e vs) {k k' n : Nat} {u u' : Visit}
    (hu : vs[k]? = some u) (hu' : vs[k']? = some u')
    (hle : u.entered.store.graph.decls.length ≤ n) (hlt : n < u.left.store.graph.decls.length)
    (hle' : u'.entered.store.graph.decls.length ≤ n) (hlt' : n < u'.left.store.graph.decls.length) :
    k = k' := by
  have hapart : ∀ {k k' : Nat} {u u' : Visit}, vs[k]? = some u → vs[k']? = some u' → k < k' →
      u.left.store.graph.decls.length ≤ u'.entered.store.graph.decls.length :=
    fun hu hu' hkk => (hl.ordered _ _ _ _ hkk hu hu').length_le
  rcases Nat.lt_trichotomy k k' with hkk | hkk | hkk
  · have := hapart hu hu' hkk
    omega
  · exact hkk
  · have := hapart hu' hu hkk
    omega

/-- The guard of a visited frame is about names that are declared. -/
theorem Logged.guard_sorted (hl : Logged s₀ e vs) (hv : vs[i]? = some v) {c : Expr}
    (hc : v.frame.guard = some c) : c.Sorted v.left.store.graph.uses := by
  cases hp : v.frame.parent with
  | none =>
    obtain rfl := hl.eq_zero_of_parent_none hv hp
    have hguard : v.frame.guard = none := congrArg Frame.guard (hl.first_of_zero hv)
    rw [hguard] at hc
    cases hc
  | some p =>
    obtain ⟨k, u, -, hlt, hu, hmem⟩ := hl.handed_on hv hp
    have hvalid := hl.valid k u hu
    obtain ⟨-, -, -, -, -, hgoes⟩ := hvalid.evolves hvalid.scope
    obtain ⟨n, -, -, hev, -⟩ := (hl.valid i v hv).evolves (hl.valid i v hv).scope
    have hsort := ((hgoes _ hmem).guard c hc).1.sorted
    have hle := (hl.ordered k i u v hlt hu hv).uses_le fun _ => True
    exact (hsort.mono hle).mono (hev.grows.uses_le _)

/-- Only names that are declared at the entry have an origin. -/
theorem Logged.origin_eq_none (hl : Logged s₀ e vs) (hv : vs[i]? = some v) {o : Nat} {d : Declaration}
    (hd : e.graph.declaration? ⟨v.entered.store.graph.decls.length + o⟩ = some d) :
    d.origin = none := by
  by_contra horigin
  have hbase := (hl.based i v hv).length_le
  have hlt : v.entered.store.graph.decls.length + o < s₀.graph.decls.length :=
    hl.origins _ d hd horigin
  omega

namespace Pair

variable {n : Name}

/-! ## Two logs -/

/-- Visits with the same choices are twins. -/
theorem twins (h : Pair s₀ e vs cs e' vs' cs') (hdone : e.searcher.pending = [])
    (hv : vs[i]? = some v) (hw : vs'[j]? = some w) (hcs : cs i = cs' j) :
    Visit.Twins (SameName s₀ vs vs' cs cs') i v j w := by
  obtain ⟨k, u, hu, hku, htwins⟩ := h.exists_twin hdone hw
  have hi := lt_length_of_getElem? hv
  have hk := lt_length_of_getElem? hu
  obtain rfl := h.left.choices.injective k i hk hi (hku.trans hcs.symm)
  obtain rfl := Option.mem_unique hu hv
  exact htwins

/-- Every visit of the first log has a counterpart in the second one, which has finished. -/
theorem exists_counterpart (h : Pair s₀ e vs cs e' vs' cs') (hdone' : e'.searcher.pending = [])
    (hv : vs[i]? = some v) : ∃ j w, vs'[j]? = some w ∧ cs i = cs' j := by
  obtain ⟨j, w, hw, hcs, -⟩ := h.symm.exists_twin hdone' hv
  exact ⟨j, w, hw, hcs.symm⟩

theorem index_lt (h : Pair s₀ e vs cs e' vs' cs') {n' : Name}
    (hn : SameName s₀ vs vs' cs cs' n n') : n.index < e.graph.decls.length := by
  cases hn with
  | entry hlt => exact Nat.lt_of_lt_of_le hlt h.left.logged.base.length_le
  | visit hv _ _ hlt _ => exact Nat.lt_of_lt_of_le hlt (h.left.logged.final _ _ hv).length_le

section
variable (h : Pair s₀ e vs cs e' vs' cs') (hdone : e.searcher.pending = [])
  (hdone' : e'.searcher.pending = [])
include h hdone hdone'

/-- Up to order, the visits of both logs have the same values under a function that is the same on
twins. -/
theorem perm_map (F : Visit → α)
    (hF : ∀ i v j w, Visit.Twins (SameName s₀ vs vs' cs cs') i v j w → F w = F v) :
    (vs'.map F).Perm (vs.map F) := by
  rw [← map_snd_marked F vs cs, ← map_snd_marked F vs' cs']
  refine List.Perm.map _ ?_
  rw [List.perm_ext_iff_of_nodup (nodup_marked F h.right.choices) (nodup_marked F h.left.choices)]
  intro a
  rw [mem_marked, mem_marked]
  constructor
  · rintro ⟨j, w, hw, rfl⟩
    obtain ⟨i, v, hv, hcs, htwins⟩ := h.exists_twin hdone hw
    exact ⟨i, v, hv, by rw [hcs, hF i v j w htwins]⟩
  · rintro ⟨i, v, hv, rfl⟩
    obtain ⟨j, w, hw, hcs⟩ := h.exists_counterpart hdone' hv
    exact ⟨j, w, hw, by rw [hcs, hF i v j w (h.twins hdone hv hw hcs)]⟩

/-- The counters of two finished explorations are equal. -/
theorem stats_eq : e'.stats = e.stats := by
  have hleft := h.left.recorded
  have hright := h.right.recorded
  have hnodes : e'.stats.nodes = e.stats.nodes := by
    rw [hleft.nodes, hright.nodes]
    exact Nat.le_antisymm (h.length_le hdone) (h.symm.length_le hdone')
  have hframes : e'.stats.frames = e.stats.frames := by
    rw [hleft.frames, hright.frames, hdone, hdone', hnodes]
  have hhavoced : e'.stats.havoced = e.stats.havoced := by
    rw [hleft.havoced, hright.havoced]
    refine (h.perm_map hdone hdone' Visit.havoced ?_).sum_nat
    rintro i v j w ⟨-, r, ρ, ρ', hv, hw, -⟩
    rw [hv.havoced, hw.havoced]
  have hinlined : e'.stats.inlined = e.stats.inlined := by
    rw [hleft.inlined, hright.inlined]
    refine (h.perm_map hdone hdone' Visit.inlined ?_).sum_nat
    rintro i v j w ⟨-, r, ρ, ρ', hv, hw, -⟩
    rw [hv.inlined, hw.inlined]
  have hpruned : e'.stats.pruned = e.stats.pruned := by
    rw [hleft.pruned, hright.pruned, h.firstFrame_eq, h.options, List.countP_cons, List.countP_cons,
      List.countP_flatMap, List.countP_flatMap]
    congr 1
    refine (h.perm_map hdone hdone'
      (fun v => v.next.countP fun f => !e.options.admits f) ?_).sum_nat
    rintro i v j w ⟨hpath, r, ρ, ρ', hv, hw, -⟩
    exact Frame.countP_admits hv.next hw.next hpath
  calc e'.stats
    _ = ⟨e'.stats.frames, e'.stats.nodes, e'.stats.pruned, e'.stats.havoced, e'.stats.inlined⟩ := rfl
    _ = e.stats := by rw [hframes, hnodes, hpruned, hhavoced, hinlined]

/-! ## Corresponding names -/

/-- Every name has a counterpart. -/
theorem exists_sameName (hn : n.index < e.graph.decls.length) :
    ∃ n', SameName s₀ vs vs' cs cs' n n' ∧ n'.index < e'.graph.decls.length := by
  suffices hsame : ∃ n', SameName s₀ vs vs' cs cs' n n' by
    obtain ⟨n', hn'⟩ := hsame
    exact ⟨n', hn', h.symm.index_lt hn'.symm⟩
  by_cases hlt : n.index < s₀.graph.decls.length
  · exact ⟨n, .entry hlt⟩
  · obtain ⟨i, v, hv, hle, hlt⟩ := h.left.recorded.names n.index (Nat.le_of_not_lt hlt) hn
    obtain ⟨j, w, hw, hcs⟩ := h.exists_counterpart hdone' hv
    obtain ⟨o, ho⟩ := Nat.exists_eq_add_of_le hle
    rw [ho] at hlt
    have hlt' := ((h.twins hdone hv hw hcs).declares_iff o).mp hlt
    have hname : n = ⟨v.entered.store.graph.decls.length + o⟩ := Name.ext ho
    rw [hname]
    exact ⟨_, .visit hv hw hcs hlt hlt'⟩

end

theorem sameName_unique (h : Pair s₀ e vs cs e' vs' cs') {n' n'' : Name}
    (hn : SameName s₀ vs vs' cs cs' n n') (hn' : SameName s₀ vs vs' cs cs' n n'') : n' = n'' := by
  have hbase : ∀ {k : Nat} {u : Visit} {o : Nat}, vs[k]? = some u →
      ¬ u.entered.store.graph.decls.length + o < s₀.graph.decls.length := fun hu hlt => by
    have := (h.left.logged.based _ _ hu).length_le
    omega
  cases hn with
  | entry hlt =>
    cases hn' with
    | entry _ => rfl
    | visit hv _ _ _ _ => exact absurd hlt (hbase hv)
  | @visit i j o v w hv hw hcs hlt hlt' =>
    generalize hm : (⟨v.entered.store.graph.decls.length + o⟩ : Name) = m at hn'
    cases hn' with
    | entry hm' => exact absurd (hm ▸ hm') (hbase hv)
    | @visit i₁ j₁ o₁ v₁ w₁ hv₁ hw₁ hcs₁ hlt₁ hlt₁' =>
      have heq : v.entered.store.graph.decls.length + o = v₁.entered.store.graph.decls.length + o₁ :=
        congrArg Name.index hm
      obtain rfl := h.left.logged.declares_unique hv hv₁ (Nat.le_add_right _ o) hlt
        (by omega) (by omega)
      obtain rfl := Option.mem_unique hv hv₁
      have hj := lt_length_of_getElem? hw
      have hj₁ := lt_length_of_getElem? hw₁
      obtain rfl := h.right.choices.injective j j₁ hj hj₁ (hcs.symm.trans hcs₁)
      obtain rfl := Option.mem_unique hw hw₁
      obtain rfl : o = o₁ := by omega
      rfl

/-! ## Corresponding nodes and declarations -/

section Isomorphic

variable {ν : Equiv.Perm Int} {ρ : Equiv.Perm Name} (h : Pair s₀ e vs cs e' vs' cs')
  (hdone : e.searcher.pending = []) (hdone' : e'.searcher.pending = [])
  (hν : ∀ i j v w, vs[i]? = some v → vs'[j]? = some w → cs i = cs' j → ν i = j)
  (hρ : ∀ n n', SameName s₀ vs vs' cs cs' n n' → ρ n = n') {n n' : Name} {d d' : Declaration}

section
variable (hv : vs[i]? = some v) (hw : vs'[j]? = some w) (hcs : cs i = cs' j)
include h hv hw hcs

include hdone hρ in
/-- A term of one visit is renamed to the term of its twin. -/
theorem rename_eq :
    ∃ (r : Visit) (σ σ' : Name ↪ Name), r.Renamed σ i v ∧ r.Renamed σ' j w ∧
      ∀ (x : Expr) (D : Scope), (x.rename σ).Sorted D →
        (∀ n s, D n s → n.index < v.left.store.graph.decls.length) →
        (x.rename σ).rename ρ.toEmbedding = x.rename σ' := by
  obtain ⟨-, r, σ, σ', hrv, hrw, hR⟩ := h.twins hdone hv hw hcs
  refine ⟨r, σ, σ', hrv, hrw, fun x D hx hD => ?_⟩
  rw [Expr.rename_rename]
  refine hx.of_rename.rename_congr fun n s hn => ?_
  exact hρ _ _ (hR n (hrv.left.beyond.index_lt_iff.mp (hD _ _ hn)))

include hdone hρ in
theorem guard_eq : w.frame.guard = v.frame.guard.map (Expr.rename ρ.toEmbedding) := by
  obtain ⟨r, σ, σ', hrv, hrw, hrename⟩ := h.rename_eq hdone hρ hv hw hcs
  rw [hrw.frame.guard, hrv.frame.guard]
  cases hc : r.frame.guard with
  | none => rfl
  | some c =>
    have hguard := hrv.frame.guard
    rw [hc, Option.map_some] at hguard
    have hsorted := h.left.logged.guard_sorted hv hguard
    exact congrArg some (hrename c _ hsorted fun n s hn => Graph.index_lt_of_uses hn).symm

include hν in
/-- Corresponding visits come from corresponding visits. -/
theorem parent_eq : w.frame.parent = v.frame.parent.map ν := by
  have hj := lt_length_of_getElem? hw
  by_cases hi₀ : i = 0
  · subst hi₀
    have hj₀ : j = 0 := by
      refine h.right.choices.injective j 0 hj (by omega) ?_
      rw [← hcs, h.left.choices.zero, h.right.choices.zero]
    subst hj₀
    rw [h.left.logged.parent_zero hv, h.right.logged.parent_zero hw]
    rfl
  · obtain ⟨k, c, u, -, hu, -, hpar, hck⟩ := h.left.choices.step i v hv hi₀
    have hj₀ : j ≠ 0 := by
      rintro rfl
      rw [h.right.choices.zero, hck] at hcs
      simp at hcs
    obtain ⟨k', c', u', -, hu', -, hpar', hck'⟩ := h.right.choices.step j w hw hj₀
    rw [hck, hck'] at hcs
    obtain ⟨hkk, -⟩ := List.append_inj' hcs rfl
    rw [hpar, hpar', Option.map_some, hν k k' u u' hu hu' hkk]

include hdone hν hρ in
theorem links_eq : w.frame.links = v.frame.links.map (Edge.rename ν ρ) := by
  have hparent := h.parent_eq hν hv hw hcs
  have hguard := h.guard_eq hdone hρ hv hw hcs
  rw [Frame.links, Frame.links, hparent, hguard]
  cases v.frame.parent <;> rfl

include hdone hdone' hν hρ in
/-- Corresponding nodes have corresponding successors. -/
theorem successors_perm :
    (successors (vs'.map Visit.frame) j).Perm
      ((successors (vs.map Visit.frame) i).map (Edge.rename ν ρ)) := by
  have hij : ν i = j := hν i j v w hv hw hcs
  rw [List.perm_ext_iff_of_nodup (nodup_successors _ _)
    ((nodup_successors _ _).map (Edge.rename_injective ν ρ))]
  rintro ⟨c, b⟩
  rw [mem_successors, List.mem_map]
  constructor
  · rintro ⟨k', f, hf, hpar, rfl, rfl⟩
    rw [List.getElem?_map] at hf
    obtain ⟨u', hu', rfl⟩ := Option.map_eq_some_iff.mp hf
    obtain ⟨k, u, hu, hck, -⟩ := h.exists_twin hdone hu'
    have hpar₀ := h.parent_eq hν hu hu' hck
    rw [hpar, ← hij] at hpar₀
    obtain ⟨p, hp, hνp⟩ := Option.map_eq_some_iff.mp hpar₀.symm
    obtain rfl := ν.injective hνp
    refine ⟨⟨u.frame.guard, k⟩, mem_successors.mpr ⟨k, u.frame, ?_, hp, rfl, rfl⟩, ?_⟩
    · rw [List.getElem?_map, hu]
      rfl
    · rw [Edge.rename, ← h.guard_eq hdone hρ hu hu' hck, hν k k' u u' hu hu' hck]
  · rintro ⟨⟨c₀, b₀⟩, hmem, heq⟩
    obtain ⟨k, f, hf, hpar, rfl, rfl⟩ := mem_successors.mp hmem
    rw [List.getElem?_map] at hf
    obtain ⟨u, hu, rfl⟩ := Option.map_eq_some_iff.mp hf
    obtain ⟨k', u', hu', hck⟩ := h.exists_counterpart hdone' hu
    obtain ⟨hc, hb⟩ := Edge.mk.inj heq
    refine ⟨k', u'.frame, by rw [List.getElem?_map, hu']; rfl, ?_, ?_, ?_⟩
    · rw [h.parent_eq hν hu hu' hck, hpar, Option.map_some, hij]
    · rw [h.guard_eq hdone hρ hu hu' hck]
      exact hc
    · rw [← hb]
      exact hν k k' u u' hu hu' hck

include hdone hdone' hν hρ in
theorem node_isomorphic {n n' : Node} (hn : e.graph.node? i = some n)
    (hn' : e'.graph.node? j = some n') : n.Isomorphic ν ρ n' := by
  have hclosed : ∀ {e : Explorer} {vs : List Visit} {k : Nat} {n : Node}, Recorded s₀ e vs →
      e.graph.node? k = some n → n.closed = true := fun hr hn =>
    hr.rooted.closed _ (List.mem_of_getElem? (by rwa [Graph.node?_natCast] at hn))
  have hspan : ∀ {e : Explorer} {vs : List Visit} {k : Nat} {u : Visit} {n : Node},
      Recorded s₀ e vs → vs[k]? = some u → e.graph.node? k = some n →
        n.into = u.frame.links ∧ n.out = successors (vs.map Visit.frame) k := by
    intro e vs k u n hr hu hn
    obtain ⟨n₀, hn₀, hlinks⟩ :=
      hr.rooted.spans.node k u.frame (by rw [List.getElem?_map, hu]; rfl)
    obtain rfl := Option.mem_unique hn₀ hn
    exact hlinks
  obtain ⟨hinto, hout⟩ := hspan h.left.recorded hv hn
  obtain ⟨hinto', hout'⟩ := hspan h.right.recorded hw hn'
  refine ⟨?_, (hclosed h.right.recorded hn').trans (hclosed h.left.recorded hn).symm, ?_, ?_⟩
  · obtain ⟨r, σ, σ', hrv, hrw, hrename⟩ := h.rename_eq hdone hρ hv hw hcs
    obtain ⟨n₁, m, hn₁, hm, hexprs, -⟩ := h.left.logged.node hv
    obtain ⟨n₁', m', hn₁', hm', hexprs', -⟩ := h.right.logged.node hw
    obtain rfl := Option.mem_unique hn₁ hn
    obtain rfl := Option.mem_unique hn₁' hn'
    obtain ⟨x, y, hx, hy, -, hxy⟩ := hrv.left.node
    obtain ⟨x', y', hx', hy', -, hxy'⟩ := hrw.left.node
    obtain rfl := Option.mem_unique hx hx'
    obtain rfl := Option.mem_unique hy hm
    obtain rfl := Option.mem_unique hy' hm'
    have hvalid := h.left.logged.valid i v hv
    obtain ⟨n₂, hn₂, -, hev, -⟩ := hvalid.evolves hvalid.scope
    obtain rfl := Option.mem_unique hn₂ hm
    rw [hexprs, hexprs', hxy', hxy, List.map_map]
    refine List.map_congr_left fun z hz => ?_
    have hmem : z.rename σ ∈ n₂.exprs := by
      rw [hxy]
      exact List.mem_map_of_mem hz
    exact (hrename z _ (hev.asserts _ hmem).sorted fun n s hn => Graph.index_lt_of_uses hn).symm
  · rw [hout, hout']
    exact h.successors_perm hdone hdone' hν hρ hv hw hcs
  · rw [hinto, hinto']
    exact h.links_eq hdone hν hρ hv hw hcs

end

include h hdone in
/-- Corresponding names are declared in the same way. -/
theorem declared_eq (hn : SameName s₀ vs vs' cs cs' n n') (hd : e.graph.declaration? n = some d)
    (hd' : e'.graph.declaration? n' = some d') : d'.sort = d.sort ∧ d'.origin = d.origin := by
  have hfinal : ∀ {g g' : Graph} {n : Name} {d d₀ : Declaration}, g.Extends g' →
      g'.declaration? n = some d → g.declaration? n = some d₀ →
        d.sort = d₀.sort ∧ d.origin = d₀.origin := by
    intro g g' n d d₀ hext hd hd₀
    obtain ⟨d₁, hd₁, hdd⟩ := hext.decls n.index d₀ hd₀
    obtain rfl := Option.mem_unique hd₁ hd
    exact ⟨hdd.sort, hdd.origin⟩
  cases hn with
  | entry hlt =>
    have hd₀ : s₀.graph.declaration? n = some s₀.graph.decls[n.index] := List.getElem?_eq_getElem hlt
    obtain ⟨hsort, horigin⟩ := hfinal h.left.logged.base hd hd₀
    obtain ⟨hsort', horigin'⟩ := hfinal h.right.logged.base hd' hd₀
    exact ⟨hsort'.trans hsort.symm, horigin'.trans horigin.symm⟩
  | @visit i j o v w hv hw hcs hlt hlt' =>
    -- the declaration of the replay gives the sort, and only the entry gives origins
    obtain ⟨-, r, σ, σ', hrv, hrw, -⟩ := h.twins hdone hv hw hcs
    have hr : r.entered.store.graph.decls.length + o < r.left.store.graph.decls.length := by
      have hiff := hrv.left.beyond.index_lt_iff (n := ⟨r.entered.store.graph.decls.length + o⟩)
      rw [hrv.entered.beyond o] at hiff
      exact hiff.mp hlt
    obtain ⟨d₁, hd₁, hdd₁⟩ := hrv.left.decls ⟨r.entered.store.graph.decls.length + o⟩ _
      (List.getElem?_eq_getElem hr)
    obtain ⟨d₂, hd₂, hdd₂⟩ := hrw.left.decls ⟨r.entered.store.graph.decls.length + o⟩ _
      (List.getElem?_eq_getElem hr)
    rw [hrv.entered.beyond o] at hd₁
    rw [hrw.entered.beyond o] at hd₂
    have hsort := (hfinal (h.left.logged.final i v hv) hd hd₁).1
    have hsort' := (hfinal (h.right.logged.final j w hw) hd' hd₂).1
    refine ⟨by rw [hsort', hdd₂.sort, hsort, hdd₁.sort], ?_⟩
    rw [h.left.logged.origin_eq_none hv hd, h.right.logged.origin_eq_none hw hd']

include h hdone' in
/-- A tag has a counterpart at the node of a twin. -/
theorem exists_tag {t : DerefTag} (hd : e.graph.declaration? n = some d) (ht : t ∈ d.derefs) :
    ∃ (i j : Nat) (v w : Visit) (n' : Name) (d' : Declaration), t.node = i ∧ vs[i]? = some v ∧
      vs'[j]? = some w ∧ cs i = cs' j ∧ SameName s₀ vs vs' cs cs' n n' ∧
      e'.graph.declaration? n' = some d' ∧ ⟨j, t.span⟩ ∈ d'.derefs := by
  obtain ⟨i, -, hi, -, -, -⟩ := h.left.logged.tags n.index d hd t ht
  obtain ⟨v, d₁, hv, hd₁, ht₁⟩ := h.left.recorded.tags n.index i d t hd ht hi
  obtain ⟨j, w, hw, hcs, -, r, σ', σ, hrw, hrv, hR⟩ := h.symm.exists_twin hdone' hv
  have hspan : t.span ∈ d₁.spansAt i := by
    rw [Declaration.mem_spansAt, ← hi]
    exact ht₁
  -- only names of the replay can get a tag
  obtain ⟨n₀, rfl⟩ := hrv.left.tagged n d₁ hd₁ (List.ne_nil_of_mem hspan)
  have hlt := lt_length_of_getElem? hd₁
  have hn₀ : n₀.index < r.left.store.graph.decls.length := hrv.left.beyond.index_lt_iff.mp hlt
  obtain ⟨d₂, hd₂, hdd₂⟩ := hrv.left.decls n₀ _ (List.getElem?_eq_getElem hn₀)
  obtain ⟨d₃, hd₃, hdd₃⟩ := hrw.left.decls n₀ _ (List.getElem?_eq_getElem hn₀)
  obtain rfl := Option.mem_unique hd₁ hd₂
  obtain ⟨d', hd', hext⟩ := (h.right.logged.final j w hw).decls _ d₃ hd₃
  refine ⟨i, j, v, w, σ' n₀, d', hi, hv, hw, hcs.symm, (hR n₀ hn₀).symm, hd', hext.derefs ?_⟩
  rw [← Declaration.mem_spansAt, hdd₃.tags, ← hdd₂.tags]
  exact hspan

include h hdone hdone' hν hρ in
theorem declaration_isomorphic (hn : SameName s₀ vs vs' cs cs' n n')
    (hd : e.graph.declaration? n = some d) (hd' : e'.graph.declaration? n' = some d') :
    d.Isomorphic ν ρ d' := by
  obtain ⟨hsort, horigin⟩ := h.declared_eq hdone hn hd hd'
  refine ⟨?_, hsort, horigin, fun t => ⟨fun ht => ?_, fun ht => ?_⟩⟩
  · rw [(h.left.logged.tidy n.index d hd).1, (h.right.logged.tidy n'.index d' hd').1]
    exact (hρ n n' hn).symm
  · obtain ⟨i, j, v, w, m, d₁, hi, hv, hw, hcs, hm, hd₁, ht₁⟩ := h.exists_tag hdone' hd ht
    obtain rfl := h.sameName_unique hn hm
    obtain rfl := Option.mem_unique hd₁ hd'
    rw [hi, hν i j v w hv hw hcs]
    exact ht₁
  · obtain ⟨j, i, w, v, m, d₁, hj, hw, hv, hcs, hm, hd₁, ht₁⟩ := h.symm.exists_tag hdone hd' ht
    obtain rfl := h.symm.sameName_unique hn.symm hm
    obtain rfl := Option.mem_unique hd₁ hd
    have hnode : t.node = i := ν.injective (hj.trans (hν i j v w hv hw hcs.symm).symm)
    rw [← hnode] at ht₁
    exact ht₁

end Isomorphic

section

variable (h : Pair s₀ e vs cs e' vs' cs') (hdone : e.searcher.pending = [])
  (hdone' : e'.searcher.pending = [])
include h hdone hdone'

/-- The choices give a permutation of the nodes. -/
theorem exists_node_perm :
    ∃ ν : Equiv.Perm Int,
      (∀ i j v w, vs[i]? = some v → vs'[j]? = some w → cs i = cs' j → ν i = j) ∧
      ∀ a, e.graph.node? a = none → e'.graph.node? (ν a) = none := by
  obtain ⟨ν, hν, hout⟩ := exists_perm_of_rel ⟨fun k => (k : Int), fun _ _ => Int.ofNat.inj⟩
    (R := fun i j => i < vs.length ∧ j < vs'.length ∧ cs i = cs' j)
    (fun i hi => by
      obtain ⟨j, w, hw, hcs⟩ := h.exists_counterpart hdone' (List.getElem?_eq_getElem hi)
      have hj := lt_length_of_getElem? hw
      exact ⟨j, hj, hi, hj, hcs⟩)
    (fun j hj => by
      obtain ⟨i, v, hv, hcs, -⟩ := h.exists_twin hdone (List.getElem?_eq_getElem hj)
      have hi := lt_length_of_getElem? hv
      exact ⟨i, hi, hi, hj, hcs⟩)
    (fun i j j' hj hj' => h.right.choices.injective j j' hj.2.1 hj'.2.1 (hj.2.2.symm.trans hj'.2.2))
    (fun i i' j hi hi' => h.left.choices.injective i i' hi.1 hi'.1 (hi.2.2.trans hi'.2.2.symm))
  refine ⟨ν, fun i j v w hv hw hcs => ?_, fun a ha => ?_⟩
  · have hi := lt_length_of_getElem? hv
    have hj := lt_length_of_getElem? hw
    exact hν i hi j hj ⟨hi, hj, hcs⟩
  · rw [Option.eq_none_iff_forall_ne_some]
    intro n hn
    obtain ⟨j, w, hj, hw, -⟩ := h.right.logged.exists_of_node hn
    refine hout a (fun i hi heq => ?_) j (lt_length_of_getElem? hw) hj.symm
    obtain ⟨n, -, hn, -⟩ := h.left.logged.node (List.getElem?_eq_getElem hi)
    rw [show (i : Int) = a from heq, ha] at hn
    cases hn

/-- The places at which names are declared give a permutation of the names. -/
theorem exists_name_perm :
    ∃ ρ : Equiv.Perm Name, (∀ n n', SameName s₀ vs vs' cs cs' n n' → ρ n = n') ∧
      ∀ n, e.graph.declaration? n = none → e'.graph.declaration? (ρ n) = none := by
  obtain ⟨ρ, hρ, hout⟩ := exists_perm_of_rel ⟨Name.mk, fun _ _ => Name.mk.inj⟩
    (R := fun k l => SameName s₀ vs vs' cs cs' ⟨k⟩ ⟨l⟩)
    (fun k hk => by
      obtain ⟨n', hn', hlt⟩ := h.exists_sameName hdone hdone' hk
      exact ⟨n'.index, hlt, hn'⟩)
    (fun l hl => by
      obtain ⟨n, hn, hlt⟩ := h.symm.exists_sameName hdone' hdone hl
      exact ⟨n.index, hlt, hn.symm⟩)
    (fun k l l' hl hl' => Name.mk.inj (h.sameName_unique hl hl'))
    (fun k k' l hk hk' => Name.mk.inj (h.symm.sameName_unique hk.symm hk'.symm))
  refine ⟨ρ, fun n n' hn => ?_, fun n hn => ?_⟩
  · exact hρ n.index (h.index_lt hn) n'.index (h.symm.index_lt hn.symm) hn
  · rw [Graph.declaration?, List.getElem?_eq_none_iff]
    by_contra hlt
    refine hout n (fun k hk heq => ?_) (ρ n).index (Nat.lt_of_not_le hlt) rfl
    rw [← show (⟨k⟩ : Name) = n from heq, Graph.declaration?, List.getElem?_eq_none_iff] at hn
    exact absurd hk (Nat.not_lt.mpr hn)

/-- The graphs of two finished explorations are equal up to numbering, and their roots correspond. -/
theorem isomorphic :
    ∃ (ν : Equiv.Perm Int) (ρ : Equiv.Perm Name), e.graph.Isomorphic ν ρ e'.graph ∧
      (e.graph.nodes ≠ [] → ν e.root = e'.root) := by
  obtain ⟨ν, hν, hout⟩ := h.exists_node_perm hdone hdone'
  obtain ⟨ρ, hρ, hundeclared⟩ := h.exists_name_perm hdone hdone'
  refine ⟨ν, ρ, ⟨fun a => ?_, fun n => ?_⟩, fun hne => ?_⟩
  · cases hn : e.graph.node? a with
    | none =>
      rw [hout a hn]
      exact .none
    | some n =>
      obtain ⟨i, v, rfl, hv, -⟩ := h.left.logged.exists_of_node hn
      obtain ⟨j, w, hw, hcs⟩ := h.exists_counterpart hdone' hv
      obtain ⟨n', -, hn', -⟩ := h.right.logged.node hw
      rw [hν i j v w hv hw hcs, hn']
      exact .some (h.node_isomorphic hdone hdone' hν hρ hv hw hcs hn hn')
  · cases hd : e.graph.declaration? n with
    | none =>
      rw [hundeclared n hd]
      exact .none
    | some d =>
      obtain ⟨n', hn', hlt⟩ :=
        h.exists_sameName hdone hdone' (lt_length_of_getElem? hd)
      have hd' : e'.graph.declaration? n' = some e'.graph.decls[n'.index] :=
        List.getElem?_eq_getElem hlt
      rw [hρ n n' hn', hd']
      exact .some (h.declaration_isomorphic hdone hdone' hν hρ hn' hd hd')
  · have hlen : 0 < vs.length := by
      rw [← h.left.logged.size]
      exact List.length_pos_iff.mpr hne
    have hlen' : 0 < vs'.length := Nat.lt_of_lt_of_le hlen (h.symm.length_le hdone')
    rw [h.left.logged.root (List.length_pos_iff.mp hlen),
      h.right.logged.root (List.length_pos_iff.mp hlen')]
    refine hν 0 0 _ _ (List.getElem?_eq_getElem hlen) (List.getElem?_eq_getElem hlen') ?_
    rw [h.left.choices.zero, h.right.choices.zero]

end

end Pair

/-! ## Runs -/

theorem run_eq (e : Explorer) : e.run = (e.trace.1, e.trace.2.1) := rfl

/-- Two successful explorations of one task have logs over the same entry. -/
theorem exists_pair (he : e.Unused) (he' : e'.Unused) (hoptions : e'.options = e.options)
    (hprogram : e'.program = e.program) (hentry : e'.entry = e.entry) (h : e.trace.1 = .ok ())
    (h' : e'.trace.1 = .ok ()) :
    ∃ s₀ vs cs vs' cs', Pair s₀ e.trace.2.1 vs cs e'.trace.2.1 vs' cs' ∧
      e.trace.2.1.searcher.pending = [] ∧ e'.trace.2.1.searcher.pending = [] := by
  obtain ⟨s₀, vs, hl, hr, -, hdone, -, hopt, hprog, hent⟩ := exists_record he h
  obtain ⟨s₀', vs', hl', hr', -, hdone', -, hopt', hprog', hent'⟩ := exists_record he' h'
  obtain ⟨cs, hcs⟩ := hl.exists_choices
  obtain ⟨cs', hcs'⟩ := hl'.exists_choices
  have hsame := hent'.trans (hentry.trans hent.symm)
  obtain rfl := hl.entered_unique hl' hsame
  exact ⟨s₀', vs, cs, vs', cs', ⟨⟨hl, hr, hcs⟩, ⟨hl', hr', hcs'⟩, by rw [hopt, hopt', hoptions],
    by rw [hprog, hprog', hprogram], hsame⟩, hdone, hdone'⟩

/-- The exploration with another searcher. -/
def withSearcher (e : Explorer) (searcher : Searcher Frame) : Explorer :=
  { e with searcher }

/-- Replacing the searcher of an exploration by any other one changes only the order.  Both runs
fail, or both succeed with equal counters and with graphs that are equal up to renamings of nodes and
names and the order of successors. -/
theorem run_searcher {e : Explorer} (he : e.Unused) {searcher : Searcher Frame}
    (hturning : searcher.Turning) (hempty : searcher.pending = []) :
    (∃ failure failure', e.run.1 = .error failure ∧
        (e.withSearcher searcher).run.1 = .error failure') ∨
      (e.run.1 = .ok () ∧ (e.withSearcher searcher).run.1 = .ok () ∧
        (e.withSearcher searcher).run.2.stats = e.run.2.stats ∧
        ∃ (ν : Equiv.Perm Int) (ρ : Equiv.Perm Name),
          e.run.2.graph.Isomorphic ν ρ (e.withSearcher searcher).run.2.graph ∧
          (e.run.2.graph.nodes ≠ [] → ν e.run.2.root = (e.withSearcher searcher).run.2.root)) := by
  have he' : (e.withSearcher searcher).Unused := ⟨⟨he.started, he.graph, hturning, hempty⟩, he.stats⟩
  simp only [run_eq]
  cases h : e.trace.1 with
  | error failure =>
    cases h' : (e.withSearcher searcher).trace.1 with
    | error failure' => exact Or.inl ⟨failure, failure', rfl, rfl⟩
    | ok _ =>
      have hok := succeeds_of_succeeds he' he rfl rfl rfl h'
      rw [h] at hok
      cases hok
  | ok _ =>
    have h' := succeeds_of_succeeds he he' rfl rfl rfl h
    obtain ⟨s₀, vs, cs, vs', cs', hpair, hdone, hdone'⟩ :=
      exists_pair he he' rfl rfl rfl h h'
    exact Or.inr ⟨rfl, h', hpair.stats_eq hdone hdone', hpair.isomorphic hdone hdone'⟩

/-! ## Two ways through a branch -/

/-- Branches, and reads behind a pointer on one branch. -/
def branchedRead : Explorer where
  entry := {
    name := "branched"
    locals := [⟨"", .integer⟩, ⟨"p", .pointer "*int" .integer⟩, ⟨"x", .integer⟩]
    argCount := 2
    blocks := [
      ⟨[], .switch (.copy ⟨2, 0⟩) [0] [1, 2] {}⟩,
      ⟨[.assign ⟨0, 0⟩ (.use (.copy ⟨1, 1⟩)) {}], .goto 3⟩,
      ⟨[.assign ⟨2, 0⟩ (.use (.const 1 .integer)) {}], .goto 3⟩,
      ⟨[], .return⟩] }

/-- The latest frame and the earliest one are chosen in turns. -/
def alternating : Searcher Frame where
  pools := [{ strategy := .depthFirst }, { strategy := .breadthFirst }]

/-- Both orders visit five nodes, and number them differently. -/
theorem branchedRead_alternating :
    branchedRead.run.2.graph.nodes.map (fun n : Node => n.exprs.length) = [0, 1, 0, 1, 0] ∧
      (branchedRead.withSearcher alternating).run.2.graph.nodes.map
        (fun n : Node => n.exprs.length) = [0, 1, 1, 0, 0] ∧
      (branchedRead.withSearcher alternating).run.2.stats = branchedRead.run.2.stats ∧
      ∃ (ν : Equiv.Perm Int) (ρ : Equiv.Perm Name), branchedRead.run.2.graph.Isomorphic ν ρ
        (branchedRead.withSearcher alternating).run.2.graph := by
  have hok : branchedRead.run.1 = .ok () := by decide +kernel
  have hleft : branchedRead.run.2.graph.nodes.map (fun n : Node => n.exprs.length) =
    [0, 1, 0, 1, 0] := by decide +kernel
  have hright : (branchedRead.withSearcher alternating).run.2.graph.nodes.map
    (fun n : Node => n.exprs.length) = [0, 1, 1, 0, 0] := by decide +kernel
  have hunused : branchedRead.Unused := .new ..
  have hturning : alternating.Turning := ⟨by decide, by decide⟩
  rcases run_searcher hunused hturning rfl with
    ⟨failure, failure', hfail, -⟩ | ⟨-, -, hstats, ν, ρ, hiso, -⟩
  · rw [hok] at hfail
    cases hfail
  · exact ⟨hleft, hright, hstats, ν, ρ, hiso⟩

end Explorer

end NullPath
