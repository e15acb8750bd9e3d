import NullPath.Proofs.Actions
import NullPath.Proofs.Renaming

/-!
# Execution under a renaming

A block can be executed twice, on two graphs that number names and nodes differently.  If the two
memories are the same up to a renaming, and the two nodes at work are in the same state, then the
executions do the same: either both fail, or both succeed and everything that they produce is the
same up to the renaming.  What else the two graphs hold does not matter, because an execution only
looks at its own node, at the sorts of the names it handles, and at their tags at its own node.

New names are declared at the end of each table.  The renaming is fixed from the beginning: it
sends the names that one table declares next to those that the other one declares next.

* `Action.Mirrors`: two actions that keep a relation between their states, and fail together.
* `Store.Renamed`: memory, declared names and the node at work are the same up to a renaming.
* `Store.Coupling`: the relations between stores that reading and writing memory keep.
* `Store.mirrors_statements`, `Machine.mirrors_block`: statements and blocks.
-/

namespace NullPath

/-! ## Actions in step -/

namespace Action

variable {σ τ α β γ δ : Type}

/-- Two results are values that correspond, with states that correspond, or both are failures. -/
inductive Agree (P : σ → τ → Prop) (Q : α → β → Prop) :
    Except Failure α × σ → Except Failure β × τ → Prop
  | ok {a : α} {b : β} {s : σ} {t : τ} : P s t → Q a b → Agree P Q (.ok a, s) (.ok b, t)
  | error {e e' : Failure} {s : σ} {t : τ} : Agree P Q (.error e, s) (.error e', t)

/-- From states that correspond, two actions give results that agree. -/
def Mirrors (P : σ → τ → Prop) (x : Action σ α) (y : Action τ β)
    (Q : α → β → Prop := fun _ _ => True) : Prop :=
  ∀ s t, P s t → Agree P Q (x s) (y t)

namespace Mirrors

variable {P : σ → τ → Prop} {Q : α → β → Prop} {Q' : γ → δ → Prop} {x : Action σ α}
  {y : Action τ β}

theorem pure {a : α} {b : β} (h : Q a b) :
    Mirrors P (Pure.pure a : Action σ α) (Pure.pure b : Action τ β) Q :=
  fun _ _ hst => .ok hst h

theorem error (e e' : Error) :
    Mirrors P (Action.error e : Action σ α) (Action.error e' : Action τ β) Q :=
  fun _ _ _ => .error

theorem bind {f : α → Action σ γ} {g : β → Action τ δ} (h : Mirrors P x y Q)
    (hfg : ∀ a b, Q a b → Mirrors P (f a) (g b) Q') : Mirrors P (x >>= f) (y >>= g) Q' := by
  intro s t hst
  have hxy := h s t hst
  rw [bind_apply, bind_apply]
  generalize x s = r at hxy ⊢
  generalize y t = r' at hxy ⊢
  cases hxy with
  | ok hst' hab => exact hfg _ _ hab _ _ hst'
  | error => exact .error

theorem of_get {f : σ → Action σ γ} {g : τ → Action τ δ}
    (h : ∀ s t, P s t → Agree P Q' (f s s) (g t t)) : Mirrors P (get >>= f) (get >>= g) Q' :=
  h

theorem modify {f : σ → σ} {g : τ → τ} (h : ∀ s t, P s t → P (f s) (g t)) :
    Mirrors P (Action.modify f) (Action.modify g) :=
  fun s t hst => .ok (h s t hst) trivial

/-- A result that is the same on both sides. -/
theorem lift (r : Except Error α) :
    Mirrors P (Action.lift r : Action σ α) (Action.lift r : Action τ α) Eq := by
  cases r with
  | ok a => exact .pure rfl
  | error e => exact .error _ _

/-- A result that is the same on both sides, up to what the second side makes of its value. -/
theorem lift_map {r : Except Error α} {r' : Except Error β} (f : α → β) (h : r' = r.map f) :
    Mirrors P (Action.lift r : Action σ α) (Action.lift r' : Action τ β) fun a b => b = f a := by
  subst h
  cases r with
  | ok a => exact .pure rfl
  | error e => exact .error _ _

theorem within (h : Mirrors P x y Q) (activity : String) :
    Mirrors P (Action.within activity x) (Action.within activity y) Q := by
  intro s t hst
  have hxy := h s t hst
  unfold Action.within
  generalize x s = r at hxy ⊢
  generalize y t = r' at hxy ⊢
  cases hxy with
  | ok hst' hab => exact .ok hst' hab
  | error => exact .error

end Mirrors

end Action

open Action (Mirrors)

/-! ## Stores -/

/-- An assertion is added to an open node, if it is a truth value. -/
theorem Graph.addExpr_of_node? {g : Graph} {i : Int} {n : Node} (hn : g.node? i = some n)
    (e : Expr) : g.addExpr i e =
      if n.closed then .error (.closedNode i)
      else if e.sort = .bool then .ok (g.modifyNode i fun n => { n with exprs := n.exprs ++ [e] })
      else .error (.nonBoolean e) := by
  rw [addExpr, node, hn]
  simp only [bind, Except.bind]
  split
  · rfl
  · by_cases hs : e.sort = .bool
    · rw [if_pos hs, if_neg (not_not_intro hs)]
      rfl
    · rw [if_neg hs, if_pos hs]
      rfl

/-- The positions at which the name is tagged as dereferenced at a node. -/
def Declaration.spansAt (d : Declaration) (i : Int) : List Span :=
  (d.derefs.filter fun t => t.node == i).map DerefTag.span

/-- One declaration is another one renamed.  Of the tags, those at the node at work count. -/
structure Declaration.Renamed (ρ : Name ↪ Name) (i j : Int) (d d' : Declaration) : Prop where
  name : d'.name = ρ d.name
  sort : d'.sort = d.sort
  tags : d'.spansAt j = d.spansAt i

theorem Declaration.isDerefedAt_iff {d : Declaration} {i : Int} :
    d.isDerefedAt i = true ↔ d.spansAt i ≠ [] := by
  simp [isDerefedAt, spansAt, List.filter_eq_nil_iff]

namespace Declaration.Renamed

variable {ρ : Name ↪ Name} {i j : Int} {d d' : Declaration}

theorem expr (h : d.Renamed ρ i j d') : d'.expr = d.expr.rename ρ := by
  rw [Declaration.expr, Declaration.expr, Expr.rename, h.name, h.sort]

theorem isDerefedAt (h : d.Renamed ρ i j d') : d'.isDerefedAt j = d.isDerefedAt i := by
  rw [Bool.eq_iff_iff, isDerefedAt_iff, isDerefedAt_iff, h.tags]

theorem tag (h : d.Renamed ρ i j d') (span : Span) :
    Declaration.Renamed ρ i j { d with derefs := d.derefs ++ [⟨i, span⟩] }
      { d' with derefs := d'.derefs ++ [⟨j, span⟩] } := by
  refine ⟨h.name, h.sort, ?_⟩
  have ht := h.tags
  rw [spansAt] at ht
  simp [spansAt, List.filter_append, ht]

end Declaration.Renamed

/-- One store is another one renamed, as far as an execution at a node can see: memory, declared
names, the names that are tagged at the node or declared next, and the node. -/
structure Store.Renamed (ρ : Name ↪ Name) (i j : Int) (s t : Store) : Prop where
  memory : s.memory.Renamed ρ t.memory
  decls : ∀ n d, s.graph.declaration? n = some d →
    ∃ d', t.graph.declaration? (ρ n) = some d' ∧ d.Renamed ρ i j d'
  tagged : ∀ n' d', t.graph.declaration? n' = some d' → d'.spansAt j ≠ [] → ∃ n, ρ n = n'
  beyond : Shifts ρ s.graph.decls.length t.graph.decls.length
  node : ∃ n n', s.graph.node? i = some n ∧ t.graph.node? j = some n' ∧ n'.closed = n.closed ∧
    n'.exprs = n.exprs.map (Expr.rename ρ)

namespace Store

variable {ρ : Name ↪ Name} {i j : Int} {s t : Store} {env : Env}

namespace Renamed

theorem undeclared (h : s.Renamed ρ i j t) {n : Name} (hn : s.graph.declaration? n = none) :
    t.graph.declaration? (ρ n) = none := by
  rw [Graph.declaration?, h.beyond.apply (List.getElem?_eq_none_iff.mp hn)]
  exact List.getElem?_eq_none (Nat.le_add_right _ _)

theorem of_memory {m m' : Memory} (h : s.Renamed ρ i j t) (hm : m.Renamed ρ m') :
    Renamed ρ i j { s with memory := m } { t with memory := m' } :=
  ⟨hm, h.decls, h.tagged, h.beyond, h.node⟩

theorem declare (h : s.Renamed ρ i j t) (sort : ExprSort) (origin : Option Origin) :
    Renamed ρ i j { s with graph := (s.graph.declare sort origin).2 }
      { t with graph := (t.graph.declare sort origin).2 } := by
  have hnext : ρ ⟨s.graph.decls.length⟩ = ⟨t.graph.decls.length⟩ := h.beyond 0
  refine ⟨h.memory, fun n d hd => ?_, fun n' d' hd' hne => ?_, fun k => ?_, h.node⟩
  · rw [Graph.declaration?, Graph.declare] at hd ⊢
    rcases Nat.lt_trichotomy n.index s.graph.decls.length with hlt | heq | hgt
    · rw [List.getElem?_append_left hlt] at hd
      obtain ⟨d', hd', hdd⟩ := h.decls n d hd
      have hlt' : (ρ n).index < t.graph.decls.length := lt_length_of_getElem? hd'
      exact ⟨d', by rw [List.getElem?_append_left hlt']; exact hd', hdd⟩
    · have hn : n = ⟨s.graph.decls.length⟩ := Name.ext heq
      subst hn
      rw [List.getElem?_concat_length] at hd
      cases hd
      refine ⟨⟨⟨t.graph.decls.length⟩, sort, [], origin⟩, ?_, hnext.symm, rfl, rfl⟩
      rw [hnext]
      exact List.getElem?_concat_length
    · rw [List.getElem?_eq_none (by simpa using Nat.succ_le_of_lt hgt)] at hd
      cases hd
  · rw [Graph.declaration?, Graph.getElem?_declare] at hd'
    split at hd'
    · cases hd'
      exact absurd rfl hne
    · exact h.tagged n' d' hd' hne
  · simp only [Graph.declare, List.length_append, List.length_singleton]
    rw [Nat.add_assoc, Nat.add_assoc]
    exact h.beyond (1 + k)

theorem tag (h : s.Renamed ρ i j t) (n : Name) (span : Span) :
    Renamed ρ i j
      { s with graph.decls := s.graph.decls.modify n.index fun d =>
          { d with derefs := d.derefs ++ [⟨i, span⟩] } }
      { t with graph.decls := t.graph.decls.modify (ρ n).index fun d =>
          { d with derefs := d.derefs ++ [⟨j, span⟩] } } := by
  refine ⟨h.memory, fun m d hd => ?_, fun n' d' hd' hne => ?_, fun k => ?_, h.node⟩
  · rw [Graph.declaration?, List.getElem?_modify] at hd ⊢
    obtain ⟨d₀, hd₀, rfl⟩ := Option.map_eq_some_iff.mp hd
    obtain ⟨d', hd', hdd⟩ := h.decls m d₀ hd₀
    refine ⟨_, by rw [show t.graph.decls[(ρ m).index]? = some d' from hd']; rfl, ?_⟩
    by_cases hnm : n = m
    · subst hnm
      simpa using hdd.tag span
    · have hne : n.index ≠ m.index := fun he => hnm (Name.ext he)
      have hne' : (ρ n).index ≠ (ρ m).index := fun he => hnm (ρ.injective (Name.ext he))
      simpa [hne, hne'] using hdd
  · by_cases hn' : ρ n = n'
    · exact ⟨n, hn'⟩
    · have hindex : (ρ n).index ≠ n'.index := fun heq => hn' (Name.ext heq)
      refine h.tagged n' d' ?_ hne
      simpa [Graph.declaration?, List.getElem?_modify, hindex] using hd'
  · simpa using h.beyond k

theorem addExpr (h : s.Renamed ρ i j t) (e : Expr) :
    Renamed ρ i j
      { s with graph := s.graph.modifyNode i fun n => { n with exprs := n.exprs ++ [e] } }
      { t with graph := t.graph.modifyNode j fun n =>
          { n with exprs := n.exprs ++ [e.rename ρ] } } := by
  obtain ⟨n, n', hn, hn', hclosed, hexprs⟩ := h.node
  refine ⟨h.memory, h.decls, h.tagged, h.beyond, { n with exprs := n.exprs ++ [e] },
    { n' with exprs := n'.exprs ++ [e.rename ρ] }, ?_, ?_, hclosed, ?_⟩
  · rw [Graph.node?_modifyNode (Graph.nonneg_of_node? hn), if_pos rfl, hn]
    rfl
  · rw [Graph.node?_modifyNode (Graph.nonneg_of_node? hn'), if_pos rfl, hn']
    rfl
  · rw [List.map_append, hexprs]
    rfl

end Renamed

/-! ## Reading and writing -/

theorem mirrors_onGraph {f f' : Graph → Except Fault Graph}
    (h : ∀ s t : Store, s.Renamed ρ i j t → (∃ g g', f s.graph = .ok g ∧ f' t.graph = .ok g' ∧
      Renamed ρ i j { s with graph := g } { t with graph := g' }) ∨
      ∃ e e', f s.graph = .error e ∧ f' t.graph = .error e') :
    Mirrors (Renamed ρ i j) (onGraph f) (onGraph f') := by
  refine .of_get fun s t hst => ?_
  rcases h s t hst with ⟨g, g', hg, hg', hr⟩ | ⟨e, e', he, he'⟩
  · rw [hg, hg']
    exact .ok hr trivial
  · rw [he, he']
    exact .error

theorem mirrors_declare (sort : ExprSort) (origin : Option Origin) :
    Mirrors (Renamed ρ i j) (declare sort origin) (declare sort origin) fun n n' => n' = ρ n :=
  fun _ _ hst => .ok (hst.declare sort origin) (hst.beyond 0).symm

theorem mirrors_declaration (n : Name) :
    Mirrors (Renamed ρ i j) (declaration n) (declaration (ρ n)) (Declaration.Renamed ρ i j) := by
  refine .of_get fun s t hst => ?_
  unfold Graph.declaration
  cases hd : s.graph.declaration? n with
  | none =>
    rw [hst.undeclared hd]
    exact .error
  | some d =>
    obtain ⟨d', hd', hdd⟩ := hst.decls n d hd
    rw [hd']
    exact .ok hst hdd

theorem mirrors_setCell (c : Cell) (b : Binding) :
    Mirrors (Renamed ρ i j) (setCell c b) (setCell (c.rename ρ) (b.rename ρ)) :=
  .modify fun _ _ hst => hst.of_memory (hst.memory.set c b)

theorem mirrors_tag (env : Env) (n : Name) :
    Mirrors (Renamed ρ env.node j) (tag env n) (tag { env with node := j } (ρ n)) := by
  refine (mirrors_declaration n).bind fun d d' hdd => ?_
  rw [show d'.isDerefedAt j = _ from hdd.isDerefedAt]
  split
  · refine mirrors_onGraph fun s t hst => ?_
    unfold Graph.addTag Graph.declaration
    cases hd : s.graph.declaration? n with
    | none =>
      rw [hst.undeclared hd]
      exact .inr ⟨_, _, rfl, rfl⟩
    | some d₀ =>
      obtain ⟨d₀', hd₀', -⟩ := hst.decls n d₀ hd
      rw [hd₀']
      exact .inl ⟨_, _, rfl, rfl, hst.tag n env.span⟩
  · exact .pure trivial

/-- A relation between stores that is kept while memory is read and written, in two environments
that differ in the node and the position at work only. -/
structure Coupling (ρ : Name ↪ Name) (env env' : Env) (P : Store → Store → Prop) : Prop where
  function : env'.function = env.function
  depth : env'.depth = env.depth
  memory : ∀ {s t}, P s t → s.memory.Renamed ρ t.memory
  of_memory : ∀ {s t m m'}, P s t → m.Renamed ρ m' →
    P { s with memory := m } { t with memory := m' }
  declare : ∀ sort, Action.Mirrors P (declare sort none) (declare sort none) (fun n n' => n' = ρ n)
  tag : ∀ n, Action.Mirrors P (tag env n) (tag env' (ρ n))

namespace Coupling

variable {env' : Env} {P : Store → Store → Prop}

theorem setCell (h : Coupling ρ env env' P) (c : Cell) (b : Binding) :
    Mirrors P (setCell c b) (setCell (c.rename ρ) (b.rename ρ)) :=
  .modify fun _ _ hst => h.of_memory hst ((h.memory hst).set c b)

theorem readCell (h : Coupling ρ env env' P) (p : Place) (c : Cell) :
    Mirrors P (readCell env p c) (Store.readCell env' p (c.rename ρ)) fun n n' => n' = ρ n := by
  refine .of_get fun s t hst => ?_
  rw [(h.memory hst).get? c, h.function]
  rcases s.memory.get? c with - | ⟨n, - | -⟩
  · split
    · exact .error
    · refine (Mirrors.bind (.lift _) fun sort sort' hsort => ?_) s t hst
      subst hsort
      refine (h.declare sort).bind fun n n' hn => ?_
      subst hn
      exact (h.setCell c ⟨n, false⟩).bind fun _ _ _ => .pure rfl
  · exact .ok hst rfl
  · exact .error

theorem resolveAt (h : Coupling ρ env env' P) (base : Int) (k : Nat) :
    Mirrors P (resolveAt env base k) (Store.resolveAt env' base k)
      fun c c' => c' = c.rename ρ := by
  induction k with
  | zero =>
    unfold Store.resolveAt
    rw [h.function, h.depth]
    cases env.function.localVar? base with
    | none => exact .error _ _
    | some l => exact .of_get fun s t hst => .ok hst ((h.memory hst).cellOf _)
  | succ k ih =>
    refine ih.bind fun c c' hc => ?_
    subst hc
    refine (h.readCell ⟨base, k⟩ c).bind fun n n' hn => ?_
    subst hn
    exact (h.tag n).bind fun _ _ _ => .pure rfl

theorem writeFresh (h : Coupling ρ env env' P) (p : Place) :
    Mirrors P (writeFresh env p) (Store.writeFresh env' p) fun n n' => n' = ρ n := by
  unfold Store.writeFresh
  rw [h.function]
  refine Mirrors.bind (.lift _) fun sort sort' hsort => ?_
  subst hsort
  refine (h.resolveAt p.base p.derefs).bind fun c c' hc => ?_
  subst hc
  refine (h.declare sort).bind fun n n' hn => ?_
  subst hn
  exact (h.setCell c ⟨n, false⟩).bind fun _ _ _ => .pure rfl

end Coupling

theorem Renamed.coupling (env : Env) :
    Coupling ρ env { env with node := j } (Renamed ρ env.node j) where
  function := rfl
  depth := rfl
  memory := Renamed.memory
  of_memory := Renamed.of_memory
  declare := fun sort => mirrors_declare sort none
  tag := mirrors_tag env

theorem mirrors_readCell (env : Env) (p : Place) (c : Cell) :
    Mirrors (Renamed ρ env.node j) (readCell env p c)
      (readCell { env with node := j } p (c.rename ρ)) fun n n' => n' = ρ n :=
  (Renamed.coupling env).readCell p c

theorem mirrors_resolve (env : Env) (p : Place) :
    Mirrors (Renamed ρ env.node j) (resolve env p) (resolve { env with node := j } p)
      fun c c' => c' = c.rename ρ :=
  (Renamed.coupling env).resolveAt p.base p.derefs

theorem mirrors_readCopy (env : Env) (p : Place) :
    Mirrors (Renamed ρ env.node j) (readCopy env p) (readCopy { env with node := j } p)
      fun n n' => n' = ρ n := by
  refine (mirrors_resolve env p).bind fun c c' hc => ?_
  subst hc
  exact mirrors_readCell env p c

theorem mirrors_readMove (env : Env) (p : Place) :
    Mirrors (Renamed ρ env.node j) (readMove env p) (readMove { env with node := j } p)
      fun n n' => n' = ρ n := by
  refine (mirrors_readCopy env p).bind fun n n' hn => ?_
  subst hn
  refine (mirrors_resolve env p).bind fun c c' hc => ?_
  subst hc
  exact (mirrors_setCell c ⟨n, true⟩).bind fun _ _ _ => .pure rfl

theorem mirrors_bind (env : Env) (p : Place) (n : Name) :
    Mirrors (Renamed ρ env.node j) (bind env p n) (bind { env with node := j } p (ρ n)) := by
  refine (mirrors_resolve env p).bind fun c c' hc => ?_
  subst hc
  exact mirrors_setCell c ⟨n, false⟩

theorem mirrors_writeFresh (env : Env) (p : Place) :
    Mirrors (Renamed ρ env.node j) (writeFresh env p) (writeFresh { env with node := j } p)
      fun n n' => n' = ρ n :=
  (Renamed.coupling env).writeFresh p

theorem mirrors_unbind (env : Env) (base : Int) :
    Mirrors (Renamed ρ i j) (unbind env base) (unbind { env with node := j } base) :=
  .modify fun _ _ hst => hst.of_memory (hst.memory.unbind _)

theorem mirrors_drop (depth : Int) :
    Mirrors (Renamed ρ i j) (drop depth) (drop depth) :=
  .modify fun _ _ hst => hst.of_memory (hst.memory.drop depth)

theorem mirrors_ref (env : Env) (p : Place) :
    Mirrors (Renamed ρ env.node j) (ref env p) (ref { env with node := j } p)
      fun a b => b = (ρ a.1, a.2) := by
  unfold ref
  cases p.pointer? with
  | some q =>
    refine (mirrors_readCopy env q).bind fun n n' hn => ?_
    subst hn
    exact .pure rfl
  | none =>
    cases env.function.localVar? p.base with
    | none => exact .error _ _
    | some l =>
      refine .of_get fun s t hst => ?_
      have haddr := hst.memory.addrs.get? (.of env.depth p.base)
      rw [id_eq] at haddr
      rw [haddr]
      cases s.memory.addrs.get? (.of env.depth p.base) with
      | some n => exact .ok hst rfl
      | none =>
        refine ((mirrors_declare .int none).bind fun n n' hn => ?_) s t hst
        subst hn
        refine (Mirrors.modify fun s t hst => ?_).bind fun _ _ _ => .pure rfl
        exact hst.of_memory (hst.memory.giveAddress _ n)

/-! ## Values and statements -/

theorem mirrors_expr (n : Name) :
    Mirrors (Renamed ρ i j) (do return (← declaration n).expr)
      (do return (← declaration (ρ n)).expr) fun e e' => e' = e.rename ρ :=
  (mirrors_declaration n).bind fun _ _ hdd => .pure hdd.expr

theorem mirrors_operand (env : Env) (x : Operand) :
    Mirrors (Renamed ρ env.node j) (operand env x) (operand { env with node := j } x)
      fun e e' => e' = e.rename ρ := by
  cases x with
  | copy p =>
    refine (mirrors_readCopy env p).bind fun n n' hn => ?_
    subst hn
    exact mirrors_expr n
  | move p =>
    refine (mirrors_readMove env p).bind fun n n' hn => ?_
    subst hn
    exact mirrors_expr n
  | const v t =>
    refine Mirrors.bind (.lift _) fun sort sort' hsort => ?_
    subst hsort
    refine .pure ?_
    split <;> rfl
  | missing => exact .error _ _

theorem mirrors_assertExpr {e e' : Expr} (he : e' = e.rename ρ) :
    Mirrors (Renamed ρ i j) (assertExpr i e) (assertExpr j e') := by
  subst he
  refine mirrors_onGraph fun s t hst => ?_
  obtain ⟨n, n', hn, hn', hclosed, -⟩ := hst.node
  rw [Graph.addExpr_of_node? hn, Graph.addExpr_of_node? hn', hclosed, Expr.sort_rename]
  cases n.closed with
  | true => exact .inr ⟨_, _, rfl, rfl⟩
  | false =>
    by_cases hs : e.sort = .bool
    · rw [if_pos hs, if_pos hs]
      exact .inl ⟨_, _, rfl, rfl, hst.addExpr e⟩
    · rw [if_neg hs, if_neg hs]
      exact .inr ⟨_, _, rfl, rfl⟩

theorem mirrors_rvalue (env : Env) (rv : Rvalue) :
    Mirrors (Renamed ρ env.node j) (rvalue env rv) (rvalue { env with node := j } rv)
      fun e e' => e' = e.rename ρ := by
  cases rv with
  | use x => exact mirrors_operand env x
  | binary op l r =>
    refine (mirrors_operand env l).bind fun a a' ha => ?_
    subst ha
    refine (mirrors_operand env r).bind fun b b' hb => ?_
    subst hb
    exact .lift_map _ (op.term_rename a b)
  | unary op x =>
    refine (mirrors_operand env x).bind fun a a' ha => ?_
    subst ha
    exact .lift_map _ (op.term_rename a)
  | cast x ty =>
    refine (mirrors_operand env x).bind fun a a' ha => ?_
    subst ha
    exact .lift_map _ (ty.castTerm_rename a)
  | ref p =>
    refine (mirrors_ref env p).bind fun a a' ha => ?_
    subst ha
    obtain ⟨n, isNew⟩ := a
    cases isNew with
    | false => exact .pure rfl
    | true =>
      refine (mirrors_assertExpr ?_).bind fun _ _ _ => .pure rfl
      rfl
  | missing => exact .error _ _

theorem mirrors_assertEqual (n : Name) (value : Expr) :
    Mirrors (Renamed ρ i j) (assertEqual i n value) (assertEqual j (ρ n) (value.rename ρ)) := by
  refine (mirrors_declaration n).bind fun d d' hdd => ?_
  rw [Expr.sort_rename, hdd.sort, hdd.expr]
  split
  · exact .error _ _
  · exact mirrors_assertExpr (Expr.rename_mkEq _ _).symm

theorem sharesName_rename (env : Env) (p : Place) (value : Expr) :
    sharesName { env with node := j } p (value.rename ρ) =
      (sharesName env p value).map (Option.map ρ) := by
  cases value with
  | name n s =>
    simp only [sharesName, Expr.rename]
    split
    · rfl
    · rw [Except.map, apply_ite (Option.map ρ), Option.map_some, Option.map_none]
    · rfl
  | _ => rfl

theorem mirrors_assign (env : Env) (p : Place) (rv : Rvalue) :
    Mirrors (Renamed ρ env.node j) (assign env p rv) (assign { env with node := j } p rv) := by
  refine (mirrors_rvalue env rv).bind fun value value' hvalue => ?_
  subst hvalue
  rw [sharesName_rename]
  cases sharesName env p value with
  | error f => exact fun _ _ _ => .error
  | ok shared =>
    cases shared with
    | some n => exact mirrors_bind env p n
    | none =>
      refine (mirrors_writeFresh env p).bind fun n n' hn => ?_
      subst hn
      exact mirrors_assertEqual n value

theorem mirrors_makeLive (env : Env) (base : Int) :
    Mirrors (Renamed ρ env.node j) (makeLive env base) (makeLive { env with node := j } base) := by
  refine (mirrors_unbind env base).bind fun _ _ _ => ?_
  cases env.function.localVar? base with
  | none => exact .error _ _
  | some l =>
    simp only
    cases l.type.sort with
    | error e => exact .pure trivial
    | ok sort => exact (mirrors_writeFresh env ⟨base, 0⟩).bind fun _ _ _ => .pure trivial

theorem mirrors_statement (env : Env) (st : Statement) :
    Mirrors (Renamed ρ env.node j) (statement env st) (statement { env with node := j } st) := by
  cases st with
  | assign p rv span => exact mirrors_assign { env with span } p rv
  | storageLive base => exact mirrors_makeLive env base
  | storageDead base => exact mirrors_unbind env base
  | nop => exact .pure trivial
  | missing => exact .error _ _

theorem mirrors_statements (env : Env) (sts : List Statement) :
    Mirrors (Renamed ρ env.node j) (statements env sts)
      (statements { env with node := j } sts) := by
  induction sts with
  | nil => exact .pure trivial
  | cons st sts ih => exact (mirrors_statement env st).bind fun _ _ _ => ih

theorem mirrors_operands (env : Env) (xs : List Operand) :
    Mirrors (Renamed ρ env.node j) (operands env xs) (operands { env with node := j } xs)
      fun es es' => es' = es.map (Expr.rename ρ) := by
  induction xs with
  | nil => exact .pure rfl
  | cons x xs ih =>
    refine (mirrors_operand env x).bind fun e e' he => ?_
    subst he
    refine ih.bind fun es es' hes => ?_
    subst hes
    exact .pure rfl

theorem mirrors_passArguments (env : Env) (k : Nat) (args : List Expr) :
    Mirrors (Renamed ρ env.node j) (passArguments env env.node k args)
      (passArguments { env with node := j } j k (args.map (Expr.rename ρ))) := by
  induction args generalizing k with
  | nil => exact .pure trivial
  | cons a args ih =>
    refine (mirrors_writeFresh env ⟨k, 0⟩).bind fun n n' hn => ?_
    subst hn
    exact (mirrors_assertEqual n a).bind fun _ _ _ => ih (k + 1)

/-- Both executions work on a copy of their memory. -/
theorem mirrors_onCopy {α β : Type} {Q : α → β → Prop} {x : Action Store α} {y : Action Store β}
    (h : Mirrors (Renamed ρ i j) x y Q) :
    Mirrors (Renamed ρ i j) (onCopy x) (onCopy y) fun a b => Q a.1 b.1 ∧ a.2.Renamed ρ b.2 := by
  intro s t hst
  have hxy := h s t hst
  unfold onCopy
  generalize x s = r at hxy ⊢
  generalize y t = r' at hxy ⊢
  cases hxy with
  | ok hst' hab => exact .ok (hst'.of_memory hst.memory) ⟨hab, hst'.memory⟩
  | error => exact .error

end Store

/-! ## Blocks -/

/-- Two frames stand at one place in the program.  They need not have come there through the same
blocks, which make no difference for what the next block does. -/
structure Frame.Alike (f f' : Frame) : Prop where
  function : f'.function = f.function
  block : f'.block = f.block
  callers : f'.callers = f.callers

/-- One frame is another one with its names renamed. -/
structure Frame.Renamed (ρ : Name ↪ Name) (f f' : Frame) : Prop extends Frame.Alike f f' where
  memory : f.memory.Renamed ρ f'.memory
  guard : f'.guard = f.guard.map (Expr.rename ρ)

/-- One machine is another one renamed.  The calls are counted from two counters on. -/
structure Machine.Renamed (ρ : Name ↪ Name) (i j : Int) (c c' : Stats) (m m' : Machine) :
    Prop where
  store : m.store.Renamed ρ i j m'.store
  havoced : m.stats.havoced + c'.havoced = m'.stats.havoced + c.havoced
  inlined : m.stats.inlined + c'.inlined = m'.stats.inlined + c.inlined

namespace Machine

variable {ρ : Name ↪ Name} {i j : Int} {c c' : Stats} {f f' : Frame}

theorem mirrors_onStore {α β : Type} {Q : α → β → Prop} {x : Action Store α} {y : Action Store β}
    (h : Mirrors (Store.Renamed ρ i j) x y Q) :
    Mirrors (Renamed ρ i j c c') (onStore x) (onStore y) Q := by
  intro m m' hm
  have hxy := h _ _ hm.store
  unfold onStore Action.zoom
  generalize x m.store = r at hxy ⊢
  generalize y m'.store = r' at hxy ⊢
  cases hxy with
  | ok hst hab => exact .ok ⟨hst, hm.havoced, hm.inlined⟩ hab
  | error => exact .error

theorem mirrors_countHavoc :
    Mirrors (Renamed ρ i j c c') countHavoc countHavoc := by
  refine .modify fun m m' hm => ⟨hm.store, ?_, hm.inlined⟩
  have := hm.havoced
  dsimp only
  omega

theorem mirrors_countInline :
    Mirrors (Renamed ρ i j c c') countInline countInline := by
  refine .modify fun m m' hm => ⟨hm.store, hm.havoced, ?_⟩
  have := hm.inlined
  dsimp only
  omega

theorem mirrors_goOn (hf : f.Alike f') (env env' : Env) (block : Int) (guard : Option Expr) :
    Mirrors (Renamed ρ i j c c') (goOn f env block guard)
      (goOn f' env' block (guard.map (Expr.rename ρ))) (Frame.Renamed ρ) :=
  fun _ _ hm => .ok hm ⟨⟨hf.function, rfl, hf.callers⟩, hm.store.memory, rfl⟩

theorem mirrors_goOn_singleton (hf : f.Alike f') (env env' : Env) (block : Int) :
    Mirrors (Renamed ρ i j c c') (do return [← goOn f env block none])
      (do return [← goOn f' env' block none]) (List.Forall₂ (Frame.Renamed ρ)) :=
  (mirrors_goOn hf env env' block none).bind fun _ _ h => .pure (.cons h .nil)

theorem mirrors_inlineCall (hf : f.Alike f') (env : Env) (callee : Function) (args : List Expr)
    (dest : Place) (next : Int) :
    Mirrors (Renamed ρ env.node j c c') (inlineCall f env callee args dest next)
      (inlineCall f' { env with node := j } callee (args.map (Expr.rename ρ)) dest next)
      (List.Forall₂ (Frame.Renamed ρ)) := by
  unfold inlineCall
  rw [List.length_map, Frame.depth, Frame.depth, hf.callers]
  split
  · exact .error _ _
  · refine (mirrors_onStore (Store.mirrors_onCopy (.within (Store.mirrors_passArguments
      { function := callee, depth := f.callers.length + 1, node := env.node } 1 args) _))).bind
      fun a b hab => ?_
    obtain ⟨⟨⟩, m⟩ := a
    obtain ⟨⟨⟩, m'⟩ := b
    refine mirrors_countInline.bind fun _ _ _ => .pure (.cons ?_ .nil)
    refine ⟨⟨rfl, rfl, ?_⟩, hab.2, rfl⟩
    rw [Frame.enter, Frame.enter, hf.function, hf.block, hf.callers]

/-- The terminator is no call that is followed under the one options only. -/
def FollowsAlike (options options' : Options) (program : Program) (depth : Nat) (t : Terminator) :
    Prop :=
  ∀ callee args dest next span, t = .call callee args (some dest) next span →
    options'.followed program depth callee = options.followed program depth callee

theorem FollowsAlike.refl (options : Options) (program : Program) (depth : Nat) (t : Terminator) :
    FollowsAlike options options program depth t :=
  fun _ _ _ _ _ _ => rfl

variable {options options' : Options} {program : Program}

theorem mirrors_call (hf : f.Alike f') (env : Env) (callee : String) (args : List Operand)
    (dest : Option Place) (next : Int)
    (h : FollowsAlike options options' program f.depth (.call callee args dest next env.span)) :
    Mirrors (Renamed ρ env.node j c c') (call options program f env callee args dest next)
      (call options' program f' { env with node := j } callee args dest next)
      (List.Forall₂ (Frame.Renamed ρ)) := by
  refine (mirrors_onStore (Store.mirrors_operands env args)).bind fun es es' hes => ?_
  subst hes
  cases dest with
  | none => exact .pure .nil
  | some dest =>
    have hdepth : f'.depth = f.depth := congrArg List.length hf.callers
    have hknown : (if options'.inlineCalls && (f.depth : Int) < options'.maxCallDepth
        then program.function? callee else none) =
        if options.inlineCalls && (f.depth : Int) < options.maxCallDepth
        then program.function? callee else none := h callee args dest next env.span rfl
    rw [hdepth]
    rw [hknown]
    generalize (if options.inlineCalls && (f.depth : Int) < options.maxCallDepth
      then program.function? callee else none) = known
    cases known with
    | some callee => exact mirrors_inlineCall hf env callee es dest next
    | none =>
      refine mirrors_countHavoc.bind fun _ _ _ => ?_
      refine (mirrors_onStore (Store.mirrors_writeFresh env dest)).bind fun _ _ _ => ?_
      exact mirrors_goOn_singleton hf _ _ next

theorem mirrors_finishCall (hf : f.Alike f') (env : Env) :
    Mirrors (Renamed ρ env.node j c c') (finishCall f env) (finishCall f' { env with node := j })
      (List.Forall₂ (Frame.Renamed ρ)) := by
  unfold finishCall
  rw [hf.callers, hf.function]
  cases f.callers with
  | nil => exact .pure .nil
  | cons caller callers =>
    refine (mirrors_onStore (.within (Store.mirrors_readCopy env ⟨0, 0⟩) _)).bind fun n n' hn => ?_
    subst hn
    have hcopy : Mirrors (Store.Renamed ρ env.node j)
        (do
          Store.drop env.depth
          let name ← Store.writeFresh
            { function := caller.function, depth := callers.length, node := env.node } caller.dest
          Store.assertEqual env.node name (← Store.declaration n).expr)
        (do
          Store.drop env.depth
          let name ← Store.writeFresh
            { function := caller.function, depth := callers.length, node := j } caller.dest
          Store.assertEqual j name (← Store.declaration (ρ n)).expr) := by
      refine (Store.mirrors_drop env.depth).bind fun _ _ _ => ?_
      refine (Store.mirrors_writeFresh
        { function := caller.function, depth := callers.length, node := env.node }
        caller.dest).bind fun k k' hk => ?_
      subst hk
      refine (Store.mirrors_declaration n).bind fun d d' hdd => ?_
      rw [hdd.expr]
      exact Store.mirrors_assertEqual k d.expr
    refine (mirrors_onStore (Store.mirrors_onCopy hcopy)).bind fun a b hab => ?_
    obtain ⟨⟨⟩, m⟩ := a
    obtain ⟨⟨⟩, m'⟩ := b
    exact .pure (.cons ⟨⟨rfl, rfl, rfl⟩, hab.2, rfl⟩ .nil)

theorem mirrors_mapM_goOn (hf : f.Alike f') (env env' : Env) (targets : List Int)
    (guards : List Expr) :
    Mirrors (Renamed ρ i j c c') ((targets.zip guards).mapM fun t => goOn f env t.1 (some t.2))
      ((targets.zip (guards.map (Expr.rename ρ))).mapM fun t => goOn f' env' t.1 (some t.2))
      (List.Forall₂ (Frame.Renamed ρ)) := by
  intro m m' hm
  rw [mapM_goOn, mapM_goOn, List.zip_map_right, List.map_map]
  refine .ok hm (List.forall₂_map_left_iff.mpr (List.forall₂_map_right_iff.mpr ?_))
  exact List.forall₂_same.mpr fun t _ =>
    ⟨⟨hf.function, rfl, hf.callers⟩, hm.store.memory, rfl⟩

theorem mirrors_terminator (hf : f.Alike f') (env : Env) {t : Terminator}
    (h : FollowsAlike options options' program f.depth t) :
    Mirrors (Renamed ρ env.node j c c') (terminator options program f env t)
      (terminator options' program f' { env with node := j } t)
      (List.Forall₂ (Frame.Renamed ρ)) := by
  cases t with
  | goto target => exact mirrors_goOn_singleton hf _ _ target
  | switch x values targets span =>
    rw [terminator, terminator]
    split
    · exact .error _ _
    · refine (mirrors_onStore (Store.mirrors_operand { env with span } x)).bind fun e e' he => ?_
      subst he
      rw [← map_switchGuards]
      exact mirrors_mapM_goOn hf env _ targets (switchGuards e values)
  | assert x expected target span =>
    refine (mirrors_onStore (Store.mirrors_operand { env with span } x)).bind fun e e' he => ?_
    subst he
    rw [Expr.sort_rename]
    split
    · exact .error _ _
    · refine (mirrors_onStore (Store.mirrors_assertExpr ?_)).bind fun _ _ _ =>
        mirrors_goOn_singleton hf _ _ target
      rw [Expr.rename_mkEq, Expr.rename_bool]
  | call callee args dest next span =>
    exact mirrors_call hf { env with span } callee args dest next h
  | «return» => exact mirrors_finishCall hf env
  | unreachable => exact .pure .nil
  | missing => exact .error _ _

/-- Executing a block on two stores that are the same up to a renaming gives the same up to the
renaming, or fails on both.  The options matter only to decide whether a call is followed. -/
theorem mirrors_block (hf : f.Alike f') (env : Env) {b : Block}
    (h : FollowsAlike options options' program f.depth b.terminator) :
    Mirrors (Renamed ρ env.node j c c') (block options program f env b)
      (block options' program f' { env with node := j } b) (List.Forall₂ (Frame.Renamed ρ)) :=
  (mirrors_onStore (Store.mirrors_statements env b.statements)).bind fun _ _ _ =>
    mirrors_terminator hf env h

end Machine

end NullPath
