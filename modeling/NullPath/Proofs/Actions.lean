import NullPath.Explore.Step
import NullPath.Proofs.TreeFormula

/-!
# What an action that succeeds has done

An action that ends with a value passed through all its parts, each of which ended with a value.
For every action on memory and graph there is one statement of this kind, which tells the parts,
the conditions that were checked, and the new state.  Later proofs take actions apart with these
statements and never unfold them.

* `Action.bind_eq_ok`, `Action.lift_eq_ok`, …: the ways to combine actions.
* `Store.readCell_eq_ok`, `Store.resolveAt_succ_eq_ok`, …: reading and writing cells.
* `Store.operand_copy_eq_ok`, `Store.assign_eq_ok`, …: values and statements.
* `Machine.Concludes`, `Machine.block_concludes`: a block is its statements and its terminator.
-/

namespace NullPath

/-! ## Combining actions -/

namespace Action

variable {σ α β : Type} {s s' : σ}

theorem bind_eq_ok {x : Action σ α} {f : α → Action σ β} {b : β} :
    (x >>= f) s = (.ok b, s') ↔ ∃ a s₁, x s = (.ok a, s₁) ∧ f a s₁ = (.ok b, s') := by
  rw [bind_apply]
  constructor
  · intro h
    split at h
    · next a s₁ hx => exact ⟨a, s₁, hx, h⟩
    · cases h
  · rintro ⟨a, s₁, hx, hf⟩
    rw [hx]
    exact hf

theorem bind_get (f : σ → Action σ β) : (get >>= f) s = f s s := rfl

theorem pure_eq_ok {a b : α} : (Pure.pure a : Action σ α) s = (.ok b, s') ↔ b = a ∧ s' = s := by
  rw [pure_apply, Prod.mk.injEq, Except.ok.injEq, eq_comm, eq_comm (a := s)]

theorem error_ne_ok {e : Error} {b : α} : (error e : Action σ α) s ≠ (.ok b, s') := by
  intro h
  cases h

theorem lift_eq_ok {r : Except Error α} {a : α} :
    (lift r : Action σ α) s = (.ok a, s') ↔ r = .ok a ∧ s' = s := by
  cases r with
  | ok b => exact pure_eq_ok.trans (by rw [Except.ok.injEq, eq_comm])
  | error e => exact iff_of_false error_ne_ok fun h => nomatch h.1

theorem liftFault_eq_ok {r : Except Fault α} {a : α} :
    (liftFault r : Action σ α) s = (.ok a, s') ↔ r = .ok a ∧ s' = s := by
  cases r with
  | ok b => exact pure_eq_ok.trans (by rw [Except.ok.injEq, eq_comm])
  | error f => exact iff_of_false (fun h => nomatch (Prod.mk.inj h).1) fun h => nomatch h.1

theorem lift_bind_eq_ok {r : Except Error α} {f : α → Action σ β} {b : β} :
    (lift r >>= f) s = (.ok b, s') ↔ ∃ a, r = .ok a ∧ f a s = (.ok b, s') := by
  rw [bind_eq_ok]
  constructor
  · rintro ⟨a, s₁, hl, h⟩
    obtain ⟨hr, rfl⟩ := lift_eq_ok.mp hl
    exact ⟨a, hr, h⟩
  · rintro ⟨a, hr, h⟩
    exact ⟨a, s, lift_eq_ok.mpr ⟨hr, rfl⟩, h⟩

theorem bind_lift_eq_ok {x : Action σ α} {r : α → Except Error β} {b : β} :
    (x >>= fun a => lift (r a)) s = (.ok b, s') ↔ ∃ a, x s = (.ok a, s') ∧ r a = .ok b := by
  rw [bind_eq_ok]
  constructor
  · rintro ⟨a, s₁, ha, hl⟩
    obtain ⟨hr, rfl⟩ := lift_eq_ok.mp hl
    exact ⟨a, ha, hr⟩
  · rintro ⟨a, ha, hr⟩
    exact ⟨a, s', ha, lift_eq_ok.mpr ⟨hr, rfl⟩⟩

theorem bind_pure_eq_ok {x : Action σ α} {f : α → β} {b : β} :
    (x >>= fun a => Pure.pure (f a)) s = (.ok b, s') ↔ ∃ a, x s = (.ok a, s') ∧ b = f a := by
  rw [bind_eq_ok]
  constructor
  · rintro ⟨a, s₁, ha, hp⟩
    obtain ⟨hb, rfl⟩ := pure_eq_ok.mp hp
    exact ⟨a, ha, hb⟩
  · rintro ⟨a, ha, rfl⟩
    exact ⟨a, s', ha, rfl⟩

theorem within_eq_ok {activity : String} {x : Action σ α} {a : α} :
    within activity x s = (.ok a, s') ↔ x s = (.ok a, s') := by
  unfold within
  split
  · next b s₁ hx => rw [hx]
  · next e s₁ hx =>
    rw [hx]
    exact iff_of_false (fun h => nomatch (Prod.mk.inj h).1) fun h => nomatch (Prod.mk.inj h).1

theorem mapM_loop_eq {f : α → Action σ β} {g : α → β} (h : ∀ a, f a s = (.ok (g a), s))
    (as : List α) (bs : List β) :
    List.mapM.loop f as bs s = (.ok (bs.reverse ++ as.map g), s) := by
  induction as generalizing bs with
  | nil =>
    rw [List.mapM.loop, List.map_nil, List.append_nil]
    rfl
  | cons a as ih =>
    rw [List.mapM.loop, bind_apply, h]
    simp only [ih, List.reverse_cons, List.append_assoc, List.singleton_append, List.map_cons]

/-- A row of actions that do not change the state gives the list of their values. -/
theorem mapM_eq {f : α → Action σ β} {g : α → β} (h : ∀ a, f a s = (.ok (g a), s))
    (as : List α) : as.mapM f s = (.ok (as.map g), s) :=
  mapM_loop_eq h as []

end Action

open Action (pure_eq_ok error_ne_ok)

namespace Machine

/-- An action on graph and memory leaves the counters alone. -/
theorem onStore_eq_ok {α : Type} {x : Action Store α} {a : α} {m m' : Machine} :
    onStore x m = (.ok a, m') ↔ ∃ s', x m.store = (.ok a, s') ∧ m' = { m with store := s' } := by
  unfold onStore Action.zoom
  constructor
  · intro h
    obtain ⟨hr, rfl⟩ := Prod.mk.inj h
    exact ⟨_, Prod.ext hr rfl, rfl⟩
  · rintro ⟨s', hx, rfl⟩
    rw [hx]

end Machine

/-! ## The graph of a store -/

namespace Store

variable {env : Env} {s s' : Store} {p : Place} {c : Cell} {n : Name} {node base : Int}

/-- The store with a new name declared. -/
def declared (s : Store) (sort : ExprSort) : Store :=
  { s with graph := (s.graph.declare sort none).2 }

/-- The store with a cell that holds a name. -/
def bound (s : Store) (c : Cell) (b : Binding) : Store :=
  { s with memory := s.memory.set c b }

/-- The name that is declared next. -/
def nextName (s : Store) : Name :=
  ⟨s.graph.decls.length⟩

/-- The store after a pointer has been tagged at the present node. -/
def tagged (s : Store) (env : Env) (pointer : Name) (d : Declaration) : Store :=
  if d.isDerefedAt env.node then s
  else { s with graph.decls := s.graph.decls.modify pointer.index fun d =>
    { d with derefs := d.derefs ++ [⟨env.node, env.span⟩] } }

/-- The store with an assertion added to a node. -/
def asserted (s : Store) (node : Int) (e : Expr) : Store :=
  { s with graph := s.graph.modifyNode node fun n => { n with exprs := n.exprs ++ [e] } }

theorem onGraph_eq_ok {f : Graph → Except Fault Graph} :
    onGraph f s = (.ok (), s') ↔ ∃ g, f s.graph = .ok g ∧ s' = { s with graph := g } := by
  unfold onGraph
  rw [Action.bind_get, Action.bind_eq_ok]
  constructor
  · rintro ⟨g, s₁, hg, hs⟩
    obtain ⟨hg, rfl⟩ := Action.liftFault_eq_ok.mp hg
    exact ⟨g, hg, (Prod.mk.inj hs).2.symm⟩
  · rintro ⟨g, hg, rfl⟩
    exact ⟨g, s, Action.liftFault_eq_ok.mpr ⟨hg, rfl⟩, rfl⟩

theorem declare_eq_ok {sort : ExprSort} {o : Option Origin} :
    declare sort o s = (.ok n, s') ↔
      n = s.nextName ∧ s' = { s with graph := (s.graph.declare sort o).2 } :=
  pure_eq_ok

theorem declaration_eq_ok {d : Declaration} :
    declaration n s = (.ok d, s') ↔ s.graph.declaration? n = some d ∧ s' = s := by
  unfold declaration
  rw [Action.bind_get, Action.liftFault_eq_ok, Graph.declaration]
  cases s.graph.declaration? n <;> simp

theorem setCell_eq_ok {b : Binding} : setCell c b s = (.ok (), s') ↔ s' = s.bound c b :=
  ⟨fun h => (Prod.mk.inj h).2.symm, fun h => h ▸ rfl⟩

theorem tag_eq_ok {pointer : Name} (h : tag env pointer s = (.ok (), s')) :
    ∃ d, s.graph.declaration? pointer = some d ∧ s' = s.tagged env pointer d := by
  obtain ⟨d, s₁, hdecl, hs⟩ := Action.bind_eq_ok.mp h
  obtain ⟨hd, rfl⟩ := declaration_eq_ok.mp hdecl
  refine ⟨d, hd, ?_⟩
  unfold tagged
  split
  · next hat =>
    rw [hat] at hs
    exact (pure_eq_ok.mp hs).2
  · next hat =>
    rw [Bool.not_eq_true] at hat
    rw [hat, Bool.not_false, if_pos rfl] at hs
    obtain ⟨g, hg, rfl⟩ := onGraph_eq_ok.mp hs
    obtain ⟨-, -, rfl⟩ := Graph.addTag_eq_ok hg
    rfl

theorem assertExpr_eq_ok {e : Expr} (h : assertExpr node e s = (.ok (), s')) :
    (∃ n, s.graph.node? node = some n) ∧ e.sort = .bool ∧ s' = s.asserted node e := by
  obtain ⟨g, hg, rfl⟩ := onGraph_eq_ok.mp h
  obtain ⟨n, hn, -, he, rfl⟩ := Graph.addExpr_eq_ok hg
  exact ⟨⟨n, hn⟩, he, rfl⟩

/-! ## Reading and writing cells -/

/-- A cell is read as it is, or, if it lies behind a pointer and holds nothing yet, gets a new
name. -/
theorem readCell_eq_ok (h : readCell env p c s = (.ok n, s')) :
    (s.memory.get? c = some ⟨n, false⟩ ∧ s' = s) ∨
      (s.memory.get? c = none ∧ p.derefs ≠ 0 ∧ ∃ sort, env.function.placeSort p = .ok sort ∧
        n = s.nextName ∧ s' = (s.declared sort).bound c ⟨n, false⟩) := by
  unfold readCell at h
  rw [Action.bind_get] at h
  rcases hc : s.memory.get? c with _ | ⟨name, _ | _⟩
  · rw [hc] at h
    by_cases hp : p.isLocal = true
    · rw [if_pos hp] at h
      exact absurd h error_ne_ok
    · rw [if_neg hp] at h
      obtain ⟨sort, hsort, h₁⟩ := Action.lift_bind_eq_ok.mp h
      obtain ⟨name, s₂, hname, h₂⟩ := Action.bind_eq_ok.mp h₁
      obtain ⟨rfl, rfl⟩ := declare_eq_ok.mp hname
      obtain ⟨_, hset, rfl⟩ := Action.bind_pure_eq_ok.mp h₂
      obtain rfl := setCell_eq_ok.mp hset
      exact .inr ⟨rfl, by simpa [Place.isLocal] using hp, sort, hsort, rfl, rfl⟩
  · rw [hc] at h
    cases h
    exact .inl ⟨rfl, rfl⟩
  · rw [hc] at h
    exact absurd h error_ne_ok

theorem resolveAt_zero_eq_ok :
    resolveAt env base 0 s = (.ok c, s') ↔
      (∃ l, env.function.localVar? base = some l) ∧
        c = s.memory.cellOf (.of env.depth base) ∧ s' = s := by
  unfold resolveAt
  cases hl : env.function.localVar? base with
  | none => exact iff_of_false error_ne_ok fun h => nomatch h.1
  | some l =>
    simp only [Option.some.injEq, exists_eq', true_and]
    exact pure_eq_ok

theorem resolveAt_succ_eq_ok {k : Nat} (h : resolveAt env base (k + 1) s = (.ok c, s')) :
    ∃ c₀ s₁ pointer s₂ d, resolveAt env base k s = (.ok c₀, s₁) ∧
      readCell env ⟨base, k⟩ c₀ s₁ = (.ok pointer, s₂) ∧
      s₂.graph.declaration? pointer = some d ∧ c = .behind pointer ∧
      s' = s₂.tagged env pointer d := by
  obtain ⟨c₀, s₁, hc₀, h₁⟩ := Action.bind_eq_ok.mp h
  obtain ⟨pointer, s₂, hp, h₂⟩ := Action.bind_eq_ok.mp h₁
  obtain ⟨_, s₃, htag, h₃⟩ := Action.bind_eq_ok.mp h₂
  obtain ⟨d, hd, rfl⟩ := tag_eq_ok htag
  cases h₃
  exact ⟨c₀, s₁, pointer, s₂, d, hc₀, hp, hd, rfl, rfl⟩

theorem readCopy_eq_ok : readCopy env p s = (.ok n, s') ↔
    ∃ c s₁, resolve env p s = (.ok c, s₁) ∧ readCell env p c s₁ = (.ok n, s') :=
  Action.bind_eq_ok

theorem readMove_eq_ok : readMove env p s = (.ok n, s') ↔
    ∃ s₁ c s₂, readCopy env p s = (.ok n, s₁) ∧ resolve env p s₁ = (.ok c, s₂) ∧
      s' = s₂.bound c ⟨n, true⟩ := by
  unfold readMove
  rw [Action.bind_eq_ok]
  constructor
  · rintro ⟨name, s₁, hn, h₁⟩
    obtain ⟨c, s₂, hc, h₂⟩ := Action.bind_eq_ok.mp h₁
    cases h₂
    exact ⟨s₁, c, s₂, hn, hc, rfl⟩
  · rintro ⟨s₁, c, s₂, hn, hc, rfl⟩
    exact ⟨n, s₁, hn, Action.bind_eq_ok.mpr ⟨c, s₂, hc, rfl⟩⟩

theorem bind_eq_ok : bind env p n s = (.ok (), s') ↔
    ∃ c s₁, resolve env p s = (.ok c, s₁) ∧ s' = s₁.bound c ⟨n, false⟩ := by
  unfold bind
  rw [Action.bind_eq_ok]
  exact exists_congr fun c => exists_congr fun s₁ => and_congr_right fun _ => setCell_eq_ok

theorem writeFresh_eq_ok : writeFresh env p s = (.ok n, s') ↔
    ∃ sort c s₁, env.function.placeSort p = .ok sort ∧ resolve env p s = (.ok c, s₁) ∧
      n = s₁.nextName ∧ s' = (s₁.declared sort).bound c ⟨n, false⟩ := by
  unfold writeFresh
  rw [Action.lift_bind_eq_ok]
  constructor
  · rintro ⟨sort, hsort, h₁⟩
    obtain ⟨c, s₂, hc, h₂⟩ := Action.bind_eq_ok.mp h₁
    obtain ⟨name, s₃, hname, h₃⟩ := Action.bind_eq_ok.mp h₂
    obtain ⟨rfl, rfl⟩ := declare_eq_ok.mp hname
    cases h₃
    exact ⟨sort, c, s₂, hsort, hc, rfl, rfl⟩
  · rintro ⟨sort, c, s₁, hsort, hc, rfl, rfl⟩
    exact ⟨sort, hsort, Action.bind_eq_ok.mpr ⟨c, s₁, hc, rfl⟩⟩

/-- The store in which a local has been given a new address. -/
def addressed (s : Store) (slot : Slot) : Store :=
  { (s.declared .int) with memory := s.memory.giveAddress slot s.nextName }

/-- The address of a dereferenced place is the pointer; the address of a local is a known one or
a new name. -/
theorem ref_eq_ok {isNew : Bool} (h : ref env p s = (.ok (n, isNew), s')) :
    (∃ q, p.pointer? = some q ∧ isNew = false ∧ readCopy env q s = (.ok n, s')) ∨
      (p.pointer? = none ∧ (∃ l, env.function.localVar? p.base = some l) ∧
        ((s.memory.addrs.get? (.of env.depth p.base) = some n ∧ isNew = false ∧ s' = s) ∨
          (s.memory.addrs.get? (.of env.depth p.base) = none ∧ isNew = true ∧ n = s.nextName ∧
            s' = s.addressed (.of env.depth p.base)))) := by
  unfold ref at h
  cases hq : p.pointer? with
  | some q =>
    rw [hq] at h
    obtain ⟨name, hn, heq⟩ := Action.bind_pure_eq_ok.mp h
    cases heq
    exact .inl ⟨q, rfl, rfl, hn⟩
  | none =>
    rw [hq] at h
    cases hl : env.function.localVar? p.base with
    | none =>
      rw [hl] at h
      exact absurd h error_ne_ok
    | some l =>
      rw [hl] at h
      simp only [Action.bind_get] at h
      refine .inr ⟨rfl, ⟨l, rfl⟩, ?_⟩
      cases ha : s.memory.addrs.get? (.of env.depth p.base) with
      | some address =>
        rw [ha] at h
        obtain ⟨heq, rfl⟩ := pure_eq_ok.mp h
        cases heq
        exact .inl ⟨rfl, rfl, rfl⟩
      | none =>
        rw [ha] at h
        obtain ⟨address, s₁, hd, h₁⟩ := Action.bind_eq_ok.mp h
        obtain ⟨rfl, rfl⟩ := declare_eq_ok.mp hd
        obtain ⟨heq, rfl⟩ := pure_eq_ok.mp h₁
        cases heq
        exact .inr ⟨rfl, rfl, rfl, rfl⟩

/-! ## Values -/

variable {e : Expr} {t : Ty} {x : Operand}

/-- What is read is used as a term. -/
theorem bind_expr_eq_ok {x : Action Store Name} :
    (x >>= fun n => declaration n >>= fun d => Pure.pure d.expr) s = (.ok e, s') ↔
      ∃ n d, x s = (.ok n, s') ∧ s'.graph.declaration? n = some d ∧ e = d.expr := by
  rw [Action.bind_eq_ok]
  constructor
  · rintro ⟨n, s₁, hn, h₁⟩
    obtain ⟨d, hd, rfl⟩ := Action.bind_pure_eq_ok.mp h₁
    obtain ⟨hd, rfl⟩ := declaration_eq_ok.mp hd
    exact ⟨n, d, hn, hd, rfl⟩
  · rintro ⟨n, d, hn, hd, rfl⟩
    exact ⟨n, s', hn, Action.bind_pure_eq_ok.mpr ⟨d, declaration_eq_ok.mpr ⟨hd, rfl⟩, rfl⟩⟩

theorem operand_copy_eq_ok : operand env (.copy p) s = (.ok e, s') ↔
    ∃ n d, readCopy env p s = (.ok n, s') ∧ s'.graph.declaration? n = some d ∧ e = d.expr :=
  bind_expr_eq_ok

theorem operand_move_eq_ok : operand env (.move p) s = (.ok e, s') ↔
    ∃ n d, readMove env p s = (.ok n, s') ∧ s'.graph.declaration? n = some d ∧ e = d.expr :=
  bind_expr_eq_ok

theorem operand_const_eq_ok {v : Int} : operand env (.const v t) s = (.ok e, s') ↔
    ∃ sort, t.sort = .ok sort ∧ e = (if sort = .bool then .bool (v != 0) else .int v) ∧
      s' = s := by
  rw [operand, Action.lift_bind_eq_ok]
  exact exists_congr fun sort => and_congr_right fun _ => pure_eq_ok

theorem rvalue_binary_eq_ok {op : SourceBinOp} {l r : Operand} :
    rvalue env (.binary op l r) s = (.ok e, s') ↔
      ∃ a s₁ b, operand env l s = (.ok a, s₁) ∧ operand env r s₁ = (.ok b, s') ∧
        op.term a b = .ok e := by
  rw [rvalue, Action.bind_eq_ok]
  constructor
  · rintro ⟨a, s₁, ha, h₁⟩
    obtain ⟨b, hb, ht⟩ := Action.bind_lift_eq_ok.mp h₁
    exact ⟨a, s₁, b, ha, hb, ht⟩
  · rintro ⟨a, s₁, b, ha, hb, ht⟩
    exact ⟨a, s₁, ha, Action.bind_lift_eq_ok.mpr ⟨b, hb, ht⟩⟩

theorem rvalue_unary_eq_ok {op : SourceUnOp} :
    rvalue env (.unary op x) s = (.ok e, s') ↔
      ∃ a, operand env x s = (.ok a, s') ∧ op.term a = .ok e :=
  Action.bind_lift_eq_ok

theorem rvalue_cast_eq_ok :
    rvalue env (.cast x t) s = (.ok e, s') ↔
      ∃ a, operand env x s = (.ok a, s') ∧ t.castTerm a = .ok e :=
  Action.bind_lift_eq_ok

/-- The fact that is recorded for a new address. -/
def nonzero (n : Name) : Expr :=
  .mkNot (.isZero (.name n .int))

theorem rvalue_ref_eq_ok (h : rvalue env (.ref p) s = (.ok e, s')) :
    ∃ n isNew s₁, ref env p s = (.ok (n, isNew), s₁) ∧ e = .name n .int ∧
      s' = if isNew then s₁.asserted env.node (nonzero n) else s₁ := by
  obtain ⟨⟨n, isNew⟩, s₁, hn, h₁⟩ := Action.bind_eq_ok.mp h
  refine ⟨n, isNew, s₁, hn, ?_⟩
  cases isNew with
  | false => exact pure_eq_ok.mp h₁
  | true =>
    obtain ⟨_, s₂, hadd, h₂⟩ := Action.bind_eq_ok.mp h₁
    obtain ⟨-, -, rfl⟩ := assertExpr_eq_ok hadd
    exact pure_eq_ok.mp h₂

theorem assertEqual_eq_ok {value : Expr} (h : assertEqual node n value s = (.ok (), s')) :
    (∃ k, s.graph.node? node = some k) ∧ ∃ d, s.graph.declaration? n = some d ∧
      value.sort = d.sort ∧ s' = s.asserted node (.mkEq d.expr value) := by
  obtain ⟨d, s₁, hd, h₁⟩ := Action.bind_eq_ok.mp h
  obtain ⟨hd, rfl⟩ := declaration_eq_ok.mp hd
  by_cases hsort : value.sort = d.sort
  · rw [if_neg (not_not_intro hsort)] at h₁
    obtain ⟨hnode, -, hs'⟩ := assertExpr_eq_ok h₁
    exact ⟨hnode, d, hd, hsort, hs'⟩
  · rw [if_pos hsort] at h₁
    exact absurd h₁ error_ne_ok

theorem declaration?_declared (s : Store) (sort : ExprSort) :
    (s.declared sort).graph.declaration? s.nextName = some ⟨s.nextName, sort, [], none⟩ := by
  simp [Graph.declaration?, declared, Graph.declare, nextName]

/-- The store in which a cell holds a new name that equals a term. -/
def defined (s : Store) (sort : ExprSort) (c : Cell) (node : Int) (e : Expr) : Store :=
  ((s.declared sort).bound c ⟨s.nextName, false⟩).asserted node
    (.mkEq (.name s.nextName sort) e)

/-- Writing a new name and recording an equation for it defines the name. -/
theorem define_eq_ok (hw : writeFresh env p s = (.ok n, s₁))
    (ha : assertEqual node n e s₁ = (.ok (), s')) :
    ∃ c s₂, env.function.placeSort p = .ok e.sort ∧ resolve env p s = (.ok c, s₂) ∧
      n = s₂.nextName ∧ (∃ k, s₂.graph.node? node = some k) ∧ s' = s₂.defined e.sort c node e := by
  obtain ⟨sort, c, s₂, hsort, hc, rfl, rfl⟩ := writeFresh_eq_ok.mp hw
  obtain ⟨hnode, d, hd, hes, rfl⟩ := assertEqual_eq_ok ha
  have hdecl : d = ⟨s₂.nextName, sort, [], none⟩ :=
    Option.some.inj (hd.symm.trans (declaration?_declared s₂ sort))
  subst hdecl
  obtain rfl := hes
  exact ⟨c, s₂, hsort, hc, rfl, hnode, rfl⟩

/-! ## Statements -/

/-- An assignment either shares the name of its value or records an equation for a new name. -/
theorem assign_eq_ok {rv : Rvalue} : assign env p rv s = (.ok (), s') ↔
    ∃ value s₁, rvalue env rv s = (.ok value, s₁) ∧
      ((∃ n, sharesName env p value = .ok (some n) ∧ bind env p n s₁ = (.ok (), s')) ∨
        (sharesName env p value = .ok none ∧ ∃ n s₂, writeFresh env p s₁ = (.ok n, s₂) ∧
          assertEqual env.node n value s₂ = (.ok (), s'))) := by
  unfold assign
  rw [Action.bind_eq_ok]
  refine exists_congr fun value => exists_congr fun s₁ => and_congr_right fun _ => ?_
  rw [Action.bind_eq_ok]
  constructor
  · rintro ⟨shared, s₂, hl, h₂⟩
    obtain ⟨hshared, rfl⟩ := Action.liftFault_eq_ok.mp hl
    cases shared with
    | some n => exact .inl ⟨n, hshared, h₂⟩
    | none => exact .inr ⟨hshared, Action.bind_eq_ok.mp h₂⟩
  · rintro (⟨n, hshared, h₂⟩ | ⟨hshared, h₂⟩)
    · exact ⟨some n, s₁, Action.liftFault_eq_ok.mpr ⟨hshared, rfl⟩, h₂⟩
    · exact ⟨none, s₁, Action.liftFault_eq_ok.mpr ⟨hshared, rfl⟩, Action.bind_eq_ok.mpr h₂⟩

/-- The store in which the storage of a local has ended. -/
def unbound (s : Store) (slot : Slot) : Store :=
  { s with memory := s.memory.unbind slot }

/-- A local that becomes live gets a new name, if its type has a sort. -/
theorem makeLive_eq_ok (h : makeLive env base s = (.ok (), s')) :
    ∃ l, env.function.localVar? base = some l ∧
      (((∃ err, l.type.sort = .error err) ∧ s' = s.unbound (.of env.depth base)) ∨
        ((∃ sort, l.type.sort = .ok sort) ∧
          ∃ n, writeFresh env ⟨base, 0⟩ (s.unbound (.of env.depth base)) = (.ok n, s'))) := by
  obtain ⟨_, s₁, hu, h₁⟩ := Action.bind_eq_ok.mp h
  obtain rfl := (Prod.mk.inj hu).2.symm
  cases hl : env.function.localVar? base with
  | none =>
    rw [hl] at h₁
    exact absurd h₁ error_ne_ok
  | some l =>
    rw [hl] at h₁
    refine ⟨l, rfl, ?_⟩
    cases hsort : l.type.sort with
    | error err =>
      simp only [hsort] at h₁
      exact .inl ⟨⟨err, rfl⟩, (pure_eq_ok.mp h₁).2⟩
    | ok sort =>
      simp only [hsort] at h₁
      obtain ⟨n, hn, -⟩ := Action.bind_pure_eq_ok.mp h₁
      exact .inr ⟨⟨sort, rfl⟩, n, hn⟩

theorem statements_cons_eq_ok {st : Statement} {rest : List Statement} :
    statements env (st :: rest) s = (.ok (), s') ↔
      ∃ s₁, statement env st s = (.ok (), s₁) ∧ statements env rest s₁ = (.ok (), s') := by
  rw [statements, Action.bind_eq_ok]
  exact ⟨fun ⟨_, s₁, h⟩ => ⟨s₁, h⟩, fun ⟨s₁, h⟩ => ⟨(), s₁, h⟩⟩

theorem operands_cons_eq_ok {xs : List Operand} {es : List Expr} :
    operands env (x :: xs) s = (.ok es, s') ↔
      ∃ e s₁ es', operand env x s = (.ok e, s₁) ∧ operands env xs s₁ = (.ok es', s') ∧
        es = e :: es' := by
  rw [operands, Action.bind_eq_ok]
  constructor
  · rintro ⟨e, s₁, he, h₁⟩
    obtain ⟨es', hes, rfl⟩ := Action.bind_pure_eq_ok.mp h₁
    exact ⟨e, s₁, es', he, hes, rfl⟩
  · rintro ⟨e, s₁, es', he, hes, rfl⟩
    exact ⟨e, s₁, he, Action.bind_pure_eq_ok.mpr ⟨es', hes, rfl⟩⟩

theorem passArguments_cons_eq_ok {i : Nat} {arg : Expr} {args : List Expr} :
    passArguments env node i (arg :: args) s = (.ok (), s') ↔
      ∃ n s₁ s₂, writeFresh env ⟨i, 0⟩ s = (.ok n, s₁) ∧
        assertEqual node n arg s₁ = (.ok (), s₂) ∧
        passArguments env node (i + 1) args s₂ = (.ok (), s') := by
  rw [passArguments, Action.bind_eq_ok]
  constructor
  · rintro ⟨n, s₁, hn, h₁⟩
    obtain ⟨_, s₂, heq, h₂⟩ := Action.bind_eq_ok.mp h₁
    exact ⟨n, s₁, s₂, hn, heq, h₂⟩
  · rintro ⟨n, s₁, s₂, hn, heq, h₂⟩
    exact ⟨n, s₁, hn, Action.bind_eq_ok.mpr ⟨(), s₂, heq, h₂⟩⟩

theorem onCopy_eq_ok {α : Type} {x : Action Store α} {a : α} {memory : Memory} :
    onCopy x s = (.ok (a, memory), s') ↔
      ∃ s₁, x s = (.ok a, s₁) ∧ memory = s₁.memory ∧ s' = { s₁ with memory := s.memory } := by
  unfold onCopy
  cases hx : x s with
  | mk r s₁ =>
    cases r with
    | error err => exact iff_of_false (fun h => nomatch (Prod.mk.inj h).1) fun ⟨_, h, _⟩ => nomatch h
    | ok b =>
      constructor
      · intro h
        obtain ⟨h₁, rfl⟩ := Prod.mk.inj h
        cases Except.ok.inj h₁
        exact ⟨s₁, rfl, rfl, rfl⟩
      · rintro ⟨s₂, h, rfl, rfl⟩
        obtain ⟨h₁, rfl⟩ := Prod.mk.inj h
        cases h₁
        rfl

end Store

/-! ## Terminators -/

/-- The function whose code a call follows: the callee, within the bound on the depth. -/
def Options.followed (options : Options) (program : Program) (depth : Nat) (callee : String) :
    Option Function :=
  if options.inlineCalls && (depth : Int) < options.maxCallDepth then program.function? callee
  else none

/-- A call that is followed leads into a function of the program. -/
theorem Options.mem_of_followed {options : Options} {program : Program} {depth : Nat}
    {callee : String} {f : Function} (h : options.followed program depth callee = some f) :
    f ∈ program.functions := by
  unfold Options.followed at h
  split at h
  · exact List.mem_of_find?_eq_some h
  · cases h

namespace Machine

variable {options : Options} {program : Program} {frame : Frame} {env : Env} {m m' : Machine}
  {fs : List Frame} {next target : Int} {x : Operand} {span : Span}

theorem inlineCall_eq_ok {callee : Function} {args : List Expr} {dest : Place}
    (h : inlineCall frame env callee args dest next m = (.ok fs, m')) :
    (args.length : Int) = callee.argCount ∧ ∃ s₁,
      Store.passArguments { function := callee, depth := frame.depth + 1, node := env.node }
        env.node 1 args m.store = (.ok (), s₁) ∧
      m'.store = { s₁ with memory := m.store.memory } ∧
      fs = [frame.enter s₁.memory callee dest next env.node] := by
  unfold inlineCall at h
  by_cases hargs : (args.length : Int) = callee.argCount
  · rw [if_neg (not_not_intro hargs)] at h
    obtain ⟨⟨_, memory⟩, m₁, h₁, h₂⟩ := Action.bind_eq_ok.mp h
    obtain ⟨s₁, hcopy, rfl⟩ := onStore_eq_ok.mp h₁
    obtain ⟨s₂, hpass, rfl, rfl⟩ := Store.onCopy_eq_ok.mp hcopy
    cases h₂
    exact ⟨hargs, s₂, Action.within_eq_ok.mp hpass, rfl, rfl⟩
  · rw [if_pos hargs] at h
    exact absurd h error_ne_ok

/-- Where the caller of a frame goes on. -/
def outer (env : Env) (caller : Caller) (callers : List Caller) : Env :=
  { function := caller.function, depth := callers.length, node := env.node }

section
variable (options : Options) (program : Program) (frame : Frame) (env : Env) (s : Store)

/-- How a terminator concludes a block: the store after it, and the frames that it hands on.  A call
evaluates its arguments.  Then it ends the path, enters the callee, or gives the destination a new
name.  A return reads the result before the locals of the callee are dropped, and records an
equation between it and a new name for the destination. -/
inductive Concludes : Terminator → Store → List Frame → Prop
  | goto {target : Int} : Concludes (.goto target) s [frame.fork s.memory target none env.node]
  | switch {x : Operand} {values targets : List Int} {span : Span} {discr : Expr} {s' : Store} :
    targets.length = values.length + 1 → Store.operand { env with span } x s = (.ok discr, s') →
    Concludes (.switch x values targets span) s' ((targets.zip (switchGuards discr values)).map
      fun tg => frame.fork s'.memory tg.1 (some tg.2) env.node)
  | assert {x : Operand} {expected : Bool} {target : Int} {span : Span} {cond : Expr} {s' : Store}
    {k : Node} : Store.operand { env with span } x s = (.ok cond, s') → cond.sort = .bool →
    s'.graph.node? env.node = some k →
    Concludes (.assert x expected target span) (s'.asserted env.node (.mkEq cond (.bool expected)))
      [frame.fork s'.memory target none env.node]
  | stop {callee : String} {args : List Operand} {next : Int} {span : Span} {values : List Expr}
    {s' : Store} : Store.operands { env with span } args s = (.ok values, s') →
    Concludes (.call callee args none next span) s' []
  | enter {callee : String} {args : List Operand} {dest : Place} {next : Int} {span : Span}
    {values : List Expr} {f : Function} {s' s'' : Store} :
    Store.operands { env with span } args s = (.ok values, s') →
    options.followed program frame.depth callee = some f → (values.length : Int) = f.argCount →
    Store.passArguments { function := f, depth := frame.depth + 1, node := env.node } env.node 1
      values s' = (.ok (), s'') →
    Concludes (.call callee args (some dest) next span) { s'' with memory := s'.memory }
      [frame.enter s''.memory f dest next env.node]
  | skip {callee : String} {args : List Operand} {dest : Place} {next : Int} {span : Span}
    {values : List Expr} {n : Name} {s' s'' : Store} :
    Store.operands { env with span } args s = (.ok values, s') →
    options.followed program frame.depth callee = none →
    Store.writeFresh { env with span } dest s' = (.ok n, s'') →
    Concludes (.call callee args (some dest) next span) s''
      [frame.fork s''.memory next none env.node]
  | finish : frame.callers = [] → Concludes .return s []
  | resume {caller : Caller} {callers : List Caller} {result n : Name} {d : Declaration}
    {s₁ s₂ s₃ : Store} : frame.callers = caller :: callers →
    Store.readCopy env ⟨0, 0⟩ s = (.ok result, s₁) →
    Store.writeFresh (outer env caller callers) caller.dest
      { s₁ with memory := s₁.memory.drop env.depth } = (.ok n, s₂) →
    s₂.graph.declaration? result = some d → Store.assertEqual env.node n d.expr s₂ = (.ok (), s₃) →
    Concludes .return { s₃ with memory := s₁.memory }
      [frame.resume s₃.memory caller callers env.node]
  | unreachable : Concludes .unreachable s []

end

theorem call_concludes {callee : String} {args : List Operand} {dest : Option Place}
    (h : call options program frame { env with span } callee args dest next m = (.ok fs, m')) :
    Concludes options program frame env m.store (.call callee args dest next span) m'.store fs := by
  obtain ⟨values, m₁, hon, h₁⟩ := Action.bind_eq_ok.mp h
  obtain ⟨s₁, hv, rfl⟩ := onStore_eq_ok.mp hon
  cases dest with
  | none =>
    cases h₁
    exact .stop hv
  | some d =>
    cases hf : (if options.inlineCalls && (frame.depth : Int) < options.maxCallDepth
        then program.function? callee else none) with
    | some f =>
      rw [hf] at h₁
      obtain ⟨hargs, s₂, hpass, hm', rfl⟩ := inlineCall_eq_ok h₁
      rw [hm']
      exact .enter hv hf hargs hpass
    | none =>
      rw [hf] at h₁
      obtain ⟨_, m₂, hcount, h₂⟩ := Action.bind_eq_ok.mp h₁
      cases hcount
      obtain ⟨n, m₃, hfresh, h₃⟩ := Action.bind_eq_ok.mp h₂
      obtain ⟨s₂, hn, rfl⟩ := onStore_eq_ok.mp hfresh
      cases h₃
      exact .skip hv hf hn

theorem finishCall_concludes (h : finishCall frame env m = (.ok fs, m')) :
    Concludes options program frame env m.store .return m'.store fs := by
  unfold finishCall at h
  cases hf : frame.callers with
  | nil =>
    rw [hf] at h
    cases h
    exact .finish hf
  | cons caller callers =>
    rw [hf] at h
    obtain ⟨result, m₁, hon, h₁⟩ := Action.bind_eq_ok.mp h
    obtain ⟨s₁, hr, rfl⟩ := onStore_eq_ok.mp hon
    obtain ⟨⟨_, memory⟩, m₂, h₂, h₃⟩ := Action.bind_eq_ok.mp h₁
    obtain ⟨s₂, hcopy, rfl⟩ := onStore_eq_ok.mp h₂
    obtain ⟨s₃, hx, rfl, rfl⟩ := Store.onCopy_eq_ok.mp hcopy
    obtain ⟨_, s₄, hdrop, h₄⟩ := Action.bind_eq_ok.mp hx
    obtain rfl : s₄ = { s₁ with memory := s₁.memory.drop env.depth } := (Prod.mk.inj hdrop).2.symm
    obtain ⟨n, s₅, hn, h₅⟩ := Action.bind_eq_ok.mp h₄
    obtain ⟨d, s₆, hdecl, h₆⟩ := Action.bind_eq_ok.mp h₅
    obtain ⟨hd, rfl⟩ := Store.declaration_eq_ok.mp hdecl
    cases h₃
    exact .resume hf (Action.within_eq_ok.mp hr) hn hd h₆

/-- Going on at several blocks changes nothing. -/
theorem mapM_goOn (frame : Frame) (env : Env) (ts : List (Int × Expr)) (m : Machine) :
    ts.mapM (fun t => goOn frame env t.1 (some t.2)) m =
      (.ok (ts.map fun t => frame.fork m.store.memory t.1 (some t.2) env.node), m) :=
  Action.mapM_eq (f := fun t => goOn frame env t.1 (some t.2)) (fun _ => rfl) ts

/-- A switch makes one frame for each target, with the guard of its position. -/
theorem terminator_switch_eq_ok {values targets : List Int}
    (h : terminator options program frame env (.switch x values targets span) m = (.ok fs, m')) :
    targets.length = values.length + 1 ∧ ∃ discr s₁,
      Store.operand { env with span } x m.store = (.ok discr, s₁) ∧ m'.store = s₁ ∧
      fs = (targets.zip (switchGuards discr values)).map fun tg =>
        frame.fork s₁.memory tg.1 (some tg.2) env.node := by
  rw [terminator] at h
  by_cases hlen : targets.length = values.length + 1
  · rw [if_neg (not_not_intro hlen)] at h
    obtain ⟨discr, m₁, hon, h₁⟩ := Action.bind_eq_ok.mp h
    obtain ⟨s₁, hd, rfl⟩ := onStore_eq_ok.mp hon
    refine ⟨hlen, discr, s₁, hd, ?_⟩
    obtain ⟨h₂, rfl⟩ := Prod.mk.inj ((mapM_goOn frame env _ _).symm.trans h₁)
    exact ⟨rfl, (Except.ok.inj h₂).symm⟩
  · rw [if_pos hlen] at h
    exact absurd h error_ne_ok

theorem terminator_concludes {t : Terminator}
    (h : terminator options program frame env t m = (.ok fs, m')) :
    Concludes options program frame env m.store t m'.store fs := by
  cases t with
  | goto target =>
    cases h
    exact .goto
  | switch x values targets span =>
    obtain ⟨hlen, discr, s₁, hd, rfl, rfl⟩ := terminator_switch_eq_ok h
    exact .switch hlen hd
  | assert x expected target span =>
    obtain ⟨cond, m₁, hon, h₁⟩ := Action.bind_eq_ok.mp h
    obtain ⟨s₁, hc, rfl⟩ := onStore_eq_ok.mp hon
    by_cases hsort : cond.sort = .bool
    · rw [if_neg (not_not_intro hsort)] at h₁
      obtain ⟨_, m₂, hon, h₂⟩ := Action.bind_eq_ok.mp h₁
      obtain ⟨s₂, hadd, rfl⟩ := onStore_eq_ok.mp hon
      obtain ⟨⟨k, hk⟩, -, rfl⟩ := Store.assertExpr_eq_ok hadd
      cases h₂
      exact .assert hc hsort hk
    · rw [if_pos hsort] at h₁
      exact absurd h₁ error_ne_ok
  | call callee args dest next span => exact call_concludes h
  | «return» => exact finishCall_concludes h
  | unreachable =>
    cases h
    exact .unreachable
  | missing => exact absurd h error_ne_ok

theorem block_concludes {b : Block} (h : block options program frame env b m = (.ok fs, m')) :
    ∃ s₁, Store.statements env b.statements m.store = (.ok (), s₁) ∧
      Concludes options program frame env s₁ b.terminator m'.store fs := by
  obtain ⟨_, m₁, hon, h₁⟩ := Action.bind_eq_ok.mp h
  obtain ⟨s₁, hs, rfl⟩ := onStore_eq_ok.mp hon
  exact ⟨s₁, hs, terminator_concludes h₁⟩

end Machine
end NullPath
