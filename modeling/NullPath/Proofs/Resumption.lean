import NullPath.Proofs.Confinement
import NullPath.Proofs.Replay
import NullPath.Proofs.RootedTree

/-!
# A caller that goes on after a call

Two explorations come to the same call.  One of them follows it, and the other one only gives the
destination a new name.  Until the call returns, the first one asserts things about names that were
declared inside of the call, but it leaves the memory of the caller as it was.  Then it gives the
destination a new name as well, and from there on both go on with the same memory up to a renaming.

* `Store.Mapped`: one store is another one renamed, as far as memory and sorts go.
* `Store.Mapped.of_confined`: a callee does not change that.
* `Machine.block_follows`, `Machine.block_skips`, `Machine.block_returns`: what a block does that
  ends with a call or returns from one.
* `Machine.Detour`: a call was followed in one exploration and skipped in the other one.
* `Machine.Detour.exists_resumed`: where the call returns, both are the same again.
-/

namespace NullPath

open Store

namespace Action

variable {σ τ α β : Type} {P : σ → τ → Prop} {Q : α → β → Prop}

/-- If both actions succeed, their values and states correspond. -/
theorem Mirrors.of_ok {x : Action σ α} {y : Action τ β} (h : Mirrors P x y Q) {s s' : σ}
    {t t' : τ} {a : α} {b : β} (hst : P s t) (hx : x s = (.ok a, s')) (hy : y t = (.ok b, t')) :
    P s' t' ∧ Q a b := by
  have hagree := h s t hst
  rw [hx, hy] at hagree
  cases hagree with
  | ok hst' hab => exact ⟨hst', hab⟩

end Action

/-! ## Stores that declare the same names -/

namespace Graph

/-- The declared names with their sorts. -/
def signature (g : Graph) : List (Name × ExprSort) :=
  g.decls.map fun d => (d.name, d.sort)

variable {g g' : Graph} {k : Nat} {x : Name × ExprSort}

theorem length_signature : g.signature.length = g.decls.length :=
  List.length_map _

theorem signature_eq_some : g.signature[k]? = some x ↔
    ∃ d, g.decls[k]? = some d ∧ (d.name, d.sort) = x := by
  rw [signature, List.getElem?_map, Option.map_eq_some_iff]

theorem signature_declare (sort : ExprSort) (o : Option Origin) :
    (g.declare sort o).2.signature = g.signature ++ [(⟨g.decls.length⟩, sort)] := by
  simp [signature, declare]

theorem Grows.signature {i : Int} {es : List Expr} (h : Grows i es g g')
    (hx : g.signature[k]? = some x) : g'.signature[k]? = some x := by
  obtain ⟨d, hd, rfl⟩ := signature_eq_some.mp hx
  obtain ⟨d', hd', hgain⟩ := h.decls k d hd
  exact signature_eq_some.mpr ⟨d', hd', by rw [hgain.name, hgain.sort]⟩

theorem Tidy.of_signature (h : g.Tidy) {n : Name} (hx : g.signature[n.index]? = some x) :
    x.1 = n := by
  obtain ⟨d, hd, rfl⟩ := signature_eq_some.mp hx
  exact (h n.index d hd).1

/-- Every declared name has the same sort in a later state. -/
theorem Extends.signature (h : g.Extends g') (hx : g.signature[k]? = some x) :
    g'.signature[k]? = some x := by
  obtain ⟨d, hd, rfl⟩ := signature_eq_some.mp hx
  obtain ⟨d', hd', hext⟩ := h.decls k d hd
  exact signature_eq_some.mpr ⟨d', hd', by rw [hext.name, hext.sort]⟩

end Graph

namespace Store

variable {ρ : Name ↪ Name} {s t : Store} {env : Env} {n : Name}

theorem memory_tagged (d : Declaration) : (s.tagged env n d).memory = s.memory := by
  unfold tagged
  split <;> rfl

theorem signature_tagged (d : Declaration) :
    (s.tagged env n d).graph.signature = s.graph.signature := by
  unfold tagged
  split
  · rfl
  · refine List.ext_getElem? fun k => ?_
    simp only [Graph.signature, List.getElem?_map, List.getElem?_modify]
    cases s.graph.decls[k]? with
    | none => rfl
    | some d =>
      split <;> rfl

theorem tag_of_declared {d : Declaration} (hd : s.graph.declaration? n = some d) :
    tag env n s = (.ok (), s.tagged env n d) := by
  refine Action.bind_eq_ok.mpr ⟨d, s, declaration_eq_ok.mpr ⟨hd, rfl⟩, ?_⟩
  unfold tagged
  cases hat : d.isDerefedAt env.node with
  | true => rfl
  | false =>
    rw [Bool.not_false, if_pos rfl, if_neg Bool.false_ne_true]
    refine onGraph_eq_ok.mpr ⟨_, ?_, rfl⟩
    rw [Graph.addTag, Graph.declaration, hd]
    rfl

theorem tag_of_undeclared (env : Env) (hd : s.graph.declaration? n = none) :
    ∃ e, tag env n s = (.error e, s) := by
  refine ⟨.fault (.undeclared n), ?_⟩
  rw [tag, Action.bind_apply, declaration, Action.bind_get, Graph.declaration, hd]
  rfl

/-- One store is another one renamed, as far as memory and the sorts of declared names go. -/
structure Mapped (ρ : Name ↪ Name) (s t : Store) : Prop where
  memory : s.memory.Renamed ρ t.memory
  names : ∀ (n : Name) x, s.graph.signature[n.index]? = some x →
    t.graph.signature[(ρ n).index]? = some (ρ x.1, x.2)
  beyond : Shifts ρ s.graph.decls.length t.graph.decls.length

theorem Renamed.mapped {i j : Int} (h : s.Renamed ρ i j t) : s.Mapped ρ t where
  memory := h.memory
  names := by
    intro n x hx
    obtain ⟨d, hd, rfl⟩ := Graph.signature_eq_some.mp hx
    obtain ⟨d', hd', hdd⟩ := h.decls n d hd
    exact Graph.signature_eq_some.mpr ⟨d', hd', by rw [hdd.name, hdd.sort]⟩
  beyond := h.beyond

namespace Mapped

theorem of_memory {m m' : Memory} (h : s.Mapped ρ t) (hm : m.Renamed ρ m') :
    Mapped ρ { s with memory := m } { t with memory := m' } :=
  ⟨hm, h.names, h.beyond⟩

theorem declare (h : s.Mapped ρ t) (sort : ExprSort) (o : Option Origin) :
    Mapped ρ { s with graph := (s.graph.declare sort o).2 }
      { t with graph := (t.graph.declare sort o).2 } where
  memory := h.memory
  names := by
    intro n x hx
    rw [Graph.signature_declare, List.getElem?_append, Graph.length_signature] at hx ⊢
    have hlt := h.beyond.index_lt_iff (n := n)
    split at hx
    · next hn =>
      rw [if_pos (hlt.mpr hn)]
      exact h.names n x hx
    · next hn =>
      have hn₀ : n.index = s.graph.decls.length := by
        have := lt_length_of_getElem? hx
        rw [List.length_singleton] at this
        omega
      obtain rfl : n = ⟨s.graph.decls.length⟩ := Name.ext hn₀
      have hnext : ρ ⟨s.graph.decls.length⟩ = ⟨t.graph.decls.length⟩ := h.beyond 0
      rw [Nat.sub_self, List.getElem?_cons_zero, Option.some.injEq] at hx
      rw [hnext, if_neg (Nat.lt_irrefl _), ← hx, hnext]
      simp
  beyond := fun k => by
    rw [Graph.length_declare, Graph.length_declare, Nat.add_assoc, Nat.add_assoc]
    exact h.beyond (1 + k)

theorem tagged {env' : Env} {d d' : Declaration} (h : s.Mapped ρ t) :
    Mapped ρ (s.tagged env n d) (t.tagged env' (ρ n) d') := by
  have hlength : ∀ {s s' : Store}, s'.graph.signature = s.graph.signature →
      s'.graph.decls.length = s.graph.decls.length := fun heq => by
    rw [← Graph.length_signature, heq, Graph.length_signature]
  refine ⟨?_, ?_, ?_⟩
  · rw [memory_tagged, memory_tagged]
    exact h.memory
  · rw [signature_tagged, signature_tagged]
    exact h.names
  · rw [hlength (signature_tagged d), hlength (signature_tagged d')]
    exact h.beyond

theorem mirrors_tag (env env' : Env) (n : Name) :
    Action.Mirrors (Mapped ρ) (tag env n) (tag env' (ρ n)) := by
  intro s t h
  cases hd : s.graph.declaration? n with
  | none =>
    have hd' : t.graph.declaration? (ρ n) = none := by
      rw [Graph.declaration?, h.beyond.apply (List.getElem?_eq_none_iff.mp hd)]
      exact List.getElem?_eq_none (Nat.le_add_right _ _)
    obtain ⟨e, he⟩ := tag_of_undeclared env hd
    obtain ⟨e', he'⟩ := tag_of_undeclared env' hd'
    rw [he, he']
    exact .error
  | some d =>
    have hlt := h.beyond.index_lt_iff.mpr (lt_length_of_getElem? hd)
    rw [tag_of_declared hd, tag_of_declared (List.getElem?_eq_getElem hlt)]
    exact .ok h.tagged trivial

theorem coupling {env' : Env} (hfunction : env'.function = env.function)
    (hdepth : env'.depth = env.depth) : Coupling ρ env env' (Mapped ρ) where
  function := hfunction
  depth := hdepth
  memory := Mapped.memory
  of_memory := Mapped.of_memory
  declare := fun sort _ _ h => .ok (h.declare sort none) (h.beyond 0).symm
  tag := mirrors_tag env env'

end Mapped

end Store

/-! ## What the caller finds after a call -/

section Confined

variable {ρ σ : Name ↪ Name} {B : Boundary} {d l b : Nat}

/-- What is a renamed memory when a call begins is one when the call has ended, for every renaming
that leaves out the names that were declared during the call. -/
theorem Memory.Renamed.of_confined {m₀ m : Memory} (h : m₀.Renamed ρ B.memory)
    (hm : m.Confined B d) (hd : d < B.depth) (hρ : Shifts ρ l B.names) (hσ : Shifts σ l b)
    (hb : B.names ≤ b) (hsame : ∀ n, n.index < l → σ n = ρ n)
    (hold : ∀ n, B.memory.Mentions n → n.index < B.names)
    (hnew : ∀ n, m.Mentions n → n.index < b) : m₀.Renamed σ m := by
  have hbefore := h.congr hρ hσ hb hsame hold
  have hslot : ∀ x : Slot, ¬ x.Inner B d := by
    rintro x ⟨hle, hle'⟩
    omega
  have hbehind : ∀ p, m.pointees.get? (σ p) = B.memory.pointees.get? (σ p) := by
    intro p
    by_cases hp : p.index < l
    · refine hm.outside (.behind (σ p)) (Nat.not_le_of_lt ?_)
      rw [hsame p hp]
      exact hρ.index_lt_iff.mpr hp
    · -- both memories hold nothing behind a name that is not declared yet
      have hlarge : ¬ (σ p).index < b := fun hlt => hp (hσ.index_lt_iff.mp hlt)
      have hnone : ∀ {m' : Memory}, (∀ n, m'.Mentions n → n.index < b) →
          m'.pointees.get? (σ p) = none := by
        intro m' hm'
        rw [Option.eq_none_iff_forall_ne_some]
        exact fun v hv => hlarge (hm' _ (.pointer hv))
      rw [hnone hnew, hnone fun n hn => Nat.lt_of_lt_of_le (hold n hn) hb]
  refine ⟨⟨fun x => ?_⟩, ⟨fun x => ?_⟩, ⟨fun p => ?_⟩⟩
  · exact (hm.outside (.slot x) (hslot x)).trans (hbefore.locals.get? x)
  · exact (hm.outside_address x (hslot x)).trans (hbefore.addrs.get? x)
  · exact (hbehind p).trans (hbefore.pointees.get? p)

theorem Store.Mapped.of_confined {s t u : Store} (h : s.Mapped ρ t)
    (ht : t.Scoped) (hnames : B.names = t.graph.decls.length)
    (hmemory : B.memory = t.memory) (hu : u.memory.Confined B d) (hd : d < B.depth)
    (hscope : u.Scoped) (hle : t.graph.decls.length ≤ u.graph.decls.length)
    (hkept : ∀ (k : Nat) x, t.graph.signature[k]? = some x → u.graph.signature[k]? = some x) :
    ∃ σ : Name ↪ Name, (∀ n, n.index < s.graph.decls.length → σ n = ρ n) ∧ s.Mapped σ u := by
  obtain ⟨σ, hsame, hσ⟩ := h.beyond.exists_extension hle
  refine ⟨σ, hsame, ?_, fun n x hx => ?_, hσ⟩
  · refine Memory.Renamed.of_confined (hmemory ▸ h.memory) hu hd (hnames ▸ h.beyond) hσ
      (hnames ▸ hle) hsame (fun n hn => ?_) fun n hn => (hscope.mentions n hn).2
    rw [hmemory] at hn
    rw [hnames]
    exact (ht.mentions n hn).2
  · have hlt : n.index < s.graph.decls.length := by
      rw [← Graph.length_signature]
      exact lt_length_of_getElem? hx
    have hx' := h.names n x hx
    obtain rfl := ρ.injective (ht.tidy.of_signature hx')
    rw [hsame _ hlt]
    exact hkept _ _ hx'

end Confined

/-! ## Calls that end -/

theorem Store.derefs_passArguments {env : Env} {node : Int} {k : Nat} {args : List Expr}
    {s s' : Store} (h : passArguments env node k args s = (.ok (), s')) :
    ∀ d ∈ s'.graph.decls, d ∈ s.graph.decls ∨ d.derefs = [] := by
  induction args generalizing s k with
  | nil =>
    cases h
    exact fun d => .inl
  | cons arg args ih =>
    obtain ⟨n, s₁, s₂, hw, heq, h₂⟩ := passArguments_cons_eq_ok.mp h
    obtain ⟨-, d₁, -, -, rfl⟩ := assertEqual_eq_ok heq
    have hfresh : OnlyDeclares s (writeFresh env ⟨k, 0⟩ s).2 := onlyDeclares_writeFresh s
    rw [hw] at hfresh
    exact fun d hd => (ih h₂ d hd).elim (hfresh.decls d) .inr

namespace Machine

variable {options : Options} {program : Program} {frame f : Frame} {env : Env} {b : Block}
  {m m' : Machine} {fs : List Frame} {caller : Caller} {callers : List Caller}

variable {callee : String} {args : List Operand} {dest : Place} {next : Int} {span : Span}

section
variable (ht : b.terminator = .call callee args (some dest) next span)
  (h : block options program frame env b m = (.ok fs, m'))
include ht h

/-- A block whose call is followed ends with the first frame of the callee. -/
theorem block_follows {body : Function}
    (hbody : options.followed program frame.depth callee = some body) :
    ∃ s₁ values s₂ s₃, statements env b.statements m.store = (.ok (), s₁) ∧
      operands { env with span } args s₁ = (.ok values, s₂) ∧
      passArguments { function := body, depth := frame.depth + 1, node := env.node }
        env.node 1 values s₂ = (.ok (), s₃) ∧
      m'.store.graph = s₃.graph ∧ fs = [frame.enter s₃.memory body dest next env.node] := by
  obtain ⟨s₁, hst, hterm⟩ := block_concludes h
  generalize m'.store = s' at hterm ⊢
  rw [ht] at hterm
  cases hterm with
  | enter hargs hf _ hpass =>
    cases hbody.symm.trans hf
    exact ⟨s₁, _, _, _, hst, hargs, hpass, rfl, rfl⟩
  | skip _ hnot => cases hnot.symm.trans hbody

/-- A block whose call is not followed gives the destination a new name. -/
theorem block_skips (hnone : options.followed program frame.depth callee = none) :
    ∃ s₁ values s₂ n, statements env b.statements m.store = (.ok (), s₁) ∧
      operands { env with span } args s₁ = (.ok values, s₂) ∧
      writeFresh { env with span } dest s₂ = (.ok n, m'.store) ∧
      fs = [frame.fork m'.store.memory next none env.node] := by
  obtain ⟨s₁, hst, hterm⟩ := block_concludes h
  generalize m'.store = s' at hterm ⊢
  rw [ht] at hterm
  cases hterm with
  | enter _ hf => cases hnone.symm.trans hf
  | skip hargs _ hw => exact ⟨s₁, _, _, _, hst, hargs, hw, rfl⟩

end

/-- Only a return leads to a frame with fewer callers. -/
theorem block_returns (hc : frame.callers = caller :: callers)
    (h : block options program frame env b m = (.ok fs, m')) (hf : f ∈ fs)
    (hcallers : f.callers = callers) :
    ∃ s₁ result s₂ n s₃ d s₄, statements env b.statements m.store = (.ok (), s₁) ∧
      readCopy env ⟨0, 0⟩ s₁ = (.ok result, s₂) ∧
      writeFresh (outer env caller callers) caller.dest
        { s₂ with memory := s₂.memory.drop env.depth } = (.ok n, s₃) ∧
      assertEqual env.node n d s₃ = (.ok (), s₄) ∧
      m'.store.graph = s₄.graph ∧ f = frame.resume s₄.memory caller callers env.node := by
  have hne : f.callers.length ≠ frame.callers.length := by
    rw [hcallers, hc, List.length_cons]
    omega
  obtain ⟨s₁, hst, ht⟩ := block_concludes h
  generalize b.terminator = t, m'.store = s' at ht ⊢
  cases ht with
  | goto | assert | skip =>
    rw [List.mem_singleton.mp hf] at hne
    exact absurd rfl hne
  | switch =>
    obtain ⟨tg, -, rfl⟩ := List.mem_map.mp hf
    exact absurd rfl hne
  | stop | finish | unreachable => cases hf
  | enter =>
    have hlen := congrArg List.length hcallers
    rw [List.mem_singleton.mp hf, Frame.enter, hc, List.length_cons, List.length_cons] at hlen
    omega
  | resume hc' hr hw _ heq =>
    cases hc.symm.trans hc'
    exact ⟨s₁, _, _, _, _, _, _, hst, hr, hw, heq, rfl, List.mem_singleton.mp hf⟩

/-- A call in progress, made by a function that has no caller itself.  The caller is another one up
to a renaming, which has given the destination a new name instead of making the call. -/
structure Detour (B : Boundary) (ρ : Name ↪ Name) (s s' t : Store) (caller : Caller) : Prop where
  depth : B.depth = 1
  names : B.names = t.graph.decls.length
  memory : B.memory = t.memory
  mapped : s.Mapped ρ t
  scope : t.Scoped
  write : ∃ env n, env.function = caller.function ∧ env.depth = 0 ∧
    Store.writeFresh env caller.dest s = (.ok n, s')

/-- When the call returns, both have given the destination a new name, and are the same up to a
renaming again. -/
theorem Detour.exists_resumed {B : Boundary} {ρ : Name ↪ Name} {s s' t : Store}
    (ha : Detour B ρ s s' t caller) (hext : t.graph.Extends m.store.graph)
    (hc : frame.callers = [caller]) (henv : env.depth = 1)
    (hconfined : m.store.memory.Confined B 1) (hscope : m.store.Scoped)
    (h : block options program frame env b m = (.ok fs, m')) (hf : f ∈ fs)
    (hcallers : f.callers = []) :
    ∃ σ : Name ↪ Name, (∀ k, k.index < s.graph.decls.length → σ k = ρ k) ∧
      s'.Mapped σ ⟨m'.store.graph, f.memory⟩ ∧ f.function = caller.function ∧
      f.block = caller.next ∧ f.guard = none := by
  obtain ⟨s₁, result, s₂, n', s₃, value, s₄, hst, hr, hw', heq, hgraph, rfl⟩ :=
    block_returns hc h hf hcallers
  obtain ⟨env₀, n, hfunction, hdepth, hw⟩ := ha.write
  have hinside : env.Inside B 1 := ⟨henv, ha.depth.le, .inl (by decide)⟩
  have hc₀ : m.store.Confined B 1 := ⟨hconfined, ha.names ▸ hext.length_le, hscope.tidy⟩
  have hc₂ := ((hc₀.statements hinside hst).readCopy hinside hr).1
  have hdrop : (s₂.memory.drop env.depth).Confined B 0 := by
    rw [henv]
    exact hc₂.memory.drop ha.depth.le
  obtain ⟨es, he, -⟩ := hscope.statements hst
  have hev := he.trans (he.scope.readCopy hr).1
  obtain ⟨σ, hsame, hσ⟩ := ha.mapped.of_confined
    (u := { s₂ with memory := s₂.memory.drop env.depth }) ha.scope ha.names ha.memory hdrop
    (ha.depth ▸ Nat.zero_lt_one)
    ⟨hev.scope.tidy, hev.scope.fresh, fun n hn => hev.scope.mentions n hn.of_drop⟩
    (hext.length_le.trans hev.grows.length_le)
    (fun k x hx => hev.grows.signature (hext.signature hx))
  have hcoupling : Coupling σ env₀ (outer env caller []) (Mapped σ) :=
    Mapped.coupling hfunction.symm hdepth.symm
  obtain ⟨hσ', -⟩ := (hcoupling.writeFresh caller.dest).of_ok hσ hw hw'
  obtain ⟨-, d, -, -, rfl⟩ := assertEqual_eq_ok heq
  refine ⟨σ, hsame, ?_, rfl, rfl, rfl⟩
  rw [hgraph]
  exact ⟨hσ'.memory, hσ'.names, hσ'.beyond⟩

end Machine

end NullPath
