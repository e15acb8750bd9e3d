import NullPath.Proofs.Entry
import NullPath.Proofs.Preservation
import NullPath.Proofs.Termination

/-!
# Faults of an exploration

The code that is explored may be malformed in many ways, and an exploration answers with an error.
A fault is different: it says that the exploration itself used the graph or the memory in a wrong
way.  There is no such use.  Every name in a memory is declared, the node at work exists and is
open, and what is asserted is a truth value, because these are kept by every action, also by one
that breaks off in the middle.

There is one exception.  An assignment of a name asks whether the place is one for pointers, and a
local whose type is missing has no answer to this.

* `Store.Misassigns`: statements get to the assignment of a name to a place without a type.
* `Explorer.step_faults_iff`: the steps that fault.
-/

namespace NullPath

open Action Store

/-- The failure is an answer about the code, not a fault. -/
def Failure.IsError (failure : Failure) : Prop :=
  ∃ err, failure = .error err

theorem Failure.IsError.within {failure : Failure} (h : failure.IsError) (activity : String) :
    (failure.within activity).IsError := by
  obtain ⟨err, rfl⟩ := h
  exact ⟨_, rfl⟩

/-! ## Guarded actions -/

namespace Action

variable {σ α β : Type} {C : Prop} {x : Action σ α} {s : σ}

/-- A failed action faulted only under a condition. -/
def Guarded (C : Prop) (x : Action σ α) (s : σ) : Prop :=
  Triple x s (fun _ _ => True) fun failure _ => failure.IsError ∨ C

namespace Guarded

theorem pure (a : α) : Guarded C (Pure.pure a : Action σ α) s :=
  Triple.pure trivial

theorem error (err : Error) : Guarded C (Action.error err : Action σ α) s :=
  Triple.error (.inl ⟨err, rfl⟩)

theorem lift (r : Except Error α) : Guarded C (Action.lift r) s :=
  Triple.lift (fun _ _ => trivial) fun err _ => .inl ⟨err, rfl⟩

theorem liftFault {r : Except Fault α} (hr : ∀ f, r = .error f → C) :
    Guarded C (Action.liftFault r) s :=
  Triple.liftFault (fun _ _ => trivial) fun f hf => .inr (hr f hf)

theorem bind {f : α → Action σ β} (hx : Guarded C x s)
    (hf : ∀ a s', x s = (.ok a, s') → Guarded C (f a) s') : Guarded C (x >>= f) s :=
  Triple.bind hx fun a s' h _ => hf a s' h

theorem within (hx : Guarded C x s) (activity : String) : Guarded C (Action.within activity x) s :=
  Triple.within hx activity fun _ _ h => h.imp_left fun he => he.within activity

theorem onCopy {x : Action Store α} {s : Store} (hx : Guarded C x s) : Guarded C (onCopy x) s :=
  Triple.mono (Triple.onCopy hx) (fun _ _ _ => trivial) fun _ _ ⟨_, h⟩ => h

theorem onStore {x : Action Store α} {m : Machine} (hx : Guarded C x m.store) :
    Guarded C (Machine.onStore x) m :=
  Triple.onStore hx

end Guarded

end Action

/-! ## Reading and writing -/

namespace Store

variable {C : Prop} {P : Name → Prop} {i base : Int} {env : Env} {p : Place} {c : Cell}
  {n : Name} {s s' : Store} {k : Nat} {rv : Rvalue} {value : Expr} {sts : List Statement}

theorem guarded_onGraph {f : Graph → Except Fault Graph}
    (hf : ∀ fault, f s.graph = .error fault → C) : Guarded C (onGraph f) s := by
  refine Triple.mono triple_onGraph (fun _ _ _ => trivial) ?_
  rintro failure s' ⟨rfl, fault, hfault, -⟩
  exact .inr (hf fault hfault)

theorem guarded_declaration (hn : s.Knows P n) : Guarded C (declaration n) s := by
  refine Triple.mono triple_declaration (fun _ _ _ => trivial) fun failure s' ⟨_, hnone⟩ => ?_
  rw [Graph.declaration?, List.getElem?_eq_getElem hn.2] at hnone
  cases hnone

theorem guarded_tag (hn : s.Knows P n) : Guarded C (tag env n) s := by
  refine (guarded_declaration hn).bind fun d s₁ hd => ?_
  obtain ⟨hd, rfl⟩ := declaration_eq_ok.mp hd
  split
  · refine guarded_onGraph fun fault hf => ?_
    have hdecl : s₁.graph.declaration n = .ok d := by rw [Graph.declaration, hd]
    unfold Graph.addTag at hf
    rw [hdecl] at hf
    cases hf
  · exact .pure _

theorem guarded_readCell : Guarded C (readCell env p c) s := by
  refine Triple.bind_of_eq rfl ?_
  split
  · exact Guarded.pure _
  · exact Guarded.error _
  · split
    · exact Guarded.error _
    · exact (Guarded.lift _).bind fun sort s₁ _ => Triple.of_eq_ok rfl trivial

section
variable (hs : s.Scoped P)
include hs

theorem guarded_resolveAt : Guarded C (resolveAt env base k) s := by
  induction k with
  | zero =>
    unfold resolveAt
    split
    · exact .error _
    · exact Triple.of_eq_ok rfl trivial
  | succ k ih =>
    refine ih.bind fun c₀ s₁ hc₀ => ?_
    obtain ⟨h₁, hl⟩ := hs.resolveAt hc₀
    refine guarded_readCell.bind fun pointer s₂ hp => ?_
    obtain ⟨-, hk⟩ := h₁.scope.readCell (i := env.node) hl hp
    exact (guarded_tag hk).bind fun _ s₃ _ => .pure _

theorem guarded_resolve : Guarded C (resolve env p) s :=
  guarded_resolveAt hs

theorem guarded_readCopy : Guarded C (readCopy env p) s :=
  (guarded_resolve hs).bind fun _ _ _ => guarded_readCell

theorem guarded_readMove : Guarded C (readMove env p) s := by
  refine (guarded_readCopy hs).bind fun n s₁ hn => ?_
  refine (guarded_resolve (hs.readCopy hn).1.scope).bind fun c s₂ hc => ?_
  exact Triple.of_eq_ok rfl trivial

theorem guarded_bind : Guarded C (bind env p n) s :=
  (guarded_resolve hs).bind fun _ _ _ => Triple.of_eq_ok rfl trivial

theorem guarded_writeFresh : Guarded C (writeFresh env p) s := by
  refine (Guarded.lift _).bind fun sort s₁ hl => ?_
  obtain ⟨-, rfl⟩ := Action.lift_eq_ok.mp hl
  exact (guarded_resolve hs).bind fun c s₂ _ => Triple.of_eq_ok rfl trivial

theorem guarded_ref : Guarded C (ref env p) s := by
  unfold ref
  split
  · exact (guarded_readCopy hs).bind fun n s₁ _ => .pure _
  · split
    · exact .error _
    · refine Triple.bind_of_eq rfl ?_
      split
      · exact Guarded.pure _
      · exact Triple.of_eq_ok rfl trivial

end

/-! ## Values and statements -/

/-- The names are in scope, and the node at work is open. -/
structure Ready (P : Name → Prop) (i : Int) (s : Store) : Prop where
  scope : s.Scoped P
  node : s.graph.IsOpen i

theorem Ready.evolves {es : List Expr} (hs : s.Ready P i) (h : s.Evolves P i es s') :
    s'.Ready P i :=
  ⟨h.scope, hs.node.grows h.grows⟩

theorem guarded_assertExpr {e : Expr} (hs : s.Ready P i) (he : e.sort = .bool) :
    Guarded C (assertExpr i e) s := by
  obtain ⟨k, hk, hopen⟩ := hs.node
  refine guarded_onGraph fun fault hf => ?_
  have hnode : s.graph.node i = .ok k := by rw [Graph.node, hk]
  unfold Graph.addExpr at hf
  simp only [hnode, Bind.bind, Except.bind, hopen, he] at hf
  cases hf

theorem guarded_operand {x : Operand} (hs : s.Scoped P) : Guarded C (operand env x) s := by
  cases x with
  | copy p =>
    refine (guarded_readCopy hs).bind fun n s₁ hn => ?_
    obtain ⟨h₁, hk⟩ := hs.readCopy hn
    exact (guarded_declaration hk).bind fun d s₂ _ => .pure _
  | move p =>
    refine (guarded_readMove hs).bind fun n s₁ hn => ?_
    obtain ⟨h₁, hk⟩ := hs.readMove hn
    exact (guarded_declaration hk).bind fun d s₂ _ => .pure _
  | const v t => exact (Guarded.lift _).bind fun sort s₁ _ => .pure _
  | missing => exact .error _

theorem guarded_rvalue (hs : s.Ready P env.node) : Guarded C (rvalue env rv) s := by
  cases rv with
  | use x => exact guarded_operand hs.scope
  | binary op l r =>
    refine (guarded_operand hs.scope).bind fun a s₁ ha => ?_
    exact (guarded_operand (hs.scope.operand ha).1.scope).bind fun b s₂ hb => .lift _
  | unary op x | cast x t => exact (guarded_operand hs.scope).bind fun a s₁ ha => .lift _
  | ref p =>
    refine (guarded_ref hs.scope).bind fun r s₁ hr => ?_
    obtain ⟨n, isNew⟩ := r
    obtain ⟨h₁, hk⟩ := hs.scope.ref hr
    cases isNew with
    | false => exact .pure _
    | true =>
      refine Guarded.bind (guarded_assertExpr (hs.evolves h₁) ?_) fun _ s₂ _ => .pure _
      exact hk.hasSort_int.isZero.mkNot.2
  | missing => exact .error _

theorem guarded_assertEqual (hs : s.Ready P i) (hn : s.Knows P n)
    (hv : value.Sorted (s.graph.uses P)) : Guarded C (assertEqual i n value) s := by
  refine (guarded_declaration hn).bind fun d s₁ hd => ?_
  obtain ⟨hd, rfl⟩ := declaration_eq_ok.mp hd
  split
  · exact .error _
  · next hsort =>
    have hexpr := (hs.scope.sorted_expr hn hd).mono (Graph.scope_le_uses _ P)
    exact guarded_assertExpr hs (hexpr.mkEq ⟨hv, not_not.mp hsort⟩).2

/-- The assignment gets as far as giving a name to a place whose type is missing. -/
def MisassignsAt (env : Env) (p : Place) (rv : Rvalue) (s : Store) : Prop :=
  ∃ n sort s₁, rvalue env rv s = (.ok (.name n sort), s₁) ∧
    env.function.placeType p = .ok .untyped

/-- It is not known whether an assignment shares the name of its value. -/
theorem sharesName_eq_error_iff {f : Fault} :
    sharesName env p value = .error f ↔
      f = .missingData ∧ (∃ n sort, value = .name n sort) ∧
        env.function.placeType p = .ok .untyped := by
  unfold sharesName
  split
  · next n sort =>
    split
    · next ht => simp [ht, eq_comm]
    · next t hne ht =>
      rw [ht]
      exact iff_of_false (fun h => nomatch h) fun h => hne (Except.ok.inj h.2.2)
    · next err ht => simp [ht]
  · next hne => exact iff_of_false (fun h => nomatch h) fun ⟨_, ⟨n, sort, h⟩, _⟩ => hne n sort h

theorem guarded_assign (hs : s.Ready P env.node) :
    Guarded (MisassignsAt env p rv s) (assign env p rv) s := by
  refine (guarded_rvalue hs).bind fun value s₁ hv => ?_
  obtain ⟨es, h₁, hsort⟩ := hs.scope.rvalue hv
  have hbad : ∀ f, sharesName env p value = .error f → MisassignsAt env p rv s := by
    intro f hf
    obtain ⟨-, ⟨n, sort, rfl⟩, ht⟩ := sharesName_eq_error_iff.mp hf
    exact ⟨n, sort, s₁, hv, ht⟩
  refine (Guarded.liftFault hbad).bind fun shared s₂ hl => ?_
  obtain ⟨-, rfl⟩ := Action.liftFault_eq_ok.mp hl
  cases shared with
  | some n => exact guarded_bind h₁.scope
  | none =>
    refine (guarded_writeFresh h₁.scope).bind fun n s₃ hw => ?_
    obtain ⟨h₂, hk⟩ := h₁.scope.writeFresh hw
    exact guarded_assertEqual ((hs.evolves h₁).evolves h₂) hk (hsort.mono (h₂.grows.uses_le P))

theorem guarded_makeLive (hs : s.Scoped P) : Guarded C (makeLive env base) s := by
  have hu : s.Evolves P env.node [] (s.unbound (.of env.depth base)) := .unbound hs
  refine Triple.bind_of_eq rfl ?_
  split
  · exact Guarded.error _
  · split
    · exact Guarded.pure _
    · exact (guarded_writeFresh hu.scope).bind fun n s₂ _ => .pure _

/-- The statements get as far as an assignment of a name to a place whose type is missing. -/
def Misassigns (env : Env) (sts : List Statement) (s : Store) : Prop :=
  ∃ done p rv span rest s₁, sts = done ++ .assign p rv span :: rest ∧
    statements env done s = (.ok (), s₁) ∧ MisassignsAt { env with span } p rv s₁

theorem Misassigns.cons {st : Statement} (h : statement env st s = (.ok (), s'))
    (hm : Misassigns env sts s') : Misassigns env (st :: sts) s := by
  obtain ⟨done, p, rv, span, rest, s₁, rfl, hdone, hbad⟩ := hm
  exact ⟨st :: done, p, rv, span, rest, s₁, rfl, statements_cons_eq_ok.mpr ⟨s', h, hdone⟩, hbad⟩

theorem guarded_statements (hs : s.Ready P env.node) :
    Guarded (Misassigns env sts s) (statements env sts) s := by
  induction sts generalizing s with
  | nil => exact .pure _
  | cons st sts ih =>
    have hst : Guarded (Misassigns env (st :: sts) s) (statement env st) s := by
      cases st with
      | assign p rv span =>
        have hassign : Guarded (MisassignsAt { env with span } p rv s)
          (assign { env with span } p rv) s := guarded_assign hs
        exact Triple.mono hassign (fun _ _ h => h) fun _ _ h =>
          h.imp_right fun hbad => ⟨[], p, rv, span, sts, s, rfl, rfl, hbad⟩
      | storageLive base => exact guarded_makeLive hs.scope
      | storageDead base => exact Triple.of_eq_ok rfl trivial
      | nop => exact .pure _
      | missing => exact .error _
    refine hst.bind fun _ s₁ h₁ => ?_
    obtain ⟨es, he, -⟩ := hs.scope.statement h₁
    exact Triple.mono (ih (hs.evolves he)) (fun _ _ h => h)
      fun _ _ h => h.imp_right fun hbad => hbad.cons h₁

theorem guarded_operands {xs : List Operand} (hs : s.Scoped P) : Guarded C (operands env xs) s := by
  induction xs generalizing s with
  | nil => exact .pure _
  | cons x xs ih =>
    refine (guarded_operand hs).bind fun v s₁ hv => ?_
    exact (ih (hs.operand hv).1.scope).bind fun vs s₂ _ => .pure _

theorem guarded_passArguments {args : List Expr} (hs : s.Ready P env.node)
    (hargs : ∀ v ∈ args, v.Sorted (s.graph.uses P)) :
    Guarded C (passArguments env env.node k args) s := by
  induction args generalizing s k with
  | nil => exact .pure _
  | cons v args ih =>
    rw [List.forall_mem_cons] at hargs
    refine (guarded_writeFresh hs.scope).bind fun n s₁ hw => ?_
    obtain ⟨h₁, hk⟩ := hs.scope.writeFresh hw
    have hv := hargs.1.mono (h₁.grows.uses_le P)
    refine (guarded_assertEqual (hs.evolves h₁) hk hv).bind fun _ s₂ heq => ?_
    obtain ⟨es, he, -⟩ := (hs.scope.define_unfolds hargs.1 False.elim hw heq).evolves
    exact ih (hs.evolves he) fun a ha => (hargs.2 a ha).mono (he.grows.uses_le P)

end Store

/-! ## Blocks -/

namespace Machine

variable {C : Prop} {P : Name → Prop} {options : Options} {program : Program}
  {frame : Frame} {env : Env} {m : Machine} {next : Int}

theorem guarded_inlineCall {callee : Function} {args : List Expr} {dest : Place}
    (hs : m.store.Ready P env.node) (hargs : ∀ v ∈ args, v.Sorted (m.store.graph.uses P)) :
    Guarded C (inlineCall frame env callee args dest next) m := by
  unfold inlineCall
  split
  · exact .error _
  · have hpass : Guarded C (passArguments
      { function := callee, depth := frame.depth + 1, node := env.node } env.node 1 args) m.store :=
      guarded_passArguments hs hargs
    exact (Guarded.onStore (hpass.within _).onCopy).bind fun _ _ _ => Triple.of_eq_ok rfl trivial

theorem guarded_call {callee : String} {args : List Operand} {dest : Option Place}
    (hs : m.store.Ready P env.node) :
    Guarded C (call options program frame env callee args dest next) m := by
  refine (Guarded.onStore (guarded_operands hs.scope)).bind fun values m₁ hon => ?_
  obtain ⟨s₁, hv, rfl⟩ := onStore_eq_ok.mp hon
  obtain ⟨h₁, hall⟩ := hs.scope.operands hv
  split
  · exact .pure _
  · simp only
    split
    · exact guarded_inlineCall (hs.evolves h₁)
        fun v hv => (hall v hv).1.mono (Graph.scope_le_uses _ P)
    · exact Triple.bind_of_eq rfl ((Guarded.onStore (guarded_writeFresh h₁.scope)).bind
        fun _ _ _ => Triple.of_eq_ok rfl trivial)

theorem guarded_finishCall (hs : m.store.Ready P env.node) :
    Guarded C (finishCall frame env) m := by
  unfold finishCall
  split
  · exact .pure _
  · refine (Guarded.onStore ((guarded_readCopy hs.scope).within _)).bind
      fun result m₁ hon => ?_
    obtain ⟨s₁, hr, rfl⟩ := onStore_eq_ok.mp hon
    obtain ⟨h₁, hk⟩ := hs.scope.readCopy (Action.within_eq_ok.mp hr)
    refine Guarded.bind (Guarded.onStore (Guarded.onCopy ?_))
      fun _ _ _ => Triple.of_eq_ok rfl trivial
    have hdrop := Evolves.drop (i := env.node) h₁.scope env.depth
    refine Triple.bind_of_eq rfl ((guarded_writeFresh hdrop.scope).bind fun n s₃ hw => ?_)
    obtain ⟨h₂, hn⟩ := hdrop.scope.writeFresh hw
    refine (guarded_declaration (h₂.knows hk)).bind fun d s₄ hd => ?_
    obtain ⟨hd, rfl⟩ := declaration_eq_ok.mp hd
    have hres := (h₂.scope.sorted_expr (h₂.knows hk) hd).sorted.mono (Graph.scope_le_uses _ P)
    exact guarded_assertEqual (((hs.evolves h₁).evolves hdrop).evolves h₂) hn hres

theorem guarded_terminator {t : Terminator} (hs : m.store.Ready P env.node) :
    Guarded C (terminator options program frame env t) m := by
  cases t with
  | goto target => exact Triple.of_eq_ok rfl trivial
  | switch x values targets span =>
    rw [terminator]
    split
    · exact .error _
    · refine (Guarded.onStore (guarded_operand hs.scope)).bind fun discr m₁ _ => ?_
      exact Triple.of_eq_ok (mapM_goOn frame env _ m₁) trivial
  | assert x expected target span =>
    refine (Guarded.onStore (guarded_operand hs.scope)).bind fun cond m₁ hon => ?_
    obtain ⟨s₁, hc, rfl⟩ := onStore_eq_ok.mp hon
    obtain ⟨h₁, hsort, -⟩ := hs.scope.operand hc
    split
    · exact .error _
    · next hbool =>
      have hfact : (Expr.mkEq cond (.bool expected)).HasSort (s₁.graph.scope P) .bool :=
        Expr.HasSort.mkEq ⟨hsort, not_not.mp hbool⟩ (.bool expected)
      exact (Guarded.onStore (guarded_assertExpr (hs.evolves h₁) hfact.2)).bind
        fun _ _ _ => Triple.of_eq_ok rfl trivial
  | call callee args dest next span => exact guarded_call hs
  | «return» => exact guarded_finishCall hs
  | unreachable => exact .pure _
  | missing => exact .error _

/-- A block faults only at an assignment of a name to a place whose type is missing. -/
theorem guarded_block {b : Block} (hs : m.store.Ready P env.node) :
    Guarded (Misassigns env b.statements m.store) (block options program frame env b) m := by
  refine (Guarded.onStore (guarded_statements hs)).bind fun _ m₁ hon => ?_
  obtain ⟨s₁, hst, rfl⟩ := onStore_eq_ok.mp hon
  obtain ⟨es, he, -⟩ := hs.scope.statements hst
  exact guarded_terminator (hs.evolves he)

end Machine

/-- Statements that get to such an assignment fault there. -/
theorem Store.Misassigns.statements_eq {env : Env} {sts : List Statement} {s : Store}
    (h : Misassigns env sts s) : ∃ s', statements env sts s = (.error (.fault .missingData), s') := by
  obtain ⟨done, p, rv, span, rest, s₁, rfl, hdone, n, sort, s₂, hv, ht⟩ := h
  have hassign : statement env (.assign p rv span) s₁ = (.error (.fault .missingData), s₂) := by
    have hshared : sharesName { env with span } p (.name n sort) = .error .missingData :=
      sharesName_eq_error_iff.mpr ⟨rfl, ⟨n, sort, rfl⟩, ht⟩
    rw [statement, assign, Action.bind_apply, hv]
    simp only [Action.bind_apply, hshared]
    rfl
  induction done generalizing s with
  | nil =>
    cases hdone
    refine ⟨s₂, ?_⟩
    rw [List.nil_append, statements, Action.bind_apply, hassign]
  | cons st done ih =>
    obtain ⟨s₃, hst, hdone⟩ := statements_cons_eq_ok.mp hdone
    obtain ⟨s', hs'⟩ := ih hdone
    refine ⟨s', ?_⟩
    rw [List.cons_append, statements, Action.bind_apply, hst]
    exact hs'

theorem Machine.block_eq_of_misassigns {env : Env} {b : Block} {s : Store}
    (h : Misassigns env b.statements s) (options : Options) (program : Program)
    (frame : Frame) (stats : Stats) :
    ∃ m', block options program frame env b { store := s, stats } =
      (.error (.fault .missingData), m') := by
  obtain ⟨s', hs'⟩ := h.statements_eq
  refine ⟨{ store := s', stats }, ?_⟩
  rw [block, Action.bind_apply, onStore, Action.zoom, hs']

/-! ## Explorations -/

theorem Ty.eq_untyped_of_derefTimes {k : Nat} {t : Ty} (h : t.derefTimes k = .ok .untyped) :
    t = .untyped := by
  induction k generalizing t with
  | zero => exact Except.ok.inj h
  | succ k ih =>
    rw [derefTimes] at h
    split at h
    · next elem he =>
      obtain rfl := ih h
      unfold elem? at he
      split at he
      · cases he
      · next hne =>
        exact absurd (Option.some.inj he) hne
      · cases he
    · cases h

namespace Explorer

variable {e : Explorer} {s : Store} {C : Prop} {P : Name → Prop} {f : Function} {g g' : Graph}
  {frame : Frame} {root : Int}

theorem guarded_bindParameters {count i : Nat} (hs : s.Scoped P) :
    Guarded C (bindParameters f count i) s := by
  induction count generalizing s i with
  | zero => exact .pure _
  | succ count ih =>
    rw [bindParameters]
    split
    · exact .error _
    · next l _ =>
      refine ((Guarded.lift _).within _).bind fun sort s₁ hl => ?_
      obtain ⟨hsort, rfl⟩ := Action.lift_eq_ok.mp (Action.within_eq_ok.mp hl)
      refine Guarded.bind (Triple.of_eq_ok rfl trivial)
        fun n s₂ hn => ?_
      obtain ⟨rfl, rfl⟩ := declare_eq_ok.mp hn
      have hd := hs.declare (o := some ⟨f.name, i, parameterLabel l i⟩) (Ty.sort_cases hsort)
      refine (guarded_bind hd).bind fun _ s₃ hb => ?_
      exact ih (hd.bind hs.knows_nextName hb).scope

theorem guarded_enterFunction (hs : s.Scoped P) : Guarded C (enterFunction f) s := by
  unfold enterFunction
  split
  · exact .error _
  · split
    · exact .error _
    · split
      · refine ((guarded_writeFresh hs).within _).bind fun n s₁ hw => ?_
        exact guarded_bindParameters (hs.writeFresh (Action.within_eq_ok.mp hw)).1.scope
      · exact guarded_bindParameters hs

/-- The names in the memories of all waiting frames are declared. -/
theorem keeps_scoped (options : Options) (program : Program) :
    Keeps options program (fun _ => True) Graph.Tidy
      fun g f => Scoped (fun _ => True) ⟨g, f.memory⟩ where
  graph_of_decls g g' hd hg := fun k d hk => hg k d (by rw [← hd]; exact hk)
  frame_of_decls g g' f hd hf := hf.of_decls_eq hd
  of_unnumbered g f f' heq hf := by
    have hmem : f.unnumbered.memory = f'.unnumbered.memory := by rw [heq]
    change f.memory = f'.memory at hmem
    rwa [← hmem]
  block g i frame b stats result m _ htidy hf hopen hb hrun := by
    obtain ⟨es, hgrows⟩ := (Machine.follows_block.of_eq hrun).store
    have htidy' := hgrows.tidy htidy
    refine ⟨htidy', fun f hf' => scoped_of_length_le hf' htidy' hgrows.length_le, ?_⟩
    rintro next rfl f hmem
    obtain ⟨-, -, -, hnext⟩ := Machine.block_evolves hf hrun
    exact (hnext f hmem).memory

theorem starts_scoped (e : Explorer) :
    e.Starts Graph.Tidy fun g f => Scoped (fun _ => True) ⟨g, f.memory⟩ where
  entered s hs := by
    have hbare := enterFunction_bare bare_empty hs
    exact ⟨hbare.scope.tidy, hbare.scope⟩
  refused failure s hs := by
    have hdeclares := (onlyDeclares_enterFunction e.entry).of_eq hs
    exact hdeclares.tidy bare_empty.scope.tidy

theorem Linking.graph_eq {root' : Int} (h : e.Linking frame g root)
    (h' : e.Linking frame g' root') : g = g' := by
  cases h with
  | first hp =>
    cases h' with
    | first => rfl
    | edge hp' => exact absurd (hp.symm.trans hp') nofun
  | edge hp hadd =>
    cases h' with
    | first hp' => exact absurd (hp'.symm.trans hp) nofun
    | edge hp' hadd' =>
      obtain rfl := Option.mem_unique hp hp'
      exact Except.ok.inj (hadd.symm.trans hadd')

/-- The block of a frame gets as far as the assignment of a name to a place whose type is
missing. -/
def Misassigns (e : Explorer) (frame : Frame) : Prop :=
  ∃ b g root, frame.function.block? frame.block = some b ∧ e.Linking frame g root ∧
    Store.Misassigns
      { function := frame.function, depth := frame.depth, node := e.graph.nodes.length }
      b.statements ⟨g, frame.memory⟩

theorem exists_untyped_of_placeType {p : Place} (h : f.placeType p = .ok .untyped) :
    ∃ l ∈ f.locals, l.type = .untyped := by
  unfold Function.placeType at h
  split at h
  · cases h
  · next l hl =>
    split at h
    · next t ht =>
      cases h
      exact ⟨l, Function.localVar?_mem hl, Ty.eq_untyped_of_derefTimes ht⟩
    · cases h

/-- The block of a frame that misassigns belongs to a function with a local without a type. -/
theorem Misassigns.exists_untyped (h : e.Misassigns frame) :
    ∃ l ∈ frame.function.locals, l.type = .untyped := by
  obtain ⟨b, g, root, -, -, done, p, rv, span, rest, s₁, -, -, n, sort, s₂, -, ht⟩ := h
  exact exists_untyped_of_placeType ht

theorem Unused.mem_functions_of_pending (he : e.Unused) {n : Nat}
    (h : frame ∈ (e.after n).launched.searcher.pending) : frame.function ∈ e.functions := by
  have hsame := he.sameTask_launched n
  have hfunctions : (e.after n).launched.functions = e.functions := by
    rw [functions, functions, hsame.entry, hsame.program]
  rw [← hfunctions]
  cases n with
  | zero =>
    rw [he.launched_zero] at h ⊢
    exact (he.toFresh.bounded_entered.waiting frame h).function
  | succ n =>
    rw [he.launched_succ] at h ⊢
    exact ((he.bounded_after n).2.waiting frame h).function

/-- The outcome of a block that is executed on a store in scope is a fault if and only if the block
misassigns. -/
theorem reported_eq_fault_iff {frame' : Frame} {b : Block} {result : Except Failure (List Frame)}
    {m : Machine} {f? : Option Frame} {fault : Fault} (hx : e.Executes frame b g root result m)
    (hopen : g.IsOpen e.graph.nodes.length) (hs : Scoped (fun _ => True) ⟨g, frame.memory⟩) :
    reported frame' result = .failed f? (.fault fault) ↔
      f? = none ∧ fault = .missingData ∧ e.Misassigns frame := by
  constructor
  · intro h
    obtain ⟨rfl, rfl⟩ : result = .error (.fault fault) ∧ f? = none := by
      rcases result with (err | fault') | next
      · cases h
      · cases h
        exact ⟨rfl, rfl⟩
      · cases h
    have hor := (Machine.guarded_block ⟨hs, hopen⟩).failed _ _ hx.run
    have hbad := hor.resolve_left fun ⟨err, herr⟩ => nomatch herr
    obtain ⟨m', hm'⟩ := Machine.block_eq_of_misassigns hbad e.options e.program frame.visit
      { e.stats with nodes := e.stats.nodes + 1 }
    have hfault : fault = .missingData := by
      cases hx.run.symm.trans hm'
      rfl
    exact ⟨rfl, hfault, b, g, root, hx.block, hx.link, hbad⟩
  · rintro ⟨rfl, rfl, b', g', root', hb', hl', hbad⟩
    obtain rfl := Option.mem_unique hx.block hb'
    obtain rfl := hx.link.graph_eq hl'
    obtain ⟨m', hm'⟩ := Machine.block_eq_of_misassigns hbad e.options e.program frame.visit
      { e.stats with nodes := e.stats.nodes + 1 }
    cases hx.run.symm.trans hm'
    rfl

/-- A step faults if and only if its block misassigns. -/
theorem Unused.step_eq_fault_iff (he : e.Unused) (n : Nat) (f? : Option Frame) (fault : Fault) :
    (e.after n).step.1 = .failed f? (.fault fault) ↔ f? = none ∧ fault = .missingData ∧
      ∃ frame, (e.after n).chosen? = some frame ∧ (e.after n).launched.Misassigns frame := by
  rcases he.step_ends n with ⟨rfl, failure, s, hs, hchosen, hstep⟩ | hends
  · have herr := (guarded_enterFunction (C := False) bare_empty.scope).failed _ _ hs
    obtain ⟨err, rfl⟩ := herr.resolve_right id
    rw [hstep, hchosen]
    exact iff_of_false nofun fun ⟨_, _, frame, h, _⟩ => nomatch h
  · have hheld := (keeps_scoped e.options e.program).launched he (starts_scoped e) n
      fun _ _ => trivial
    generalize (e.after n).chosen? = chosen, (e.after n).step.1 = outcome at hends
    cases hends with
    | finished | outside => exact iff_of_false nofun fun ⟨_, _, frame, h, _⟩ => nomatch h
    | @executed frame b g root result m hmem hx hopen =>
      have hs := (hheld.waiting frame hmem).of_decls_eq hx.link.decls
      rw [reported_eq_fault_iff hx hopen hs]
      simp only [Option.some.injEq, exists_eq_left']

/-- There is no fault if all locals have types. -/
theorem Unused.step_ne_fault (he : e.Unused) (n : Nat)
    (htyped : ∀ f ∈ e.functions, ∀ l ∈ f.locals, l.type ≠ .untyped) (f? : Option Frame)
    (fault : Fault) : (e.after n).step.1 ≠ .failed f? (.fault fault) := by
  intro hfault
  obtain ⟨-, -, frame, hchosen, hbad⟩ := (he.step_eq_fault_iff n f? fault).mp hfault
  obtain ⟨l, hl, huntyped⟩ := hbad.exists_untyped
  refine htyped _ (he.mem_functions_of_pending (n := n) ?_) l hl huntyped
  rcases he.step_ends n with ⟨-, -, -, -, hnone, -⟩ | hends
  · exact absurd (hnone.symm.trans hchosen) nofun
  · rw [hchosen] at hends
    exact hends.mem

/-- A step faults if and only if its block gets as far as the assignment of a name to a place whose
type is missing.  So there is no fault if all locals have types. -/
theorem step_faults_iff (he : e.Unused) (n : Nat) :
    (∀ f? fault, (e.after n).step.1 = .failed f? (.fault fault) ↔
      f? = none ∧ fault = .missingData ∧
        ∃ frame, (e.after n).chosen? = some frame ∧ (e.after n).launched.Misassigns frame) ∧
    ((∀ f ∈ e.functions, ∀ l ∈ f.locals, l.type ≠ .untyped) →
      ∀ f? fault, (e.after n).step.1 ≠ .failed f? (.fault fault)) :=
  ⟨he.step_eq_fault_iff n, he.step_ne_fault n⟩

/-! ## A copy into a local without a type -/

/-- Copies a parameter into a local whose type is missing. -/
def untypedCopy : Explorer where
  entry := {
    name := "untyped"
    locals := [⟨"", .integer⟩, ⟨"x", .integer⟩, ⟨"", .untyped⟩]
    argCount := 1
    blocks := [⟨[.assign ⟨2, 0⟩ (.use (.copy ⟨1, 0⟩)) {}], .return⟩] }

/-- The first step faults instead of failing with an error. -/
theorem untypedCopy_faults :
    untypedCopy.Unused ∧ (untypedCopy.after 0).step.1 = .failed none (.fault .missingData) :=
  ⟨.new .., by rfl⟩

/-- The first step gets to an assignment of a name to a place whose type is missing. -/
theorem untypedCopy_misassigns : untypedCopy.Unused ∧
    ∃ frame, (untypedCopy.after 0).chosen? = some frame ∧
      (untypedCopy.after 0).launched.Misassigns frame := by
  have hstep : (untypedCopy.after 0).step.1 = .failed none (.fault .missingData) := by rfl
  have hunused : untypedCopy.Unused := .new ..
  exact ⟨hunused, (((step_faults_iff hunused 0).1 none .missingData).mp hstep).2.2⟩

end Explorer
end NullPath
