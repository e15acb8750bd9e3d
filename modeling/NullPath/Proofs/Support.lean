import NullPath.Expr.Eval
import NullPath.Expr.Names

/-!
# The names that a value depends on

The names of a term are collected by a walk over its subterms, and the value of a term is computed by
a recursion that may leave a branch out.  The walk finds all that the recursion can ask for: models
that agree on the names of a term give it one value, or let it fail in one way, and where all these
names have values, no name is missing.

* `Expr.eval_congr`, `Expr.eval_ne_unboundName`: the value of a term.
* `Expr.names_support`: the names of terms are what their values depend on.
-/

namespace NullPath
namespace Expr

variable {m m' : Model} {e : Expr} {n k : Name} {ns : List Name} {es : List Expr}

/-! ## Names in terms -/

@[simp] theorem occurrences_const (c : Constant) : (const c).occurrences = [] := rfl

@[simp] theorem occurrences_name (n : Name) (s : ExprSort) : (name n s).occurrences = [n] := rfl

@[simp] theorem occurrences_not (e : Expr) : (not e).occurrences = e.occurrences := rfl

@[simp] theorem occurrences_neg (e : Expr) : (neg e).occurrences = e.occurrences := rfl

@[simp] theorem occurrences_ite (c t e : Expr) :
    (ite c t e).occurrences = c.occurrences ++ t.occurrences ++ e.occurrences := by
  simp [occurrences, walk, List.filterMap_cons, name?]

@[simp] theorem occurrences_binary (op : BinOp) (l r : Expr) :
    (binary op l r).occurrences = l.occurrences ++ r.occurrences := by
  simp [occurrences, walk, List.filterMap_cons, name?]

/-- The name stands somewhere in the term. -/
def Occurs (n : Name) : Expr → Prop
  | .const _ => False
  | .name k _ => n = k
  | .not e | .neg e => e.Occurs n
  | .ite c t e => c.Occurs n ∨ t.Occurs n ∨ e.Occurs n
  | .binary _ l r => l.Occurs n ∨ r.Occurs n

/-- The walk meets exactly the names that stand in the term. -/
theorem mem_occurrences : n ∈ e.occurrences ↔ e.Occurs n := by
  induction e with
  | const c | name k s => simp [Occurs]
  | not e ih | neg e ih => exact ih
  | ite c t e ihc iht ihe => simp [Occurs, ihc, iht, ihe]
  | binary op l r ihl ihr => simp [Occurs, ihl, ihr]

theorem mem_insertName : n ∈ insertName k ns ↔ n = k ∨ n ∈ ns := by
  induction ns with
  | nil => simp [insertName]
  | cons i ns ih =>
    rw [insertName]
    split
    · exact List.mem_cons
    · split
      · next heq =>
        have hik : k = i := Name.ext heq
        simp [hik]
      · rw [List.mem_cons, ih, List.mem_cons, or_left_comm]

/-- An increasing list stays increasing. -/
theorem pairwise_insertName (h : ns.Pairwise (·.index < ·.index)) :
    (insertName k ns).Pairwise (·.index < ·.index) := by
  induction ns with
  | nil => simp [insertName]
  | cons i ns ih =>
    obtain ⟨hi, hns⟩ := List.pairwise_cons.mp h
    rw [insertName]
    split
    · next hlt =>
      refine List.pairwise_cons.mpr ⟨fun j hj => ?_, h⟩
      rcases List.mem_cons.mp hj with rfl | hj
      · exact hlt
      · exact Nat.lt_trans hlt (hi j hj)
    · split
      · exact h
      · next hle hne =>
        refine List.pairwise_cons.mpr ⟨fun j hj => ?_, ih hns⟩
        rcases mem_insertName.mp hj with rfl | hj
        · omega
        · exact hi j hj

/-- The names of a list of terms are those that occur in one of them. -/
theorem mem_names : n ∈ names es ↔ ∃ e ∈ es, n ∈ e.occurrences := by
  have hfold : ∀ ks found : List Name,
      n ∈ ks.foldl (fun found k => insertName k found) found ↔ n ∈ ks ∨ n ∈ found := by
    intro ks
    induction ks with
    | nil => simp
    | cons k ks ih =>
      intro found
      rw [List.foldl_cons, ih, mem_insertName, List.mem_cons, or_left_comm, or_assoc]
  rw [names, hfold, List.mem_flatMap]
  simp

theorem pairwise_names (es : List Expr) : (names es).Pairwise (·.index < ·.index) :=
  List.foldlRecOn _ _ .nil fun _ h _ _ => pairwise_insertName h

/-! ## Values -/

/-- Models that agree on the names of a term give it one value, or let it fail in one way. -/
theorem eval_congr (h : ∀ n ∈ e.occurrences, m.get? n = m'.get? n) : e.eval m = e.eval m' := by
  induction e with
  | const c => rfl
  | name k s => rw [eval, eval, h k (by simp)]
  | not e ih | neg e ih => rw [eval, eval, ih h]
  | ite c t e ihc iht ihe =>
    rw [eval, eval, ihc fun n hn => h n (by simp [hn]), iht fun n hn => h n (by simp [hn]),
      ihe fun n hn => h n (by simp [hn])]
  | binary op l r ihl ihr =>
    rw [eval, eval, ihl fun n hn => h n (by simp [hn]), ihr fun n hn => h n (by simp [hn])]

end Expr

/-- No operator asks for a name. -/
theorem BinOp.apply_ne_unboundName (op : BinOp) (a b : Constant) (n : Name) :
    op.apply a b ≠ .error (.unboundName n) := by
  cases op with
  | div | mod => rw [apply]; split <;> simp
  | _ => simp [apply]

namespace Expr

/-- A term whose names all have values does not fail for want of one. -/
theorem eval_ne_unboundName {m : Model} {e : Expr} (h : ∀ n ∈ e.occurrences, ∃ c, m.get? n = some c)
    (n : Name) : e.eval m ≠ .error (.unboundName n) := by
  induction e with
  | const c => simp [eval]
  | name k s =>
    obtain ⟨c, hc⟩ := h k (by simp)
    simp [eval, hc]
  | not e ih | neg e ih =>
    rw [eval]
    split
    · simp
    · next err herr => exact fun heq => ih h (herr.trans heq)
  | ite c t e ihc iht ihe =>
    rw [eval]
    split
    · split
      · exact iht fun n hn => h n (by simp [hn])
      · exact ihe fun n hn => h n (by simp [hn])
    · next err herr => exact fun heq => ihc (fun n hn => h n (by simp [hn])) (herr.trans heq)
  | binary op l r ihl ihr =>
    rw [eval]
    split
    · split
      · exact op.apply_ne_unboundName _ _ n
      · next err herr => exact fun heq => ihr (fun n hn => h n (by simp [hn])) (herr.trans heq)
    · next err herr => exact fun heq => ihl (fun n hn => h n (by simp [hn])) (herr.trans heq)

/-- The names of terms are listed in increasing order, each once, and are exactly those that stand in
one of the terms.  Models that agree on the names of a term let it end in one way, with a value or an
error, and in a model that gives all of them values no name is missing. -/
theorem names_support (es : List Expr) :
    (names es).Pairwise (·.index < ·.index) ∧ (∀ n, n ∈ names es ↔ ∃ e ∈ es, e.Occurs n) ∧
      ∀ e (m : Model),
        (∀ m', (∀ n ∈ names [e], m.get? n = m'.get? n) → e.eval m = e.eval m') ∧
        ((∀ n ∈ names [e], ∃ c, m.get? n = some c) → ∀ n, e.eval m ≠ .error (.unboundName n)) := by
  have hsingle : ∀ {e : Expr} {n}, n ∈ e.occurrences → n ∈ names [e] :=
    fun hn => mem_names.mpr ⟨_, by simp, hn⟩
  refine ⟨pairwise_names es, fun n => ?_, fun e m => ⟨fun m' h => ?_, fun h => ?_⟩⟩
  · simp only [mem_names, mem_occurrences]
  · exact eval_congr fun n hn => h n (hsingle hn)
  · exact eval_ne_unboundName fun n hn => h n (hsingle hn)

end Expr
end NullPath
