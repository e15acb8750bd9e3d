import NullPath.Expr.Order
import NullPath.Expr.Eval

/-!
# The order of terms is total

A term is coded as a list of integers: the rank of its outermost node, what this node records, and
then the codes of its parts from left to right.  No code goes on with another one, so comparing two
terms part by part is comparing their codes at the first place where these differ.  The codes of
two terms are equal exactly if the terms differ in nothing but the sorts that their names record.

* `Expr.code`, `Expr.compare_eq_compareLex`: the order of terms is that of their codes.
* `Expr.compareOption_total`: the laws of a total order.
-/

namespace NullPath
namespace Expr

/-- The code of a term: the rank of its node, the numbers in it, and the codes of its parts. -/
def code : Expr → List Int
  | .const c => [1, c.sort.code, c.value]
  | .name n _ => [2, n.index]
  | .not e => 3 :: code e
  | .neg e => 4 :: code e
  | .ite c t e => 5 :: (code c ++ (code t ++ code e))
  | .binary op l r => 6 :: op.code :: (code l ++ code r)

theorem compare_cast (i j : Nat) : Ord.compare (i : Int) (j : Int) = Ord.compare i j := by
  simp only [Ord.compare, compareOfLessAndEq, Int.ofNat_lt, Int.natCast_inj]

/-- Texts that begin with the codes of two terms compare as the terms do, and after equal terms as
the texts that follow. -/
theorem compareLex_code_append (a b : Expr) (x y : List Int) :
    List.compareLex Ord.compare (a.code ++ x) (b.code ++ y) =
      (compare a b).then (List.compareLex Ord.compare x y) := by
  induction a generalizing b x y with
  | const c =>
    cases b with
    | const d => simp [code, compare, List.compareLex_cons_cons, Ordering.then_assoc]
    | _ => rfl
  | name n s =>
    cases b with
    | name k t => simp [code, compare, List.compareLex_cons_cons, compare_cast]
    | _ => rfl
  | not e ih =>
    cases b with
    | not f => simp [code, compare, List.compareLex_cons_cons, ih]
    | _ => rfl
  | neg e ih =>
    cases b with
    | neg f => simp [code, compare, List.compareLex_cons_cons, ih]
    | _ => rfl
  | ite c t e ihc iht ihe =>
    cases b with
    | ite c' t' e' =>
      simp [code, compare, List.compareLex_cons_cons, ihc, iht, ihe, Ordering.then_assoc]
    | _ => rfl
  | binary op l r ihl ihr =>
    cases b with
    | binary op' l' r' =>
      simp [code, compare, List.compareLex_cons_cons, ihl, ihr, Ordering.then_assoc]
    | _ => rfl

/-- Terms compare as their codes do. -/
theorem compare_eq_compareLex (a b : Expr) :
    compare a b = List.compareLex Ord.compare a.code b.code := by
  have h := compareLex_code_append a b [] []
  rwa [List.append_nil, List.append_nil, List.compareLex_nil_nil, Ordering.then_eq, eq_comm] at h

/-- The term without the sorts that its names record. -/
def unsorted : Expr → Expr
  | .const c => .const c
  | .name n _ => .name n .int
  | .not e => .not (unsorted e)
  | .neg e => .neg (unsorted e)
  | .ite c t e => .ite (unsorted c) (unsorted t) (unsorted e)
  | .binary op l r => .binary op (unsorted l) (unsorted r)

/-- Terms compare as equal exactly if they are equal up to the sorts of names. -/
theorem compare_eq_eq_iff {a b : Expr} : compare a b = .eq ↔ a.unsorted = b.unsorted := by
  induction a generalizing b with
  | const c =>
    cases b with
    | const d =>
      obtain ⟨v, s⟩ := c
      obtain ⟨w, t⟩ := d
      have hsort : s.code = t.code ↔ s = t := ⟨ExprSort.code_inj, congrArg _⟩
      simp [compare, unsorted, hsort, and_comm]
    | _ => simp [compare, unsorted, rank]
  | name n s =>
    cases b with
    | name k t =>
      obtain ⟨i⟩ := n
      obtain ⟨j⟩ := k
      simp [compare, unsorted]
    | _ => simp [compare, unsorted, rank]
  | not e ih | neg e ih =>
    cases b <;> simp [compare, unsorted, rank, ih]
  | ite c t e ihc iht ihe =>
    cases b <;> simp [compare, unsorted, rank, ihc, iht, ihe, and_assoc]
  | binary op l r ihl ihr =>
    have hop : ∀ op', op.code = op'.code ↔ op = op' :=
      fun _ => ⟨BinOp.code_inj, congrArg _⟩
    cases b <;> simp [compare, unsorted, rank, ihl, ihr, hop, and_assoc]

/-- The sorts that names record do not matter for the value. -/
theorem eval_unsorted (m : Model) (e : Expr) : e.unsorted.eval m = e.eval m := by
  induction e with
  | const c | name n s => rfl
  | not e ih | neg e ih => rw [unsorted, eval, eval, ih]
  | ite c t e ihc iht ihe => rw [unsorted, eval, eval, ihc, iht, ihe]
  | binary op l r ihl ihr => rw [unsorted, eval, eval, ihl, ihr]

/-- Terms that compare as equal have one value in every model. -/
theorem eval_eq_of_compare {m : Model} {a b : Expr} (h : compare a b = .eq) :
    a.eval m = b.eval m := by
  rw [← eval_unsorted, compare_eq_eq_iff.1 h, eval_unsorted]

/-- The code of a term that may be absent, which is then empty. -/
def optionCode (a : Option Expr) : List Int :=
  a.elim [] code

theorem compareOption_eq_compareLex (a b : Option Expr) :
    compareOption a b = List.compareLex Ord.compare (optionCode a) (optionCode b) := by
  cases a with
  | none => cases b with
    | none => rfl
    | some b => cases b <;> rfl
  | some a => cases b with
    | none => cases a <;> rfl
    | some b => exact compare_eq_compareLex a b

/-- The order is total: turning a comparison around turns its result around, what is at most as large
as something smaller is smaller, and two terms compare as equal exactly if they are equal up to the
sorts that their names record.  An absent term is equal only to itself. -/
theorem compareOption_total (a b c : Option Expr) :
    compareOption a b = (compareOption b a).swap ∧
      ((compareOption a b).isLE → (compareOption b c).isLE → (compareOption a c).isLE) ∧
      (compareOption a b = .eq ↔ a.map unsorted = b.map unsorted) := by
  refine ⟨?_, ?_, ?_⟩
  · rw [compareOption_eq_compareLex, compareOption_eq_compareLex]
    exact Std.OrientedCmp.eq_swap
  · simp only [compareOption_eq_compareLex]
    exact Std.TransCmp.isLE_trans
  · cases a <;> cases b <;> simp [compareOption, compare_eq_eq_iff]

end Expr
end NullPath
