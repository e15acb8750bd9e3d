import Mathlib.Data.List.Perm.Basic
import Mathlib.Data.List.ReduceOption
import NullPath.Explore.Searcher

/-!
# Waiting items are neither lost nor duplicated

The pools of a searcher take turns, but an item that is added waits until it is chosen, whatever
the strategies of the pools are.  Up to order, adding puts one item to those that wait, and
choosing takes one of them away.  A searcher has nothing to choose only if nothing waits.

* `Searcher.pending_of_select_some`, `Searcher.pending_of_select_none`: choosing an item.
* `Searcher.turning_of_ofName`: the searchers that have names.
* `Searcher.returned_append_pending`: over any calls, the items that were given out and those that
  wait are the items that were added.
-/

namespace NullPath

variable {φ : Type} {seed : Int} {ss : List Strategy} {name : String} {x : φ} {p p' : Pool φ}

namespace Pool

theorem choice_lt (h : p.items ≠ []) : p.choice < p.items.length := by
  have hpos := List.length_pos_iff.mpr h
  unfold choice
  split
  · omega
  · exact hpos
  · exact Nat.mod_lt _ hpos

/-- A pool without a choice is empty. -/
theorem items_of_select_none (h : p.select = none) : p.items = [] := by
  by_contra hne
  unfold select at h
  rw [List.getElem?_eq_getElem (choice_lt hne)] at h
  cases h

/-- The chosen item was in the pool, and the others stay. -/
theorem items_of_select_some (h : p.select = some (x, p')) : p.items.Perm (x :: p'.items) := by
  unfold select at h
  split at h
  · next y hy =>
    cases h
    obtain ⟨hlt, rfl⟩ := List.getElem?_eq_some_iff.mp hy
    exact (List.getElem_cons_eraseIdx_perm hlt).symm
  · cases h

end Pool

namespace Searcher

variable {tries turn : Nat} {s s' : Searcher φ}

/-- The searcher has pools, and both turns point at one of them. -/
structure Turning (s : Searcher φ) : Prop where
  add : s.addTurn < s.pools.length
  select : s.selectTurn < s.pools.length

theorem nextTurn_eq (h : turn < s.pools.length) :
    s.nextTurn turn = (turn + 1) % s.pools.length := by
  unfold nextTurn
  split
  · next hle =>
    have : turn + 1 = s.pools.length := by omega
    rw [this, Nat.mod_self]
  · next hlt => rw [Nat.mod_eq_of_lt (by omega)]

theorem nextTurn_lt (h : turn < s.pools.length) : s.nextTurn turn < s.pools.length := by
  rw [nextTurn_eq h]
  exact Nat.mod_lt _ (by omega)

theorem Turning.added (h : s.Turning) (x : φ) : (s.add x).Turning := by
  constructor
  · simpa [Searcher.add] using nextTurn_lt h.add
  · simpa [Searcher.add] using h.select

theorem Turning.turned (h : s.Turning) :
    ({ s with selectTurn := s.nextTurn s.selectTurn } : Searcher φ).Turning :=
  ⟨h.add, nextTurn_lt h.select⟩

/-- Up to order, adding an item puts it to those that wait. -/
theorem pending_add (h : s.Turning) (x : φ) : (s.add x).pending.Perm (x :: s.pending) := by
  obtain ⟨l₁, p, l₂, hpools, -, hmod⟩ := List.exists_of_modify (fun p => p.add x) h.add
  rw [pending, pending, Searcher.add, hmod, hpools]
  simp only [List.flatMap_append, List.flatMap_cons, Pool.add]
  refine List.Perm.trans ?_ List.perm_middle
  refine List.Perm.append_left _ ?_
  rw [List.append_assoc]
  exact List.perm_middle

/-- Up to order, a chosen item is one of those that waited, and the others go on waiting. -/
theorem pending_of_selectWithin_some (hs : s.Turning)
    (h : selectWithin tries s = (some x, s')) : s'.Turning ∧ s.pending.Perm (x :: s'.pending) := by
  induction tries generalizing s with
  | zero => cases h
  | succ tries ih =>
    have hlt := hs.select
    rw [selectWithin, List.getElem?_eq_getElem hs.select, Option.bind_some] at h
    cases hp : s.pools[s.selectTurn].select with
    | none =>
      rw [hp] at h
      exact (ih hs.turned h :)
    | some xp =>
      obtain ⟨y, p⟩ := xp
      rw [hp] at h
      obtain ⟨hx, rfl⟩ := Prod.mk.inj h
      cases hx
      refine ⟨⟨by simpa using hs.add, by simpa using nextTurn_lt hs.select⟩, ?_⟩
      obtain ⟨l₁, l₂, hpools, -, hset⟩ := @List.exists_of_set _ _ p _ hs.select
      have hitems := Pool.items_of_select_some hp
      simp only [pending, hset]
      generalize s.pools[s.selectTurn] = q at hpools hitems
      rw [hpools]
      simp only [List.flatMap_append, List.flatMap_cons]
      refine List.Perm.trans ?_ List.perm_middle
      exact List.Perm.append_left _ (hitems.append_right _)

/-- A choice that finds nothing has asked that many pools in turn, and they were empty. -/
theorem items_of_selectWithin_none (hs : s.Turning)
    (h : selectWithin tries s = (none, s')) {j : Nat} (hj : j < tries)
    (hp : s.pools[(s.selectTurn + j) % s.pools.length]? = some p) : p.items = [] := by
  induction tries generalizing s j with
  | zero => omega
  | succ tries ih =>
    have hlt := hs.select
    rw [selectWithin, List.getElem?_eq_getElem hs.select, Option.bind_some] at h
    cases hsel : s.pools[s.selectTurn].select with
    | some xp =>
      rw [hsel] at h
      cases h
    | none =>
      rw [hsel] at h
      cases j with
      | zero =>
        rw [Nat.add_zero, Nat.mod_eq_of_lt hs.select, List.getElem?_eq_getElem hs.select] at hp
        cases hp
        exact Pool.items_of_select_none hsel
      | succ j =>
        refine ih hs.turned h (j := j) (by omega) ?_
        rw [← hp]
        rw [nextTurn_eq hs.select, Nat.mod_add_mod]
        rw [Nat.add_right_comm, Nat.add_assoc s.selectTurn j 1]

/-- A choice that finds nothing changes only whose turn it is. -/
theorem pools_of_selectWithin_none (hs : s.Turning)
    (h : selectWithin tries s = (none, s')) : s'.pools = s.pools ∧ s'.Turning := by
  induction tries generalizing s with
  | zero =>
    cases h
    exact ⟨rfl, hs⟩
  | succ tries ih =>
    rw [selectWithin] at h
    split at h
    · cases h
    · exact (ih hs.turned h :)

theorem pending_of_select_some (hs : s.Turning)
    (h : s.select = (some x, s')) : s'.Turning ∧ s.pending.Perm (x :: s'.pending) :=
  pending_of_selectWithin_some hs h

/-- If there is nothing to choose, nothing waits. -/
theorem pending_of_select_none (hs : s.Turning)
    (h : s.select = (none, s')) : s.pending = [] ∧ s'.pending = [] ∧ s'.Turning := by
  obtain ⟨hpools, hturn⟩ := pools_of_selectWithin_none hs h
  suffices hnil : s.pending = [] from ⟨hnil, by rw [pending, hpools]; exact hnil, hturn⟩
  rw [pending, List.flatMap_eq_nil_iff]
  intro p hp
  obtain ⟨i, hi, rfl⟩ := List.mem_iff_getElem.mp hp
  -- the pool is asked after as many turns as it is ahead
  refine items_of_selectWithin_none hs h (j := (i + s.pools.length - s.selectTurn) % s.pools.length)
    (Nat.mod_lt _ (by omega)) ?_
  have hmod : (s.selectTurn + (i + s.pools.length - s.selectTurn) % s.pools.length) %
      s.pools.length = i := by
    rw [Nat.add_mod_mod, show s.selectTurn + (i + s.pools.length - s.selectTurn) =
      i + s.pools.length by have := hs.select; omega, Nat.add_mod_right, Nat.mod_eq_of_lt hi]
  rw [hmod, List.getElem?_eq_getElem hi]

end Searcher

/-! ## Named searchers -/

theorem splitOn_ne_nil (s sep : String) : s.splitOn sep ≠ [] := by
  have haux : ∀ b i j r, s.splitOnAux sep b i j r ≠ [] := by
    intro b i j r
    fun_induction String.splitOnAux s sep b i j r <;> simp_all
  unfold String.splitOn
  split
  · exact List.cons_ne_nil s []
  · exact haux 0 0 0 []

/-- Every part of a joined name is a strategy. -/
theorem Strategy.length_of_ofParts {whole : String} {parts : List String}
    (h : ofParts seed whole parts = .ok ss) : ss.length = parts.length := by
  induction parts generalizing ss with
  | nil =>
    cases h
    rfl
  | cons part parts ih =>
    unfold ofParts at h
    split at h
    · next hparts => cases hparts
    · cases h
    · next part' parts' _ hparts =>
      cases hparts
      split at h
      · cases h
      · split at h
        · next ss' hss =>
          cases h
          rw [List.length_cons, List.length_cons, ih hss]
        · cases h

theorem Strategy.ne_nil_of_all (h : all seed name = .ok ss) : ss ≠ [] := by
  unfold all at h
  split at h
  · rw [← List.length_pos_iff, length_of_ofParts h, List.length_pos_iff]
    exact splitOn_ne_nil name "+"
  · split at h
    · cases h
      exact List.cons_ne_nil _ _
    · cases h

/-- A searcher that was made from a name has pools, which take turns, and nothing waits in them. -/
theorem Searcher.turning_of_ofName {s : Searcher φ} (h : ofName name seed = .ok s) :
    s.Turning ∧ s.pending = [] := by
  unfold ofName at h
  split at h
  · next ss hss =>
    cases h
    have hpos : 0 < (ss.map fun strategy => ({ strategy } : Pool φ)).length := by
      rw [List.length_map, List.length_pos_iff]
      exact Strategy.ne_nil_of_all hss
    exact ⟨⟨hpos, hpos⟩, by simp [pending]⟩
  · cases h

/-! ## Sequences of calls -/

/-- The strategy with other draws, if it makes a random choice. -/
def Strategy.redrawn (draws : Nat → Nat) : Strategy → Strategy
  | .random _ => .random draws
  | strategy => strategy

namespace Searcher

variable {s : Searcher φ}

/-- The searcher in which the random choices of each pool follow draws of its own. -/
def redrawn (draws : Nat → Nat → Nat) (s : Searcher φ) : Searcher φ :=
  { s with pools := s.pools.mapIdx fun i p => { p with strategy := p.strategy.redrawn (draws i) } }

theorem Turning.redrawn (h : s.Turning) (draws : Nat → Nat → Nat) : (s.redrawn draws).Turning := by
  constructor
  · simpa [Searcher.redrawn] using h.add
  · simpa [Searcher.redrawn] using h.select

@[simp] theorem pending_redrawn (draws : Nat → Nat → Nat) :
    (s.redrawn draws).pending = s.pending := by
  have hitems : (s.redrawn draws).pools.map Pool.items = s.pools.map Pool.items :=
    List.ext_getElem (by simp [redrawn]) fun i _ _ => by simp [redrawn]
  rw [pending, List.flatMap, hitems, pending, List.flatMap]

/-- The answers of a searcher to calls, and the searcher after them.  A call adds an item, or it
asks for one. -/
def answers (s : Searcher φ) : List (Option φ) → List (Option φ) × Searcher φ
  | [] => ([], s)
  | some x :: calls => (s.add x).answers calls
  | none :: calls => ((s.select.1 :: (s.select.2.answers calls).1), (s.select.2.answers calls).2)

theorem Turning.selected (h : s.Turning) : s.select.2.Turning := by
  cases hx : s.select.1 with
  | none => exact (pending_of_select_none h (Prod.ext hx rfl)).2.2
  | some x => exact (pending_of_select_some h (Prod.ext hx rfl)).1

/-- Up to order, the items that waited are the one that is given, if any, and those that wait. -/
theorem pending_select (h : s.Turning) :
    s.pending.Perm (s.select.1.toList ++ s.select.2.pending) := by
  cases hx : s.select.1 with
  | none =>
    obtain ⟨hnil, hnil', -⟩ := pending_of_select_none h (Prod.ext hx rfl)
    rw [hnil, hnil', Option.toList_none, List.nil_append]
  | some x => exact (pending_of_select_some h (Prod.ext hx rfl)).2

/-- A searcher gives no item just when none waits. -/
theorem select_eq_none_iff (h : s.Turning) : s.select.1 = none ↔ s.pending = [] := by
  constructor
  · exact fun hx => (pending_of_select_none h (Prod.ext hx rfl)).1
  · intro hnil
    have hperm := pending_select h
    rw [hnil, List.nil_perm, List.append_eq_nil_iff] at hperm
    exact Option.toList_eq_nil_iff.mp hperm.1

theorem Turning.answers (h : s.Turning) (calls : List (Option φ)) : (s.answers calls).2.Turning := by
  induction calls generalizing s with
  | nil => exact h
  | cons call calls ih =>
    cases call with
    | some x => exact ih (h.added x)
    | none => exact ih h.selected

/-- Up to order, the items that calls gave out and those that wait after them are the items that
waited before and those that the calls added. -/
theorem pending_answers (h : s.Turning) (calls : List (Option φ)) :
    ((s.answers calls).1.reduceOption ++ (s.answers calls).2.pending).Perm
      (calls.reduceOption ++ s.pending) := by
  induction calls generalizing s with
  | nil => exact List.Perm.refl _
  | cons call calls ih =>
    cases call with
    | some x =>
      have hadd := ((pending_add h x).append_left calls.reduceOption).trans List.perm_middle
      simpa [answers] using (ih (h.added x)).trans hadd
    | none =>
      -- the item that is given stands first in the answers
      have hgiven : (s.answers (none :: calls)).1.reduceOption =
          s.select.1.toList ++ (s.select.2.answers calls).1.reduceOption := by
        cases hx : s.select.1 <;> simp [answers, hx]
      rw [hgiven, List.append_assoc, List.reduceOption_cons_of_none]
      refine ((ih h.selected).append_left _).trans (List.perm_append_comm_assoc _ _ _ |>.trans ?_)
      exact (pending_select h).symm.append_left _

/-- Whatever a searcher that has a name is called for, and whatever its random choices are, the
items that it gave out and those that wait are those that were added, it gives none just when none
waits, and the turns and the choices stay in range. -/
theorem returned_append_pending (h : ofName name seed = .ok s) (draws : Nat → Nat → Nat)
    (calls : List (Option φ)) :
    let answered := (s.redrawn draws).answers calls
    (answered.1.reduceOption ++ answered.2.pending).Perm calls.reduceOption ∧
      (answered.2.select.1 = none ↔ answered.2.pending = []) ∧
      answered.2.Turning ∧
      ∀ p ∈ answered.2.pools, p.items ≠ [] → p.choice < p.items.length := by
  obtain ⟨hturn, hnil⟩ := turning_of_ofName h
  have hredrawn := hturn.redrawn draws
  have hturning := hredrawn.answers calls
  refine ⟨?_, select_eq_none_iff hturning, hturning, fun p _ => Pool.choice_lt⟩
  have hperm := pending_answers hredrawn calls
  rwa [pending_redrawn, hnil, List.append_nil] at hperm

theorem splitOn_combined : "dfs+random".splitOn "+" = ["dfs", "random"] := by
  rw [String.splitOn, if_neg (by decide)]
  iterate 3 rw [String.splitOnAux, if_neg (by decide), if_neg (by decide)]
  rw [String.splitOnAux, if_neg (by decide), if_pos (by decide)]
  rw [if_pos (by decide)]
  iterate 6 rw [String.splitOnAux, if_neg (by decide), if_neg (by decide)]
  rw [String.splitOnAux, if_pos (by decide)]
  decide

/-- Of two pools, one that takes the latest item and one that draws its second item, three items
are asked for while five are added. -/
theorem returned_append_pending_combined :
    ∃ s : Searcher Nat, ofName "dfs+random" 0 = .ok s ∧
      let answered := (s.redrawn fun _ _ => 1).answers
        [some 1, some 2, some 3, none, some 4, none, none, some 5]
      answered.1 = [some 3, some 4, some 1] ∧
        (answered.1.reduceOption ++ answered.2.pending).Perm [1, 2, 3, 4, 5] := by
  have hall : Strategy.all 0 "dfs+random" = .ok [.depthFirst, .random (Strategy.draws 0)] := by
    rw [Strategy.all, if_pos (by decide), splitOn_combined]
    rfl
  have hname : ofName "dfs+random" 0 = .ok ({ pools :=
      [{ strategy := .depthFirst }, { strategy := .random (Strategy.draws 0) }] } :
      Searcher Nat) := by
    rw [ofName, hall]
    rfl
  exact ⟨_, hname, by decide, (returned_append_pending hname (fun _ _ => 1) _).1⟩

end Searcher

end NullPath
