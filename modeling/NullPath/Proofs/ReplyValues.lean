import NullPath.Proofs.Labels
import NullPath.Proofs.ReadBack
import NullPath.Solver.Dialogue
import Mathlib.Data.List.Nodup

/-!
# Models read from trees

A model is given as a list of pairs of a label and a value.  Labels and values are read back from
their printed forms, and the sort with which a value is read is that of the last declaration of its
name.  What is read is strict about atoms: a semicolon in one of them is always an error.

* `Sexp.value_tree`: literals are read back.
* `Smt.modelEntry_eq_ok`, `Smt.modelEntries_eq_ok`, `Smt.modelOf_eq_ok`: when a model is read.
-/

namespace NullPath

/-! ## Values -/

namespace Sexp

variable {c : Constant} {s : ExprSort} {e : Sexp}

/-- The tree of a literal is read as this literal. -/
theorem value_tree (h : c.HasSort s) : c.tree.value s = .ok c := by
  cases s with
  | int =>
    have hb : c.sort ≠ .bool := by rw [h.sort_eq]; simp
    rw [value, if_neg (by simp), Constant.tree]
    by_cases hneg : c.value < 0
    · rw [if_pos ⟨hb, hneg⟩, intValue, intValue, Expr.toList_toString (by omega),
        Text.signed?_toDigits, Int.toNat_of_nonneg (by omega)]
      show Except.ok (Constant.ofInt (-(-c.value))) = _
      rw [Int.neg_neg, ← h.eq_ofInt]
    · rw [if_neg (fun h => hneg h.2), intValue, Constant.text, if_neg hb, if_neg hneg,
        Expr.toList_toString (by omega), Text.signed?_toDigits, Int.toNat_of_nonneg (by omega)]
      show Except.ok (Constant.ofInt c.value) = _
      rw [← h.eq_ofInt]
  | bool =>
    rw [h.eq_ofBool]
    cases c.isTrue <;> rfl
  | other _ _ => exact h.elim

/-- A value that is read has the sort that it is read with. -/
theorem hasSort_of_value (hs : s = .int ∨ s = .bool) (h : e.value s = .ok c) : c.HasSort s := by
  rcases hs with rfl | rfl
  · rw [value, if_neg (by simp)] at h
    unfold intValue at h
    split at h
    · split at h
      · cases h
        exact Constant.hasSort_ofInt _
      · cases h
    · split at h
      · cases h
        exact Constant.hasSort_neg _
      · cases h
    · cases h
  · rw [value, if_pos rfl] at h
    split at h
    · cases h
      exact Constant.hasSort_ofBool true
    · cases h
      exact Constant.hasSort_ofBool false
    · cases h

/-- No atom of a number that is read has a semicolon in it. -/
theorem semicolon_notMem_of_intValue (h : e.intValue = .ok c) {a : List Char}
    (ha : .atom a ∈ e.tokens) : ';' ∉ a := by
  fun_induction intValue e generalizing c with
  | case1 s v hv =>
    obtain rfl : a = s.toList := by simpa [tokens] using ha
    exact Text.semicolon_notMem_of_signed? hv
  | case2 s hs => cases h
  | case3 e c' he ih =>
    have ha : a = ['-'] ∨ .atom a ∈ e.tokens := by simpa [tokens, itemTokens] using ha
    rcases ha with rfl | ha
    · decide
    · exact ih he ha
  | case4 e err he ih | case5 => cases h

/-- No atom of a value that is read has a semicolon in it. -/
theorem semicolon_notMem_of_value (h : e.value s = .ok c) {a : List Char}
    (ha : .atom a ∈ e.tokens) : ';' ∉ a := by
  rw [value] at h
  split at h
  · cases e with
    | list es => cases h
    | atom w =>
      obtain rfl : a = w.toList := by simpa [tokens] using ha
      rw [atomText] at h
      split at h
      · decide
      · decide
      · cases h
  · exact semicolon_notMem_of_intValue h ha

end Sexp

/-! ## Entries of a model -/

namespace Assoc

variable {κ α : Type} [DecidableEq κ] {m : Assoc κ α} {ps : List (κ × α)} {k : κ} {a : α}

/-- The map after some values have been set, one after the other. -/
def insertAll (m : Assoc κ α) (ps : List (κ × α)) : Assoc κ α :=
  ps.foldl (fun m p => m.insert p.1 p.2) m

theorem mem_of_get?_insertAll (h : (m.insertAll ps).get? k = some a) :
    (k, a) ∈ ps ∨ m.get? k = some a := by
  induction ps generalizing m with
  | nil => exact .inr h
  | cons p ps ih =>
    rcases ih h with hmem | hget
    · exact .inl (by simp [hmem])
    · rcases get?_of_insert hget with ⟨hk, rfl⟩ | hget
      · exact .inl (by simp [hk])
      · exact .inr hget

theorem isSome_get?_insertAll :
    ((m.insertAll ps).get? k).isSome ↔ k ∈ ps.map Prod.fst ∨ (m.get? k).isSome := by
  induction ps generalizing m with
  | nil => simp [insertAll]
  | cons p ps ih =>
    have hstep : m.insertAll (p :: ps) = (m.insert p.1 p.2).insertAll ps := rfl
    rw [hstep, ih, get?_insert, List.map_cons, List.mem_cons]
    by_cases hk : k = p.1 <;> simp [hk]

/-- A map is rebuilt from some of its values, if there is one for each of its keys. -/
theorem get?_insertAll_eq {m' : Assoc κ α} (hvalues : ∀ p ∈ ps, m'.get? p.1 = some p.2)
    (hkeys : ∀ k, (m'.get? k).isSome → k ∈ ps.map Prod.fst) (k : κ) :
    (empty.insertAll ps).get? k = m'.get? k := by
  cases hget : (empty.insertAll ps).get? k with
  | some a =>
    have hmem : (k, a) ∈ ps := by simpa using mem_of_get?_insertAll hget
    exact (hvalues _ hmem).symm
  | none =>
    have hk : k ∉ ps.map Prod.fst := by
      intro hmem
      have := isSome_get?_insertAll (m := empty).mpr (.inl hmem)
      simp [hget] at this
    exact (Option.not_isSome_iff_eq_none.mp fun hsome => hk (hkeys k hsome)).symm

end Assoc

namespace Smt

variable {ds : List Declaration} {n : Name} {c : Constant} {e : Sexp} {m m' : Model}

/-- The sort with which a value is read is that of the last declaration of its name. -/
theorem declaredSort?_eq_some {s : ExprSort} (h : declaredSort? ds n = some s) :
    ∃ before d after, ds = before ++ d :: after ∧ d.name = n ∧ d.sort = s ∧
      ∀ d' ∈ after, d'.name ≠ n := by
  obtain ⟨d, hd, hs⟩ := Option.map_eq_some_iff.mp h
  obtain ⟨hname, as, bs, hsplit, has⟩ := List.find?_eq_some_iff_append.mp hd
  refine ⟨bs.reverse, d, as.reverse, ?_, by simpa using hname, hs, by simpa using has⟩
  rw [← List.reverse_reverse ds, hsplit]
  simp

theorem declaredSort?_of_mem (hnodup : (ds.map Declaration.name).Nodup) {d : Declaration}
    (hd : d ∈ ds) : declaredSort? ds d.name = some d.sort := by
  cases hfind : ds.reverse.find? fun d' => d'.name = d.name with
  | none => simpa using List.find?_eq_none.mp hfind d (by simpa using hd)
  | some d' =>
    have hname : d'.name = d.name := by simpa using List.find?_some hfind
    have hmem : d' ∈ ds := by simpa using List.mem_of_find?_eq_some hfind
    rw [declaredSort?, hfind, List.inj_on_of_nodup_map hnodup hmem hd hname]
    rfl

/-- An entry is read if it is a pair of a label of a declared name and a value of its sort. -/
theorem modelEntry_eq_ok {p : Name × Constant} : modelEntry ds e = .ok p ↔
    ∃ label value s, e = .list [label, value] ∧ Name.parse? label.atomText = some p.1 ∧
      declaredSort? ds p.1 = some s ∧ value.value s = .ok p.2 := by
  obtain ⟨n, c⟩ := p
  constructor
  · intro h
    unfold modelEntry at h
    split at h
    · next label value =>
      split at h
      · cases h
      · next k hk =>
        split at h
        · cases h
        · next s hs =>
          split at h
          · next c' hc =>
            cases h
            exact ⟨label, value, s, rfl, hk, hs, hc⟩
          · cases h
    · cases h
  · rintro ⟨label, value, s, rfl, hn, hs, hc⟩
    simp only [modelEntry, hn, hs, hc]

/-- The entries of a model are read if each of them is, and the later ones win. -/
theorem modelEntries_eq_ok {es : List Sexp} : modelEntries ds m es = .ok m' ↔
    ∃ ps : List (Name × Constant), es.map (modelEntry ds) = ps.map .ok ∧ m' = m.insertAll ps := by
  induction es generalizing m with
  | nil =>
    constructor
    · intro h
      cases h
      exact ⟨[], rfl, rfl⟩
    · rintro ⟨ps, hps, rfl⟩
      obtain rfl : ps = [] := by simpa using hps.symm
      rfl
  | cons e es ih =>
    rw [modelEntries]
    cases he : modelEntry ds e with
    | error err =>
      constructor
      · intro h
        cases h
      · rintro ⟨ps, hps, -⟩
        cases ps with
        | nil => cases hps
        | cons p ps => simp [he] at hps
    | ok p =>
      rw [ih]
      constructor
      · rintro ⟨ps, hps, rfl⟩
        exact ⟨p :: ps, by simp [he, hps], rfl⟩
      · rintro ⟨ps, hps, rfl⟩
        cases ps with
        | nil => cases hps
        | cons p' ps =>
          obtain ⟨rfl, hrest⟩ : p = p' ∧ es.map (modelEntry ds) = ps.map .ok := by
            simpa [he] using hps
          exact ⟨ps, hrest, rfl⟩

theorem modelOf_eq_ok : modelOf ds e = .ok m ↔
    ∃ es, e = .list es ∧ es.head? ≠ some (.atom "error") ∧ modelEntries ds .empty es = .ok m := by
  constructor
  · intro h
    unfold modelOf at h
    split at h
    · cases h
    · next es herror =>
      refine ⟨es, rfl, fun hhead => ?_, h⟩
      obtain ⟨es', rfl⟩ := List.head?_eq_some_iff.mp hhead
      exact herror es' rfl
    · cases h
  · rintro ⟨es, rfl, hhead, h⟩
    unfold modelOf
    split
    · next heq =>
      cases heq
      exact absurd rfl hhead
    · next heq =>
      cases heq
      exact h
    · next heq => cases heq

/-- No atom of a reply from which a model is read has a semicolon in it. -/
theorem semicolon_notMem_of_modelOf (h : modelOf ds e = .ok m) {a : List Char}
    (ha : .atom a ∈ e.tokens) : ';' ∉ a := by
  obtain ⟨es, rfl, -, hes⟩ := modelOf_eq_ok.mp h
  obtain ⟨ps, hps, -⟩ := modelEntries_eq_ok.mp hes
  obtain ⟨entry, hentry, ha⟩ : ∃ e ∈ es, .atom a ∈ e.tokens := by
    simpa [Sexp.tokens, Sexp.mem_itemTokens] using ha
  obtain ⟨p, -, hp⟩ : ∃ p ∈ ps, Except.ok p = modelEntry ds entry := by
    rw [← List.mem_map, ← hps]
    exact List.mem_map_of_mem hentry
  obtain ⟨label, value, s, rfl, hn, -, hc⟩ := modelEntry_eq_ok.mp hp.symm
  have ha : .atom a ∈ label.tokens ∨ .atom a ∈ value.tokens := by
    simpa [Sexp.tokens, Sexp.itemTokens] using ha
  rcases ha with ha | ha
  · cases label with
    | list items => cases hn
    | atom w =>
      obtain rfl : a = w.toList := by simpa [Sexp.tokens] using ha
      exact Name.semicolon_notMem_of_parse? hn
  · exact Sexp.semicolon_notMem_of_value hc ha

end Smt

end NullPath
