import NullPath.Proofs.Paths

/-!
# The choices that lead to a visit

A visit executed a frame that an earlier visit handed on, at some position of its list of frames.
The positions on the way from the first visit are the choices that lead to a visit.  Frames carry no
such mark, and two equal frames may be handed on by one visit, but the frames that were handed on
and those that were executed or wait are the same up to order.  So the marks can be given afterwards
such that no two visits have the same one.

* `handOns`, `Explorer.arrivals`: the frames that visits handed on, with their positions.
* `Explorer.Logged.path_unique`: a path is determined by its places if no switch has a target twice.
* `Explorer.Logged.exists_choices`: every log has choices.
-/

namespace NullPath

/-- A list whose entries are, up to order, the values of a function can be brought into an order in
which they are these values. -/
theorem exists_perm_map_eq {α β : Type} {f : α → β} {xs : List α} {ys : List β}
    (h : ys.Perm (xs.map f)) : ∃ xs' : List α, xs'.Perm xs ∧ xs'.map f = ys := by
  have hmap : List.Forall₂ (fun y x => f x = y) (xs.map f) xs := by
    rw [List.forall₂_map_left_iff]
    exact List.forall₂_same.mpr fun _ _ => rfl
  obtain ⟨xs', hxs', hperm⟩ := List.perm_comp_forall₂ h hmap
  refine ⟨xs', hperm, ?_⟩
  clear h hmap hperm
  induction hxs' with
  | nil => rfl
  | cons hy _ ih => rw [List.map_cons, hy, ih]

/-! ## Frames that were handed on -/

/-- The frames that visits handed on and that may go on, with the number of the visit and the
position among its frames. -/
def handOns (admits : Frame → Bool) (vs : List Visit) : List ((Nat × Nat) × Frame) :=
  vs.zipIdx.flatMap fun vi =>
    (vi.1.next.zipIdx.filter fun fc => admits fc.1).map fun fc => ((vi.2, fc.2), fc.1)

variable {admits : Frame → Bool} {vs : List Visit}

theorem handOns_snoc (v : Visit) : handOns admits (vs ++ [v]) = handOns admits vs ++
    (v.next.zipIdx.filter fun fc => admits fc.1).map fun fc => ((vs.length, fc.2), fc.1) := by
  simp [handOns, List.zipIdx_append]

theorem mem_handOns {i c : Nat} {f : Frame} : ((i, c), f) ∈ handOns admits vs ↔
    ∃ v, vs[i]? = some v ∧ v.next[c]? = some f ∧ admits f = true := by
  simp only [handOns, List.mem_flatMap, List.mem_map, List.mem_filter, Prod.exists,
    List.mem_zipIdx_iff_getElem?, Prod.mk.injEq]
  constructor
  · rintro ⟨v, i', hv, f', c', ⟨hf, hadm⟩, ⟨rfl, rfl⟩, rfl⟩
    exact ⟨v, hv, hf, hadm⟩
  · rintro ⟨v, hv, hf, hadm⟩
    exact ⟨v, i, hv, f, c, ⟨hf, hadm⟩, ⟨rfl, rfl⟩, rfl⟩

theorem map_snd_handOns (admits : Frame → Bool) (vs : List Visit) :
    (handOns admits vs).map Prod.snd = vs.flatMap fun v => v.next.filter admits := by
  induction vs using List.reverseRecOn with
  | nil => rfl
  | append_singleton vs v ih =>
    have hlast : ((v.next.zipIdx.filter fun fc => admits fc.1).map Prod.fst) =
        v.next.filter admits := by
      have hfilter := List.filter_map (p := admits) (f := Prod.fst) (l := v.next.zipIdx)
      rw [List.zipIdx_map_fst] at hfilter
      exact hfilter.symm
    rw [handOns_snoc, List.map_append, ih, List.flatMap_append, List.flatMap_singleton,
      List.map_map]
    exact congrArg _ hlast

/-- No position of a visit occurs twice. -/
theorem nodup_handOns (admits : Frame → Bool) (vs : List Visit) :
    ((handOns admits vs).map Prod.fst).Nodup := by
  induction vs using List.reverseRecOn with
  | nil => exact List.nodup_nil
  | append_singleton vs v ih =>
    rw [handOns_snoc, List.map_append, List.map_map]
    refine List.nodup_append'.mpr ⟨ih, ?_, ?_⟩
    · have hsnd : ((v.next.zipIdx.filter fun fc => admits fc.1).map Prod.snd).Nodup := by
        refine List.Nodup.sublist (List.filter_sublist.map _) ?_
        rw [List.zipIdx_map_snd]
        exact List.nodup_range'
      have hpair := hsnd.map (Prod.mk_right_injective vs.length)
      rwa [List.map_map] at hpair
    · rintro ⟨i, c⟩ hold hnew
      obtain ⟨⟨⟨i', c'⟩, f⟩, hmem, heq⟩ := List.mem_map.mp hold
      obtain ⟨rfl, rfl⟩ := Prod.mk.inj heq
      obtain ⟨w, hw, -⟩ := mem_handOns.mp hmem
      obtain ⟨fc, -, heq'⟩ := List.mem_map.mp hnew
      obtain rfl := congrArg Prod.fst heq'
      exact absurd (lt_length_of_getElem? hw) (Nat.lt_irrefl _)

namespace Explorer

variable {s₀ : Store} {e : Explorer}

/-- The first frame and the frames that were handed on, each with the position that it came from. -/
def arrivals (s₀ : Store) (e : Explorer) (vs : List Visit) : List (Option (Nat × Nat) × Frame) :=
  ([firstFrame e s₀].filter e.options.admits).map (fun f => (none, f)) ++
    (handOns e.options.admits vs).map fun p => (some p.1, p.2)

theorem mem_arrivals {o : Option (Nat × Nat)} {f : Frame} : (o, f) ∈ arrivals s₀ e vs ↔
    (o = none ∧ f = firstFrame e s₀ ∧ e.options.admits f = true) ∨
      ∃ ic, o = some ic ∧ (ic, f) ∈ handOns e.options.admits vs := by
  rw [arrivals, List.mem_append]
  refine or_congr ⟨fun h => ?_, ?_⟩ ⟨fun h => ?_, ?_⟩
  · obtain ⟨f', hf', heq⟩ := List.mem_map.mp h
    obtain ⟨hmem, hadm⟩ := List.mem_filter.mp hf'
    cases heq
    exact ⟨rfl, List.mem_singleton.mp hmem, hadm⟩
  · rintro ⟨rfl, rfl, hadm⟩
    exact List.mem_map.mpr ⟨_, List.mem_filter.mpr ⟨List.mem_singleton_self _, hadm⟩, rfl⟩
  · obtain ⟨⟨ic, f'⟩, hp, heq⟩ := List.mem_map.mp h
    cases heq
    exact ⟨ic, rfl, hp⟩
  · rintro ⟨ic, rfl, hp⟩
    exact List.mem_map.mpr ⟨(ic, f), hp, rfl⟩

theorem map_snd_arrivals : (arrivals s₀ e vs).map Prod.snd =
    [firstFrame e s₀].filter e.options.admits ++
      vs.flatMap fun v => v.next.filter e.options.admits := by
  rw [arrivals, List.map_append, List.map_map, List.map_map, ← map_snd_handOns]
  exact congrArg (· ++ _) (List.map_id _)

theorem nodup_arrivals : ((arrivals s₀ e vs).map Prod.fst).Nodup := by
  rw [arrivals, List.map_append, List.map_map, List.map_map]
  refine List.nodup_append'.mpr ⟨?_, ?_, ?_⟩
  · rw [List.filter_cons]
    split <;> simp
  · have hpos := (nodup_handOns e.options.admits vs).map
      (Option.some_injective (Nat × Nat))
    rwa [List.map_map] at hpos
  · intro o ho ho'
    obtain ⟨f, -, rfl⟩ := List.mem_map.mp ho
    obtain ⟨p, -, hp⟩ := List.mem_map.mp ho'
    exact Option.some_ne_none _ hp

/-- Every visit and every waiting frame can be given the position from which it came. -/
theorem Logged.exists_arrivals (hl : Logged s₀ e vs) :
    ∃ os : List (Option (Nat × Nat) × Frame), os.Perm (arrivals s₀ e vs) ∧
      os.map Prod.snd = vs.map (fun v => v.frame.unnumbered) ++
        e.searcher.pending.map Frame.unnumbered := by
  refine exists_perm_map_eq ?_
  rw [map_snd_arrivals]
  exact hl.frames

/-- The position from which each visit came: the number of the visit that handed its frame on, and
the position among the frames of that visit. -/
structure Origins (e : Explorer) (vs : List Visit) (origin : Nat → Option (Nat × Nat)) : Prop where
  cases : ∀ (j : Nat) w, vs[j]? = some w → (j = 0 ∧ origin j = none) ∨
    ∃ (i c : Nat) (v : Visit), origin j = some (i, c) ∧ i < j ∧ vs[i]? = some v ∧
      v.next[c]? = some w.frame.unnumbered ∧ w.frame.parent = some (i : Int)
  injective : ∀ (j k : Nat) ic, origin j = some ic → origin k = some ic → j = k
  visited : e.searcher.pending = [] → ∀ (i c : Nat) v f, vs[i]? = some v → v.next[c]? = some f →
    e.options.admits f = true →
      ∃ (j : Nat) (w : Visit), vs[j]? = some w ∧ w.frame.unnumbered = f ∧ origin j = some (i, c)

theorem Logged.exists_origins (hl : Logged s₀ e vs) : ∃ origin, e.Origins vs origin := by
  obtain ⟨os, hperm, hos⟩ := hl.exists_arrivals
  have hframe : ∀ (j : Nat) w, vs[j]? = some w → ∃ o, os[j]? = some (o, w.frame.unnumbered) := by
    intro j w hw
    have hj := lt_length_of_getElem? hw
    have hget : (os.map Prod.snd)[j]? = some w.frame.unnumbered := by
      rw [hos, List.getElem?_append_left (by simpa using hj), List.getElem?_map, hw]
      rfl
    rw [List.getElem?_map] at hget
    obtain ⟨⟨o, f⟩, ho, rfl⟩ := Option.map_eq_some_iff.mp hget
    exact ⟨o, ho⟩
  refine ⟨fun j => os[j]?.bind Prod.fst, fun j w hw => ?_, fun j k ic hj hk => ?_,
    fun hnil i c v f hv hf hadm => ?_⟩
  · obtain ⟨o, ho⟩ := hframe j w hw
    rcases mem_arrivals.mp (hperm.mem_iff.mp (List.mem_of_getElem? ho)) with
      ⟨rfl, hfirst, -⟩ | ⟨⟨i, c⟩, rfl, hmem⟩
    · have hparent : w.frame.parent = none := congrArg Frame.parent hfirst
      exact .inl ⟨hl.eq_zero_of_parent_none hw hparent, by simp [ho]⟩
    · obtain ⟨v, hv, hf, -⟩ := mem_handOns.mp hmem
      have hparent : w.frame.parent = some (i : Int) :=
        ((hl.valid i v hv).succeeds (List.mem_of_getElem? hf)).parent
      obtain ⟨i', hi', hlt⟩ := hl.parents j w i hw hparent
      obtain rfl := Int.ofNat.inj hi'
      exact .inr ⟨i, c, v, by simp [ho], hlt, hv, hf, hparent⟩
  · have hpos : ∀ n : Nat, os[n]?.bind Prod.fst = some ic → (os.map Prod.fst)[n]? = some (some ic) := by
      intro n hn
      obtain ⟨p, hp, hpo⟩ := Option.bind_eq_some_iff.mp hn
      rw [List.getElem?_map, hp, Option.map_some, hpo]
    obtain ⟨hlj, hgj⟩ := List.getElem?_eq_some_iff.mp (hpos j hj)
    obtain ⟨hlk, hgk⟩ := List.getElem?_eq_some_iff.mp (hpos k hk)
    have hnodup := (hperm.map Prod.fst).nodup_iff.mpr nodup_arrivals
    exact hnodup.getElem_inj_iff.mp (hgj.trans hgk.symm)
  · have hmem : (some (i, c), f) ∈ arrivals s₀ e vs :=
      mem_arrivals.mpr (.inr ⟨(i, c), rfl, mem_handOns.mpr ⟨v, hv, hf, hadm⟩⟩)
    obtain ⟨j, hj⟩ := List.mem_iff_getElem?.mp (hperm.mem_iff.mpr hmem)
    have hlt : j < vs.length := by
      have hlen := congrArg List.length hos
      rw [hnil, List.map_nil, List.append_nil, List.length_map, List.length_map] at hlen
      rw [← hlen]
      exact lt_length_of_getElem? hj
    have hw : vs[j]? = some vs[j] := List.getElem?_eq_getElem hlt
    obtain ⟨o, ho⟩ := hframe j vs[j] hw
    obtain ⟨rfl, hfeq⟩ := Prod.mk.inj (Option.mem_unique ho hj)
    exact ⟨j, vs[j], hw, hfeq, by simp [ho]⟩

/-! ## Paths without equal targets -/

namespace Logged

variable {i j : Nat} {v w : Visit} {ns : List Int} {a : Int}

/-- If a switch has no target twice, a frame that its visit hands on is determined by its block. -/
theorem next_inj (hl : Logged s₀ e vs) (hv : vs[i]? = some v)
    (hapart : v.block.terminator.TargetsApart) {c c' : Nat} {f f' : Frame}
    (hf : v.next[c]? = some f) (hf' : v.next[c']? = some f') (hblock : f.block = f'.block) :
    c = c' := by
  have hlt := lt_length_of_getElem? hf
  rcases (Machine.block_succeeds (hl.valid i v hv).run).2 with hmap | ⟨f₁, hnext, -⟩
  · have hnodup : (v.next.map Frame.block).Nodup := hmap ▸ hapart.nodup
    refine (List.getElem?_inj (by simpa using hlt) hnodup).mp ?_
    rw [List.getElem?_map, List.getElem?_map, hf, hf', Option.map_some, Option.map_some, hblock]
  · have hlt' := lt_length_of_getElem? hf'
    rw [hnext, List.length_singleton] at hlt hlt'
    omega

/-- If no switch has a target twice, a visit is determined by its parent and its block. -/
theorem eq_of_parent (hl : Logged s₀ e vs) (hv : vs[i]? = some v)
    (hapart : v.block.terminator.TargetsApart) {k : Nat} {u : Visit} (hw : vs[j]? = some w)
    (hu : vs[k]? = some u) (hwp : w.frame.parent = some i) (hup : u.frame.parent = some i)
    (hblock : w.frame.block = u.frame.block) : j = k := by
  obtain ⟨origin, ho⟩ := hl.exists_origins
  have horigin : ∀ {j w}, vs[j]? = some w → w.frame.parent = some (i : Int) →
      ∃ c, origin j = some (i, c) ∧ v.next[c]? = some w.frame.unnumbered := by
    intro j w hw hp
    rcases ho.cases j w hw with ⟨rfl, -⟩ | ⟨i', c, v', hoj, -, hv', hf, hp'⟩
    · have hnone : w.frame.parent = none := congrArg Frame.parent (hl.first_of_zero hw)
      cases hp.symm.trans hnone
    · cases hp.symm.trans hp'
      cases hv.symm.trans hv'
      exact ⟨c, hoj, hf⟩
  obtain ⟨c, hoj, hf⟩ := horigin hw hwp
  obtain ⟨c', hok, hf'⟩ := horigin hu hup
  obtain rfl := hl.next_inj hv hapart hf hf' hblock
  exact ho.injective j k _ hoj hok

/-- If no switch has a target twice, a path is determined by its places. -/
theorem path_unique (hl : Logged s₀ e vs)
    (hapart : ∀ (i : Nat) v, vs[i]? = some v → v.block.terminator.TargetsApart) {ns' : List Int}
    {a' : Int} (hp : e.graph.PathTo e.root ns a) (hp' : e.graph.PathTo e.root ns' a')
    (h : (ns ++ [a]).map (placeOf (vs.map Visit.finished)) =
      (ns' ++ [a']).map (placeOf (vs.map Visit.finished))) : ns = ns' ∧ a = a' := by
  induction ns using List.reverseRecOn generalizing a ns' a' with
  | nil =>
    have hlen := congrArg List.length h
    simp only [List.length_map, List.length_append, List.length_singleton, List.length_nil] at hlen
    obtain rfl : ns' = [] := List.eq_nil_of_length_eq_zero (by omega)
    obtain ⟨j, w, rfl, hw⟩ := hl.visit_of_path hp
    obtain ⟨k, u, rfl, hu⟩ := hl.visit_of_path hp'
    exact ⟨rfl, by rw [hl.path_nil hw hp, hl.path_nil hu hp']⟩
  | append_singleton ns b ih =>
    obtain ⟨j, w, rfl, hw⟩ := hl.visit_of_path hp
    obtain ⟨k, u, rfl, hu⟩ := hl.visit_of_path hp'
    rw [List.map_append, @List.map_append _ _ _ ns'] at h
    obtain ⟨hinit, hlast⟩ := List.append_inj' h rfl
    obtain ⟨i, v, rfl, -, hv, hp₁, hpar, -⟩ := hl.path_snoc hw hp
    rcases hl.path_cases hu hp' with ⟨rfl, -⟩ | ⟨ns₂, b₂, rfl, hp₂, hpar'⟩
    · simp at hinit
    · obtain ⟨rfl, rfl⟩ := ih hp₁ hp₂ hinit
      rw [List.map_singleton, List.map_singleton, placeOf_eq hw, placeOf_eq hu] at hlast
      have hblock : w.frame.block = u.frame.block := by
        simp only [List.cons.injEq, Option.some.injEq, and_true, Prod.mk.injEq] at hlast
        exact congrArg Location.block hlast.1
      have hjk := hl.eq_of_parent hv (hapart i v hv) hw hu hpar hpar' hblock
      exact ⟨rfl, by rw [hjk]⟩

end Logged

/-! ## Choices -/

/-- The choices that lead to a number from the numbers and positions that everything came from. -/
def choicesOf (origin : Nat → Option (Nat × Nat)) (j : Nat) : List Nat :=
  match origin j with
  | none => []
  | some (i, c) => if i < j then choicesOf origin i ++ [c] else []
termination_by j

theorem choicesOf_of_some {origin : Nat → Option (Nat × Nat)} {i j c : Nat}
    (h : origin j = some (i, c)) (hlt : i < j) :
    choicesOf origin j = choicesOf origin i ++ [c] := by
  rw [choicesOf, h]
  simp only [hlt, if_true]

/-- The choices that lead to each visit.  A visit goes on from an earlier one by one more choice, and
no two visits have the same choices.  If nothing waits, everything that was handed on and may go on
was visited. -/
structure Choices (e : Explorer) (vs : List Visit) (choices : Nat → List Nat) : Prop where
  zero : choices 0 = []
  step : ∀ (j : Nat) w, vs[j]? = some w → j ≠ 0 → ∃ (i c : Nat) (v : Visit), i < j ∧
    vs[i]? = some v ∧ v.next[c]? = some w.frame.unnumbered ∧ w.frame.parent = some (i : Int) ∧
    choices j = choices i ++ [c]
  injective : ∀ j k, j < vs.length → k < vs.length → choices j = choices k → j = k
  visited : e.searcher.pending = [] → ∀ (i c : Nat) v f, vs[i]? = some v → v.next[c]? = some f →
    e.options.admits f = true → ∃ (j : Nat) (w : Visit), vs[j]? = some w ∧
      w.frame.unnumbered = f ∧ w.frame.parent = some (i : Int) ∧ choices j = choices i ++ [c]

theorem Logged.exists_choices (hl : Logged s₀ e vs) : ∃ choices, e.Choices vs choices := by
  obtain ⟨origin, ho⟩ := hl.exists_origins
  have hzero : choicesOf origin 0 = [] := by
    rw [choicesOf]
    split
    · rfl
    · next i c h => rw [if_neg (Nat.not_lt_zero i)]
  refine ⟨choicesOf origin, hzero, fun j w hw hj => ?_, fun j => ?_,
    fun hnil i c v f hv hf hadm => ?_⟩
  · rcases ho.cases j w hw with ⟨rfl, -⟩ | ⟨i, c, v, hj', hlt, hv, hf, hparent⟩
    · exact absurd rfl hj
    · exact ⟨i, c, v, hlt, hv, hf, hparent, choicesOf_of_some hj' hlt⟩
  · -- equal choices end with one position of one visit, which was given only once
    induction j using Nat.strong_induction_on with
    | _ j ih =>
      intro k hj hk heq
      rcases ho.cases j vs[j] (List.getElem?_eq_getElem hj) with
        ⟨rfl, -⟩ | ⟨i, c, v, hoj, hlt, hv, -, -⟩ <;>
      rcases ho.cases k vs[k] (List.getElem?_eq_getElem hk) with
        ⟨rfl, -⟩ | ⟨i', c', v', hok, hlt', hv', -, -⟩
      · rfl
      · rw [hzero, choicesOf_of_some hok hlt'] at heq
        exact absurd heq.symm (by simp)
      · rw [hzero, choicesOf_of_some hoj hlt] at heq
        simp at heq
      · rw [choicesOf_of_some hoj hlt, choicesOf_of_some hok hlt'] at heq
        obtain ⟨hcs, hc⟩ := List.append_inj' heq rfl
        cases hc
        have hi := lt_length_of_getElem? hv
        have hi' := lt_length_of_getElem? hv'
        obtain rfl := ih i hlt i' hi hi' hcs
        exact ho.injective j k (i, c) hoj hok
  · obtain ⟨j, w, hw, hfeq, hoj⟩ := ho.visited hnil i c v f hv hf hadm
    rcases ho.cases j w hw with ⟨-, hno⟩ | ⟨i', c', v', hoj', hlt, -, -, hparent⟩
    · rw [hoj] at hno
      cases hno
    · cases Option.mem_unique hoj hoj'
      exact ⟨j, w, hw, hfeq, hparent, choicesOf_of_some hoj hlt⟩

end Explorer
end NullPath
