import Mathlib.Data.Fintype.Card
import NullPath.Proofs.Choices
import NullPath.Proofs.Replay

/-!
# Two explorations that choose differently

Two explorations of one function differ in the order of their visits.  Visits to which the same
choices lead are twins: both are renamings of one replay.  When one exploration has finished, every
visit that the other one makes has a twin there, because what was handed on to it was handed on to
the twin as well.  So the second exploration cannot fail either, and it makes as many visits.

* `Explorer.SameName`: names that were declared at the same place of twins.
* `Frame.Twins`, `Visit.Twins`: frames and visits with a common replay.
* `Explorer.Pair`: two logs of one task with their choices.
* `Explorer.succeeds_of_succeeds`: explorations of one task succeed together.
-/

namespace NullPath

/-! ## Twins -/

/-- Two frames that go on from two graphs, after the same blocks, are one frame of a replay, up to
renamings.  The renamings relate names as the relation says. -/
def Frame.Twins (R : Name → Name → Prop) (g : Graph) (f : Frame) (g' : Graph) (f' : Frame) : Prop :=
  f'.path = f.path ∧ ∃ (decls : List Declaration) (r : Frame) (ρ ρ' : Name ↪ Name),
    r.Resumes ρ decls g f ∧ r.Resumes ρ' decls g' f' ∧ ∀ n, n.index < decls.length → R (ρ n) (ρ' n)

/-- Two visits are one replay, up to renamings. -/
def Visit.Twins (R : Name → Name → Prop) (i : Nat) (v : Visit) (j : Nat) (w : Visit) : Prop :=
  (∀ f ∈ v.next, ∀ f' ∈ w.next, f'.path = f.path) ∧
    ∃ (r : Visit) (ρ ρ' : Name ↪ Name), r.Renamed ρ i v ∧ r.Renamed ρ' j w ∧
      ∀ n, n.index < r.left.store.graph.decls.length → R (ρ n) (ρ' n)

variable {R : Name → Name → Prop} {i j : Nat} {v w : Visit} {g g' : Graph} {f f' : Frame}
  {options : Options} {program : Program}

/-- A number does not make a difference for a frame. -/
theorem Frame.Resumes.of_unnumbered {ρ : Name ↪ Name} {decls : List Declaration} {r : Frame}
    (h : r.Resumes ρ decls g f.unnumbered) : r.Resumes ρ decls g f where
  frame := ⟨⟨h.frame.function, h.frame.block, h.frame.callers⟩, h.frame.memory, h.frame.guard⟩
  declared := h.declared
  beyond := h.beyond
  memory := h.memory
  guard := h.guard

theorem Frame.Twins.of_unnumbered (h : Frame.Twins R g f.unnumbered g' f'.unnumbered) :
    Frame.Twins R g f g' f' := by
  obtain ⟨hpath, decls, r, ρ, ρ', hr, hr', hR⟩ := h
  exact ⟨hpath, decls, r, ρ, ρ', hr.of_unnumbered, hr'.of_unnumbered, hR⟩

theorem Frame.Twins.alike (h : Frame.Twins R g f g' f') : f.Alike f' := by
  obtain ⟨-, decls, r, ρ, ρ', hr, hr', -⟩ := h
  exact ⟨hr'.frame.function.trans hr.frame.function.symm, hr'.frame.block.trans hr.frame.block.symm,
    hr'.frame.callers.trans hr.frame.callers.symm⟩

theorem Frame.Alike.block?_eq (h : f.Alike f') :
    f'.function.block? f'.block = f.function.block? f.block := by
  rw [h.function, h.block]

/-- Twins declare the same number of names. -/
theorem Visit.Twins.declares_iff (h : Visit.Twins R i v j w) (o : Nat) :
    v.entered.store.graph.decls.length + o < v.left.store.graph.decls.length ↔
      w.entered.store.graph.decls.length + o < w.left.store.graph.decls.length := by
  obtain ⟨-, r, ρ, ρ', hv, hw, -⟩ := h
  have hlt : ∀ {σ : Name ↪ Name} {k : Nat} {u : Visit}, r.Renamed σ k u →
      (u.entered.store.graph.decls.length + o < u.left.store.graph.decls.length ↔
        r.entered.store.graph.decls.length + o < r.left.store.graph.decls.length) := by
    intro σ k u hu
    have hiff := hu.left.beyond.index_lt_iff (n := ⟨r.entered.store.graph.decls.length + o⟩)
    rwa [hu.entered.beyond o] at hiff
  rw [hlt hv, hlt hw]

/-- Twins hand on twins. -/
theorem Visit.Twins.next (h : Visit.Twins R i v j w) (hv : v.Valid options program i)
    (hw : w.Valid options program j) {c : Nat} (hf' : w.next[c]? = some f') :
    ∃ f, v.next[c]? = some f ∧ Frame.Twins R (v.graph i) f (w.graph j) f' := by
  obtain ⟨hpath, r, ρ, ρ', hrv, hrw, hR⟩ := h
  have hc := lt_length_of_getElem? hf'
  have hr : c < r.next.length := by rwa [hrw.next.length_eq]
  have hcv : c < v.next.length := by rwa [← hrv.next.length_eq]
  have hf : v.next[c]? = some v.next[c] := List.getElem?_eq_getElem hcv
  have hrc : r.next[c]? = some r.next[c] := List.getElem?_eq_getElem hr
  exact ⟨v.next[c], hf, hpath _ (List.mem_of_getElem? hf) _ (List.mem_of_getElem? hf'),
    r.left.store.graph.decls, r.next[c], ρ, ρ', hrv.resumes hv hrc hf, hrw.resumes hw hrc hf', hR⟩

/-- Visits of twins are twins, if the relation holds between the names that they declare. -/
theorem Frame.Twins.visits (h : Frame.Twins R g v.frame g' w.frame) (hv : v.Valid options program i)
    (hw : w.Valid options program j) (hg : g.Extends v.entered.store.graph)
    (hg' : g'.Extends w.entered.store.graph)
    (hclean : ∀ d ∈ v.entered.store.graph.decls, ∀ tag ∈ d.derefs, tag.node ≠ i)
    (hclean' : ∀ d ∈ w.entered.store.graph.decls, ∀ tag ∈ d.derefs, tag.node ≠ j)
    (hR : ∀ o, v.entered.store.graph.decls.length + o < v.left.store.graph.decls.length →
      w.entered.store.graph.decls.length + o < w.left.store.graph.decls.length →
      R ⟨v.entered.store.graph.decls.length + o⟩ ⟨w.entered.store.graph.decls.length + o⟩) :
    Visit.Twins R i v j w := by
  have hblock : w.block = v.block := by
    have hsame := h.alike.block?_eq
    rw [hv.block, hw.block] at hsame
    exact Option.some.inj hsame
  have hlocation := h.alike.location
  obtain ⟨hpath, decls, r, ρ, ρ', hr, hr', hold⟩ := h
  have hnextPath : ∀ f ∈ v.next, ∀ f' ∈ w.next, f'.path = f.path := by
    intro f hf f' hf'
    rw [(hv.succeeds hf).path, (hw.succeeds hf').path,
      Frame.visit, Frame.visit, hlocation, hpath]
  obtain ⟨σ, next, m, hσ, hrun, hrv⟩ := hr.exists_replay (.refl _ _ _ _) hv hg hclean
  obtain ⟨σ', next', m', hσ', hrun', hrw⟩ := hr'.exists_replay (.refl _ _ _ _) hw hg' hclean'
  rw [hblock] at hrun' hrw
  cases hrun.symm.trans hrun'
  refine ⟨hnextPath, _, σ, σ', hrv, hrw, fun n hn => ?_⟩
  have hlen : (r.replayed decls).store.graph.decls.length = decls.length := List.length_map _
  by_cases hlt : n.index < decls.length
  · rw [hσ n hlt, hσ' n hlt]
    exact hold n hlt
  · have hle : (r.replayed decls).store.graph.decls.length ≤ n.index := by omega
    have hlv := hrv.left.beyond.index_lt_iff.mpr hn
    have hlw := hrw.left.beyond.index_lt_iff.mpr hn
    rw [hrv.entered.beyond.apply hle] at hlv ⊢
    rw [hrw.entered.beyond.apply hle] at hlw ⊢
    exact hR _ hlv hlw

/-! ## Two logs -/

namespace Explorer

/-- A log with its record and its choices. -/
structure Charted (s₀ : Store) (e : Explorer) (vs : List Visit) (cs : Nat → List Nat) : Prop where
  logged : Logged s₀ e vs
  recorded : Recorded s₀ e vs
  choices : e.Choices vs cs

/-- Names of two logs correspond if they were declared at the entry, or at the same place of visits
with the same choices. -/
inductive SameName (s₀ : Store) (vs vs' : List Visit) (cs cs' : Nat → List Nat) :
    Name → Name → Prop
  | entry {n : Name} : n.index < s₀.graph.decls.length → SameName s₀ vs vs' cs cs' n n
  | visit {i j o : Nat} {v w : Visit} : vs[i]? = some v → vs'[j]? = some w → cs i = cs' j →
    v.entered.store.graph.decls.length + o < v.left.store.graph.decls.length →
    w.entered.store.graph.decls.length + o < w.left.store.graph.decls.length →
      SameName s₀ vs vs' cs cs' ⟨v.entered.store.graph.decls.length + o⟩
        ⟨w.entered.store.graph.decls.length + o⟩

/-- Two logs of one task. -/
structure Pair (s₀ : Store) (e : Explorer) (vs : List Visit) (cs : Nat → List Nat) (e' : Explorer)
    (vs' : List Visit) (cs' : Nat → List Nat) : Prop where
  left : Charted s₀ e vs cs
  right : Charted s₀ e' vs' cs'
  options : e'.options = e.options
  program : e'.program = e.program
  entry : e'.entry = e.entry

variable {s₀ : Store} {e e' : Explorer} {vs vs' : List Visit} {cs cs' : Nat → List Nat}

theorem SameName.symm {n n' : Name} (h : SameName s₀ vs vs' cs cs' n n') :
    SameName s₀ vs' vs cs' cs n' n := by
  cases h with
  | entry hn => exact .entry hn
  | visit hv hw hcs hlt hlt' => exact .visit hw hv hcs.symm hlt' hlt

/-- Logs of one entry function begin in the same state. -/
theorem Logged.entered_unique {s₀' : Store} (hl : Logged s₀ e vs) (hl' : Logged s₀' e' vs')
    (hentry : e'.entry = e.entry) : s₀' = s₀ := by
  have henter := hl.entered
  rw [← hentry, hl'.entered] at henter
  exact (Prod.mk.inj henter).2

/-- The first frame is a replay of itself. -/
theorem Logged.resumes_first (hl : Logged s₀ e vs) :
    (firstFrame e s₀).Resumes (.refl Name) s₀.graph.decls s₀.graph (firstFrame e s₀) where
  frame := ⟨⟨rfl, rfl, rfl⟩, .refl, rfl⟩
  declared := fun _ d hd => ⟨d, hd, rfl, rfl⟩
  beyond := fun _ => rfl
  memory := (enterFunction_bare Store.bare_empty hl.entered).scope
  guard := nofun

namespace Pair

theorem symm (h : Pair s₀ e vs cs e' vs' cs') : Pair s₀ e' vs' cs' e vs cs :=
  ⟨h.right, h.left, h.options.symm, h.program.symm, h.entry.symm⟩

theorem firstFrame_eq (h : Pair s₀ e vs cs e' vs' cs') : firstFrame e' s₀ = firstFrame e s₀ := by
  rw [firstFrame, firstFrame, h.entry]

theorem valid (h : Pair s₀ e vs cs e' vs' cs') (hw : vs'[j]? = some w) :
    w.Valid e.options e.program j := by
  have hvalid := h.right.logged.valid j w hw
  rwa [h.options, h.program] at hvalid

section

variable (h : Pair s₀ e vs cs e' vs' cs') (hdone : e.searcher.pending = [])
include h hdone

/-- If the first frame waits or was executed in one log, it was executed in the other one, which has
finished. -/
theorem exists_first (hf : f.unnumbered = firstFrame e' s₀) (hadm : e.options.admits f = true) :
    ∃ v, vs[0]? = some v ∧
      Frame.Twins (SameName s₀ vs vs' cs cs') s₀.graph v.frame s₀.graph f := by
  rw [h.firstFrame_eq] at hf
  obtain ⟨v, hv⟩ := h.left.logged.exists_first hdone (hf ▸ hadm : _)
  refine ⟨v, hv, .of_unnumbered ?_⟩
  rw [h.left.logged.first_of_zero hv, hf]
  have hfirst := h.left.logged.resumes_first
  exact ⟨rfl, _, _, _, _, hfirst, hfirst, fun n hn => .entry hn⟩

/-- What a twin handed on, and may go on, was executed in the log that has finished. -/
theorem exists_next (hv : vs[i]? = some v) (hw : vs'[j]? = some w)
    (htwins : Visit.Twins (SameName s₀ vs vs' cs cs') i v j w) {c : Nat}
    (hf : w.next[c]? = some f.unnumbered) (hadm : e.options.admits f = true) :
    ∃ k u, vs[k]? = some u ∧ i < k ∧ cs k = cs i ++ [c] ∧
      Frame.Twins (SameName s₀ vs vs' cs cs') (v.graph i) u.frame (w.graph j) f := by
  obtain ⟨f₀, hf₀, hframes⟩ := htwins.next (h.left.logged.valid i v hv) (h.valid hw) hf
  have hadm₀ : e.options.admits f₀ = true := (hframes.alike.admits hframes.1 e.options).symm.trans hadm
  obtain ⟨k, u, hu, rfl, hparent, hcs⟩ := h.left.choices.visited hdone i c v f₀ hv hf₀ hadm₀
  obtain ⟨i', hi', hlt⟩ := h.left.logged.parents k u i hu hparent
  obtain rfl := Int.ofNat.inj hi'
  exact ⟨k, u, hu, hlt, hcs, hframes.of_unnumbered⟩

/-- Every visit has a twin in a log that has finished, by the same choices. -/
theorem exists_twin (hw : vs'[j]? = some w) :
    ∃ i v, vs[i]? = some v ∧ cs i = cs' j ∧
      Visit.Twins (SameName s₀ vs vs' cs cs') i v j w := by
  induction j using Nat.strong_induction_on generalizing w with
  | _ j ih =>
    have hadm : e.options.admits w.frame = true := by
      rw [← h.options]
      exact h.right.logged.admits_frame hw
    have hvisits : ∀ {i v g g'}, vs[i]? = some v → cs i = cs' j →
        Frame.Twins (SameName s₀ vs vs' cs cs') g v.frame g' w.frame →
        g.Extends v.entered.store.graph → g'.Extends w.entered.store.graph →
        Visit.Twins (SameName s₀ vs vs' cs cs') i v j w := fun hv hcs htwins hg hg' =>
      htwins.visits (h.left.logged.valid _ _ hv) (h.valid hw) hg hg' (h.left.recorded.clean _ _ hv)
        (h.right.recorded.clean _ _ hw) fun o hlt hlt' => .visit hv hw hcs hlt hlt'
    by_cases hj : j = 0
    · subst hj
      obtain ⟨v, hv, htwins⟩ := h.exists_first hdone (h.right.logged.first_of_zero hw) hadm
      have hcs : cs 0 = cs' 0 := by rw [h.left.choices.zero, h.right.choices.zero]
      exact ⟨0, v, hv, hcs, hvisits hv hcs htwins (h.left.logged.based 0 v hv)
        (h.right.logged.based 0 w hw)⟩
    · obtain ⟨j₀, c, w₀, hlt, hw₀, hf, -, hcs'⟩ := h.right.choices.step j w hw hj
      obtain ⟨i₀, v₀, hv₀, hcs₀, htwins₀⟩ := ih j₀ hlt hw₀
      obtain ⟨i, v, hv, hlt', hcs, htwins⟩ := h.exists_next hdone hv₀ hw₀ htwins₀ hf hadm
      have hcs : cs i = cs' j := by rw [hcs, hcs', hcs₀]
      exact ⟨i, v, hv, hcs, hvisits hv hcs htwins (h.left.logged.ordered i₀ i v₀ v hlt' hv₀ hv)
        (h.right.logged.ordered j₀ j w₀ w hlt hw₀ hw)⟩

/-- A log is not longer than one that has finished. -/
theorem length_le : vs'.length ≤ vs.length := by
  have htwin : ∀ j : Fin vs'.length, ∃ i : Fin vs.length, cs i = cs' j := by
    intro j
    obtain ⟨i, v, hv, hcs, -⟩ := h.exists_twin hdone (List.getElem?_eq_getElem j.isLt)
    exact ⟨⟨i, lt_length_of_getElem? hv⟩, hcs⟩
  choose twin htwin using htwin
  have hinj : Function.Injective twin := by
    intro j k hjk
    have hcs : cs' j = cs' k := by rw [← htwin j, ← htwin k, hjk]
    exact Fin.ext (h.right.choices.injective j k j.isLt k.isLt hcs)
  simpa using Fintype.card_le_of_injective twin hinj

/-- A frame that waits has a twin that was executed in the log that has finished. -/
theorem exists_twin_of_pending (hf : f ∈ e'.searcher.pending) :
    ∃ (i : Nat) (v : Visit) (g g' : Graph), vs[i]? = some v ∧
      Frame.Twins (SameName s₀ vs vs' cs cs') g v.frame g' f ∧
      g.Extends v.entered.store.graph ∧ g'.Extends e'.graph := by
  obtain ⟨hadm, horigin⟩ := h.right.logged.origin (List.mem_append_right _ (List.mem_map_of_mem hf))
  rw [h.options] at hadm
  rcases horigin with hfirst | ⟨j₀, w₀, hw₀, hmem, -⟩
  · obtain ⟨v, hv, htwins⟩ := h.exists_first hdone hfirst hadm
    exact ⟨0, v, _, _, hv, htwins, h.left.logged.based 0 v hv, h.right.logged.base⟩
  · obtain ⟨c, hc⟩ := List.mem_iff_getElem?.mp hmem
    obtain ⟨i₀, v₀, hv₀, -, htwins₀⟩ := h.exists_twin hdone hw₀
    obtain ⟨i, v, hv, hlt, -, htwins⟩ := h.exists_next hdone hv₀ hw₀ htwins₀ hc hadm
    exact ⟨i, v, _, _, hv, htwins, h.left.logged.ordered i₀ i v₀ v hlt hv₀ hv,
      h.right.logged.final j₀ w₀ hw₀⟩

/-- Where one exploration has finished, no step of the other one fails. -/
theorem turn_ne_failed {o : Outcome} {e'' : Explorer} (ht : e'.Turn o e'') (f? : Option Frame)
    (failure : Failure) : o ≠ .failed f? failure := by
  have hpending : ∀ {frame searcher}, e'.searcher.select = (some frame, searcher) →
      frame ∈ e'.searcher.pending := fun hsel =>
    (Searcher.pending_of_select_some h.right.logged.turning hsel).2.mem_iff.mpr List.mem_cons_self
  cases ht with
  | finished | executed => nofun
  | outside hsel hb =>
    obtain ⟨i, v, g, g', hv, htwins, -, -⟩ := h.exists_twin_of_pending hdone (hpending hsel)
    rw [htwins.alike.block?_eq, (h.left.logged.valid i v hv).block] at hb
    cases hb
  | unlinked hsel hp hadd =>
    exact absurd hadd (h.right.recorded.rooted.addEdge_ne_error (hpending hsel) hp)
  | @broken frame searcher b graph root m _ _ _ hsel hx =>
    obtain ⟨i, v, g, g', hv, htwins, hg, hg'⟩ := h.exists_twin_of_pending hdone (hpending hsel)
    have hvalid := h.left.logged.valid i v hv
    have hblock : b = v.block := by
      have hsame := htwins.alike.block?_eq
      rw [hx.block, hvalid.block] at hsame
      exact Option.some.inj hsame
    obtain ⟨-, decls, r, ρ, ρ', hr, hr', -⟩ := htwins
    obtain ⟨-, next, m', -, hrun, -⟩ :=
      hr.exists_replay (.refl _ _ _ _) hvalid hg (h.left.recorded.clean i v hv)
    have hlinked := (h.right.logged.linked (hpending hsel) hx.link).1
    have hfail := hx.run
    rw [hblock, h.options, h.program] at hfail
    refine absurd (congrArg Prod.fst hfail) (hr'.succeeds hrun (hg'.trans hlinked.extends_) rfl
      hlinked.node (fun d hd tag htag => ?_) _)
    -- the tags of the graph are at nodes that it has
    obtain ⟨k, hk⟩ := List.mem_iff_getElem?.mp hd
    rw [show graph.decls = e'.graph.decls from hlinked.decls] at hk
    obtain ⟨l, u, hl, hu, -⟩ := h.right.logged.tags k d hk tag htag
    have hlt := lt_length_of_getElem? hu
    have hsize := h.right.logged.size
    omega

end

end Pair

/-- Where one exploration has finished, the other one finishes as well, after as many visits at
most. -/
theorem Charted.runWithin_ok (hleft : Charted s₀ e vs cs) (hdone : e.searcher.pending = [])
    (hl : Logged s₀ e' vs') (hr : Recorded s₀ e' vs') (hoptions : e'.options = e.options)
    (hprogram : e'.program = e.program) (hentry : e'.entry = e.entry) {fuel : Nat}
    (hfuel : vs.length < vs'.length + fuel) (executed : List Frame) :
    (runWithin fuel e' executed).1 = some (.ok ()) := by
  induction fuel generalizing e' vs' executed with
  | zero =>
    obtain ⟨cs', hcs'⟩ := hl.exists_choices
    have hle := Pair.length_le ⟨hleft, ⟨hl, hr, hcs'⟩, hoptions, hprogram, hentry⟩ hdone
    omega
  | succ fuel ih =>
    obtain ⟨cs', hcs'⟩ := hl.exists_choices
    have hpair : Pair s₀ e vs cs e' vs' cs' :=
      ⟨hleft, ⟨hl, hr, hcs'⟩, hoptions, hprogram, hentry⟩
    have hturn := step_turn hl.started
    have hne := hpair.turn_ne_failed hdone hturn
    have hsame := hturn.sameTask
    rw [Explorer.runWithin]
    generalize e'.step = step at hturn hne hsame
    obtain ⟨o, e''⟩ := step
    cases hturn with
    | finished => rfl
    | outside | unlinked | broken => exact absurd rfl (hne _ _)
    | executed hsel hx =>
      have hv : e'.MakesVisit _ _ := .mk hsel hx
      refine ih (hl.snoc hv) (hr.snoc hl hv) (hsame.options.trans hoptions)
        (hsame.program.trans hprogram) (hsame.entry.trans hentry) ?_ _
      rw [List.length_append, List.length_singleton]
      omega

/-- Explorations of one task succeed together, whatever their searchers choose. -/
theorem succeeds_of_succeeds (he : e.Unused) (he' : e'.Unused) (hoptions : e'.options = e.options)
    (hprogram : e'.program = e.program) (hentry : e'.entry = e.entry) (h : e.trace.1 = .ok ()) :
    e'.trace.1 = .ok () := by
  obtain ⟨s₀, vs, hl, hr, hlt, hdone, -, hsame⟩ := exists_record he h
  obtain ⟨cs, hcs⟩ := hl.exists_choices
  have hstart : (start { e' with started := true }).1 = .ok () := by
    have henter := hl.entered
    rw [hsame.2.2, ← hentry] at henter
    rcases entered_cases e' with ⟨s, -, hok, -⟩ | ⟨failure, s, hs, -, -⟩
    · exact hok
    · rw [he'.graph] at hs
      cases (Prod.mk.inj (hs.symm.trans henter)).1
  obtain ⟨s₀', hl'⟩ := Logged.of_start he'.toFresh hstart
  have htask := sameTask_entered e'
  obtain rfl := hl.entered_unique hl' (htask.entry.trans (hentry.trans hsame.2.2.symm))
  obtain ⟨fuel, hfuel⟩ : ∃ fuel, stepBudget = fuel + 1 := ⟨0x3fffffffffffffff, rfl⟩
  have hok := Charted.runWithin_ok ⟨hl, hr, hcs⟩ hdone hl' (he'.recorded hl')
    (htask.options.trans (hoptions.trans hsame.1.symm))
    (htask.program.trans (hprogram.trans hsame.2.1.symm))
    (htask.entry.trans (hentry.trans hsame.2.2.symm)) (by simpa using hlt) []
  rw [hfuel, ← runWithin_succ_of_start he'.started hstart, ← hfuel] at hok
  unfold trace
  generalize Explorer.runWithin stepBudget e' [] = run at hok
  obtain ⟨result, e'', executed⟩ := run
  obtain rfl := hok
  rfl

end Explorer

end NullPath
