import Mathlib.Data.Set.Card
import NullPath.Proofs.Choices
import NullPath.Proofs.Record

/-!
# Explorations and walks

If calls are not followed, a frame of an exploration stands at the end of a walk through the blocks
of one function.  A walk is given by its choices: the position among the targets of every terminator
that it leaves a block by.  The exploration goes along all walks on which no block occurs too often,
and it counts the walks that leave this set by one choice.

* `Function.Walks`, `Function.walks`: walks from the first block, by their choices.
* `Function.allowedWalks`, `Function.overruns`: the walks within the bound, and those one choice
  further.
* `Explorer.nodes_bijOn_walks`: the nodes of an exploration are the walks within the bound.
-/

namespace NullPath

/-! ## Walks -/

/-- Choices lead from the first block of a function through some blocks to a block. -/
inductive Function.Walks (f : Function) : List Nat → List Int → Int → Prop
  | start : Walks f [] [] 0
  | step {cs : List Nat} {bs : List Int} {b b' : Int} {block : Block} {c : Nat} :
    Walks f cs bs b → f.block? b = some block → block.terminator.targets[c]? = some b' →
      Walks f (cs ++ [c]) (bs ++ [b]) b'

/-- No block occurs more often than a path may execute it. -/
def Options.AllowsBlocks (options : Options) (bs : List Int) : Prop :=
  ∀ b, (bs.count b : Int) ≤ options.maxUnroll

theorem Options.allowsBlocks_snoc {options : Options} {bs : List Int} {b : Int} :
    options.AllowsBlocks (bs ++ [b]) ↔
      options.AllowsBlocks bs ∧ (bs.count b : Int) < options.maxUnroll := by
  have hcount : ∀ b', (bs ++ [b]).count b' = bs.count b' + if b = b' then 1 else 0 := by
    intro b'
    rw [List.count_append, List.count_singleton]
    simp only [beq_iff_eq]
  constructor
  · intro h
    refine ⟨fun b' => ?_, ?_⟩
    · have := h b'
      rw [hcount] at this
      omega
    · have := h b
      rw [hcount, if_pos rfl] at this
      omega
  · rintro ⟨h, hlt⟩ b'
    rw [hcount]
    split
    · next heq =>
      subst heq
      omega
    · have := h b'
      omega

namespace Function

variable {f : Function} {options : Options} {cs : List Nat} {bs : List Int} {b : Int}

/-- The walks of a function. -/
def walks (f : Function) : Set (List Nat) :=
  {cs | ∃ bs b, f.Walks cs bs b}

/-- The walks on which no block occurs too often. -/
def allowedWalks (f : Function) (options : Options) : Set (List Nat) :=
  {cs | ∃ bs b, f.Walks cs bs b ∧ options.AllowsBlocks (bs ++ [b])}

/-- The walks that go one choice too far. -/
def overruns (f : Function) (options : Options) : Set (List Nat) :=
  {cs | cs ∈ f.walks ∧ cs ∉ f.allowedWalks options ∧
    ∃ cs' ∈ f.allowedWalks options, ∃ c, cs = cs' ++ [c]}

/-- A walk is empty, or it leaves the block at the end of a shorter one. -/
theorem Walks.snoc (h : f.Walks cs bs b) : (cs = [] ∧ bs = [] ∧ b = 0) ∨
    ∃ cs' c bs' b' block, cs = cs' ++ [c] ∧ bs = bs' ++ [b'] ∧ f.Walks cs' bs' b' ∧
      f.block? b' = some block ∧ block.terminator.targets[c]? = some b := by
  cases h with
  | start => exact .inl ⟨rfl, rfl, rfl⟩
  | step h hblock htarget => exact .inr ⟨_, _, _, _, _, rfl, rfl, h, hblock, htarget⟩

/-- The choices determine the blocks. -/
theorem Walks.unique (h : f.Walks cs bs b) {bs' : List Int} {b' : Int} (h' : f.Walks cs bs' b') :
    bs = bs' ∧ b = b' := by
  induction h generalizing bs' b' with
  | start =>
    rcases h'.snoc with ⟨-, rfl, rfl⟩ | ⟨cs', c, -, -, -, hcs, -⟩
    · exact ⟨rfl, rfl⟩
    · simp at hcs
  | step h hblock htarget ih =>
    rcases h'.snoc with ⟨hcs, -⟩ | ⟨cs', c', bs₁, b₁, block', hcs, rfl, hw, hblock', htarget'⟩
    · simp at hcs
    · obtain ⟨rfl, hc⟩ := List.append_inj' hcs rfl
      cases hc
      obtain ⟨rfl, rfl⟩ := ih hw
      obtain rfl := Option.mem_unique hblock hblock'
      exact ⟨rfl, Option.mem_unique htarget htarget'⟩

theorem Walks.mem_allowedWalks (h : f.Walks cs bs b) :
    cs ∈ f.allowedWalks options ↔ options.AllowsBlocks (bs ++ [b]) := by
  refine ⟨fun ⟨bs', b', h', hallow⟩ => ?_, fun hallow => ⟨bs, b, h, hallow⟩⟩
  obtain ⟨rfl, rfl⟩ := h.unique h'
  exact hallow

/-- If no walk goes one choice too far, all walks are allowed. -/
theorem walks_subset_allowedWalks (h₁ : 1 ≤ options.maxUnroll) (h : f.overruns options = ∅) :
    f.walks ⊆ f.allowedWalks options := by
  rintro cs ⟨bs, b, hw⟩
  induction hw with
  | start =>
    refine ⟨[], 0, .start, Options.allowsBlocks_snoc.mpr ⟨fun b => ?_, ?_⟩⟩
    · rw [List.count_nil]
      omega
    · rw [List.count_nil]
      omega
  | @step cs bs b b' block c hw hblock htarget ih =>
    by_contra hnot
    have hmem : cs ++ [c] ∈ f.overruns options :=
      ⟨⟨_, _, hw.step hblock htarget⟩, hnot, cs, ih, c, rfl⟩
    rw [h] at hmem
    exact hmem

end Function

/-! ## Frames at the end of a walk -/

/-- The frame stands at the end of a walk through blocks of a function. -/
structure Frame.StandsAt (f : Function) (cs : List Nat) (bs : List Int) (frame : Frame) : Prop where
  function : frame.function = f
  callers : frame.callers = []
  path : frame.path = (bs.map (Location.mk f.name)).reverse
  walk : f.Walks cs bs frame.block

namespace Frame.StandsAt

variable {f : Function} {cs : List Nat} {bs : List Int} {frame : Frame} {options : Options}

theorem admits_iff (h : frame.StandsAt f cs bs) :
    options.admits frame = true ↔ (bs.count frame.block : Int) < options.maxUnroll := by
  have hseen : frame.seen frame.location = bs.count frame.block := by
    have hinj : Function.Injective (Location.mk f.name) := fun _ _ heq => (Location.mk.inj heq).2
    rw [Frame.seen, Frame.location, h.path, h.function, List.count_reverse,
      List.count_map_of_injective _ _ hinj]
  rw [Options.admits, decide_eq_true_iff, hseen]

/-- The frames that a block hands on stand one choice further. -/
theorem next (h : frame.StandsAt f cs bs) {program : Program} {env : Env} {b : Block}
    {m m' : Machine} {fs : List Frame} (hinline : options.inlineCalls = false)
    (hb : frame.function.block? frame.block = some b)
    (hrun : Machine.block options program frame.visit env b m = (.ok fs, m')) :
    fs.map Frame.block = b.terminator.targets ∧
      ∀ (c : Nat) (f' : Frame), fs[c]? = some f' → f'.StandsAt f (cs ++ [c]) (bs ++ [frame.block]) := by
  obtain ⟨hsucc, hmap⟩ := Machine.block_succeeds hrun
  -- without callers and calls that are followed, the function stays the same
  have hstack : ∀ f' ∈ fs, f'.function = f ∧ f'.callers = [] := by
    intro f' hf'
    rcases (hsucc f' hf').stack with ⟨hfun, hcs⟩ | ⟨-, hin, -⟩ | ⟨c, -, hcs⟩
    · exact ⟨hfun.trans h.function, hcs.trans h.callers⟩
    · rw [hinline] at hin
      cases hin
    · have hnil : frame.callers = c :: f'.callers := hcs
      rw [h.callers] at hnil
      cases hnil
  have hmap : fs.map Frame.block = b.terminator.targets := by
    rcases hmap with hmap | ⟨f', rfl, hne⟩
    · exact hmap
    · exact absurd ((hstack f' (List.mem_singleton_self f')).2.trans h.callers.symm) hne
  refine ⟨hmap, fun c f' hf' => ?_⟩
  have hmem := List.mem_of_getElem? hf'
  obtain ⟨hfun, hcs⟩ := hstack f' hmem
  refine ⟨hfun, hcs, ?_, h.walk.step (h.function ▸ hb) ?_⟩
  · have hpath : f'.path = frame.location :: frame.path := (hsucc f' hmem).path
    rw [hpath, h.path, Frame.location, h.function]
    simp
  · rw [← hmap, List.getElem?_map, hf']
    rfl

end Frame.StandsAt

/-! ## Visits and walks -/

namespace Explorer

variable {s₀ : Store} {e : Explorer} {vs : List Visit} {choices : Nat → List Nat} {i j : Nat}
  {v w : Visit} {cs : List Nat} {bs : List Int} {b : Int}

namespace Choices

section

variable (hc : e.Choices vs choices) (hl : Logged s₀ e vs)
include hc hl

/-- The frame of a visit stands at the end of an allowed walk. -/
theorem standsAt (hinline : e.options.inlineCalls = false) (hw : vs[j]? = some w) :
    ∃ bs, w.frame.StandsAt e.entry (choices j) bs ∧ e.options.AllowsBlocks (bs ++ [w.frame.block]) := by
  induction j using Nat.strong_induction_on generalizing w with
  | _ j ih =>
    have hadmits := hl.admits_frame hw
    by_cases hj : j = 0
    · subst hj
      have hfirst := hl.first_of_zero hw
      have hstands : w.frame.StandsAt e.entry (choices 0) [] := by
        have hblock : w.frame.block = 0 := congrArg Frame.block hfirst
        refine ⟨congrArg Frame.function hfirst, congrArg Frame.callers hfirst,
          congrArg Frame.path hfirst, ?_⟩
        rw [hc.zero, hblock]
        exact .start
      have hlt := hstands.admits_iff.mp hadmits
      refine ⟨[], hstands, Options.allowsBlocks_snoc.mpr ⟨fun b => ?_, hlt⟩⟩
      rw [List.count_nil] at hlt ⊢
      omega
    · obtain ⟨i, c, v, hij, hv, hnext, -, hchoices⟩ := hc.step j w hw hj
      obtain ⟨bs, hstands, hallow⟩ := ih i hij hv
      have hvalid := hl.valid i v hv
      have hstands' : w.frame.StandsAt e.entry (choices j) (bs ++ [v.frame.block]) := by
        rw [hchoices]
        exact { (hstands.next hinline hvalid.block hvalid.run).2 c _ hnext with }
      exact ⟨_, hstands', Options.allowsBlocks_snoc.mpr ⟨hallow, hstands'.admits_iff.mp hadmits⟩⟩

/-- The visit at the end of a walk hands on a frame for each choice. -/
theorem exists_next (hinline : e.options.inlineCalls = false) (hv : vs[i]? = some v)
    (hwalk : e.entry.Walks (choices i) bs b) {block : Block}
    (hblock : e.entry.block? b = some block) {c : Nat} {b' : Int}
    (htarget : block.terminator.targets[c]? = some b') :
    ∃ f, v.next[c]? = some f ∧ f.block = b' ∧
      f.StandsAt e.entry (choices i ++ [c]) (bs ++ [b]) := by
  obtain ⟨bs₁, hstands, -⟩ := hc.standsAt hl hinline hv
  obtain ⟨rfl, rfl⟩ := hwalk.unique hstands.walk
  have hvalid := hl.valid i v hv
  obtain ⟨hmap, hnext⟩ := hstands.next hinline hvalid.block hvalid.run
  have hb := hvalid.block
  rw [hstands.function] at hb
  obtain rfl := Option.mem_unique hb hblock
  rw [← hmap, List.getElem?_map] at htarget
  obtain ⟨f, hf, hfb⟩ := Option.map_eq_some_iff.mp htarget
  exact ⟨f, hf, hfb, hnext c f hf⟩

/-- Every allowed walk leads to a visit. -/
theorem exists_visit (hinline : e.options.inlineCalls = false) (hnil : e.searcher.pending = [])
    (h : e.entry.Walks cs bs b) (hallow : e.options.AllowsBlocks (bs ++ [b])) :
    ∃ j w, vs[j]? = some w ∧ choices j = cs := by
  induction h with
  | start =>
    have hlt := (Options.allowsBlocks_snoc.mp hallow).2
    have hadmits : e.options.admits (firstFrame e s₀) = true := decide_eq_true hlt
    obtain ⟨w, hw⟩ := hl.exists_first hnil hadmits
    exact ⟨0, w, hw, hc.zero⟩
  | @step cs bs b b' block c h hblock htarget ih =>
    obtain ⟨hprev, hlt⟩ := Options.allowsBlocks_snoc.mp hallow
    obtain ⟨i, v, hv, rfl⟩ := ih hprev
    obtain ⟨f, hf, rfl, hstands⟩ := hc.exists_next hl hinline hv h hblock htarget
    obtain ⟨j, w, hw, -, -, hchoices⟩ :=
      hc.visited hnil i c v f hv hf (hstands.admits_iff.mpr hlt)
    exact ⟨j, w, hw, hchoices⟩

/-- The edges of the tree extend a walk by one choice. -/
theorem links_iff (hv : vs[i]? = some v) (hw : vs[j]? = some w) :
    e.graph.Links i j ↔ ∃ c, choices j = choices i ++ [c] := by
  rw [hl.links_iff hw]
  constructor
  · intro hparent
    have hj : j ≠ 0 := by
      rintro rfl
      rw [hl.parent_zero hw] at hparent
      cases hparent
    obtain ⟨i', c, -, -, -, -, hparent', hchoices⟩ := hc.step j w hw hj
    obtain rfl := Int.ofNat.inj (Option.mem_unique hparent' hparent)
    exact ⟨c, hchoices⟩
  · rintro ⟨c, hchoices⟩
    have hj : j ≠ 0 := by
      rintro rfl
      rw [hc.zero] at hchoices
      exact absurd hchoices.symm (by simp)
    obtain ⟨i', c', v', -, hv', -, hparent', hchoices'⟩ := hc.step j w hw hj
    obtain ⟨hi, -⟩ := List.append_inj' (hchoices'.symm.trans hchoices) rfl
    have hlt := lt_length_of_getElem? hv
    have hlt' := lt_length_of_getElem? hv'
    rw [hparent', hc.injective i' i hlt' hlt hi]

/-- The nodes are the allowed walks. -/
theorem bijOn (hinline : e.options.inlineCalls = false) (hnil : e.searcher.pending = []) :
    Set.BijOn (fun a => choices a.toNat) {a | ∃ n, e.graph.node? a = some n}
      (e.entry.allowedWalks e.options) := by
  refine ⟨?_, ?_, ?_⟩
  · rintro a ⟨n, hn⟩
    obtain ⟨j, w, rfl, hw, -⟩ := hl.exists_of_node hn
    obtain ⟨bs, hstands, hallow⟩ := hc.standsAt hl hinline hw
    exact ⟨bs, w.frame.block, hstands.walk, hallow⟩
  · rintro a ⟨n, hn⟩ a' ⟨n', hn'⟩ heq
    obtain ⟨j, w, rfl, hw, -⟩ := hl.exists_of_node hn
    obtain ⟨j', w', rfl, hw', -⟩ := hl.exists_of_node hn'
    exact congrArg Int.ofNat (hc.injective j j' (lt_length_of_getElem? hw)
      (lt_length_of_getElem? hw') heq)
  · rintro cs ⟨bs, b, hwalk, hallow⟩
    obtain ⟨j, w, hw, hj⟩ := hc.exists_visit hl hinline hnil hwalk hallow
    obtain ⟨n, -, hn, -⟩ := hl.node hw
    exact ⟨j, ⟨n, hn⟩, hj⟩

end

/-! ## Dropped frames -/

/-- The choices of the frames that were handed on but dropped. -/
def dropped (e : Explorer) (vs : List Visit) (choices : Nat → List Nat) : List (List Nat) :=
  ((handOns (fun f => !e.options.admits f) vs).map Prod.fst).map fun ic => choices ic.1 ++ [ic.2]

theorem nodup_dropped (hc : e.Choices vs choices) : (dropped e vs choices).Nodup := by
  refine List.Nodup.map_on ?_ (nodup_handOns _ vs)
  have hlt : ∀ ic ∈ (handOns (fun f => !e.options.admits f) vs).map Prod.fst,
      ic.1 < vs.length := by
    intro ic hic
    obtain ⟨⟨⟨i, c⟩, f⟩, hmem, rfl⟩ := List.mem_map.mp hic
    obtain ⟨v, hv, -⟩ := mem_handOns.mp hmem
    exact lt_length_of_getElem? hv
  intro ic hic ic' hic' heq
  obtain ⟨hi, hpos⟩ := List.append_inj' heq rfl
  exact Prod.ext (hc.injective _ _ (hlt ic hic) (hlt ic' hic') hi) (List.cons.inj hpos).1

theorem length_dropped : (dropped e vs choices).length =
    (vs.flatMap Visit.next).countP fun f => !e.options.admits f := by
  have hlen := congrArg List.length
    (map_snd_handOns (fun f => !e.options.admits f) vs)
  rw [List.length_map] at hlen
  rw [dropped, List.length_map, List.length_map, hlen, List.countP_eq_length_filter,
    List.filter_flatMap]

/-- The dropped frames stand one choice too far. -/
theorem mem_dropped (hc : e.Choices vs choices) (hl : Logged s₀ e vs)
    (hinline : e.options.inlineCalls = false) (hnil : e.searcher.pending = []) :
    cs ∈ dropped e vs choices ↔ cs ∈ e.entry.overruns e.options := by
  constructor
  · intro hcs
    obtain ⟨⟨i, c⟩, hic, rfl⟩ := List.mem_map.mp hcs
    obtain ⟨⟨_, f⟩, hmem, rfl⟩ := List.mem_map.mp hic
    obtain ⟨v, hv, hf, hnot⟩ := mem_handOns.mp hmem
    obtain ⟨bs, hstands, hallow⟩ := hc.standsAt hl hinline hv
    have hvalid := hl.valid i v hv
    have hnext := (hstands.next hinline hvalid.block hvalid.run).2 c f hf
    refine ⟨⟨_, _, hnext.walk⟩, ?_, choices i, ⟨_, _, hstands.walk, hallow⟩, c, rfl⟩
    rw [hnext.walk.mem_allowedWalks, Options.allowsBlocks_snoc, ← hnext.admits_iff]
    rintro ⟨-, hadmits⟩
    rw [hadmits] at hnot
    cases hnot
  · rintro ⟨⟨bs, b, hwalk⟩, hnot, cs', ⟨bs', b', hwalk', hallow'⟩, c, rfl⟩
    rcases hwalk.snoc with ⟨hcs, -⟩ | ⟨cs₁, c₁, bs₁, b₁, block, hcs, rfl, hwalk₁, hblock, htarget⟩
    · simp at hcs
    · obtain ⟨rfl, hpos⟩ := List.append_inj' hcs rfl
      cases hpos
      obtain ⟨rfl, rfl⟩ := hwalk'.unique hwalk₁
      obtain ⟨i, v, hv, rfl⟩ := hc.exists_visit hl hinline hnil hwalk' hallow'
      obtain ⟨f, hf, rfl, hstands⟩ := hc.exists_next hl hinline hv hwalk' hblock htarget
      rw [hwalk.mem_allowedWalks, Options.allowsBlocks_snoc, ← hstands.admits_iff] at hnot
      have hadmits : (!e.options.admits f) = true := by
        rw [Bool.not_eq_true']
        exact Bool.eq_false_iff.mpr fun hadm => hnot ⟨hallow', hadm⟩
      exact List.mem_map.mpr ⟨(i, c), List.mem_map.mpr
        ⟨((i, c), f), mem_handOns.mpr ⟨v, hv, hf, hadmits⟩, rfl⟩, rfl⟩

/-- The counter of dropped frames is the number of walks that go one choice too far. -/
theorem encard_overruns (hc : e.Choices vs choices) (hl : Logged s₀ e vs) (hr : Recorded s₀ e vs)
    (hinline : e.options.inlineCalls = false) (hunroll : 1 ≤ e.options.maxUnroll)
    (hnil : e.searcher.pending = []) :
    (e.entry.overruns e.options).encard = e.stats.pruned := by
  have hset : e.entry.overruns e.options = (dropped e vs choices).toFinset := by
    ext cs
    rw [List.coe_toFinset, Set.mem_ofPred_eq, hc.mem_dropped hl hinline hnil]
  have hfirst : (!e.options.admits (firstFrame e s₀)) = false := by
    have hadmits : e.options.admits (firstFrame e s₀) = true := decide_eq_true hunroll
    rw [hadmits]
    rfl
  rw [hset, Set.encard_coe_eq_coe_finsetCard, List.toFinset_card_of_nodup hc.nodup_dropped,
    length_dropped, hr.pruned, List.countP_cons, hfirst]
  rfl

end Choices

/-- Without inlining, the nodes of a successful exploration are the walks on which no block occurs
too often.  An edge is one more choice, the dropped frames are the walks that go one choice too far,
and the exploration is complete exactly if it went along all walks. -/
theorem nodes_bijOn_walks (he : e.Unused) (hinline : e.options.inlineCalls = false)
    (hunroll : 1 ≤ e.options.maxUnroll) (h : e.trace.1 = .ok ()) :
    ∃ walk : Int → List Nat,
      Set.BijOn walk {a | ∃ n, e.trace.2.1.graph.node? a = some n}
        (e.entry.allowedWalks e.options) ∧
      walk e.trace.2.1.root = [] ∧
      (∀ a b n n', e.trace.2.1.graph.node? a = some n → e.trace.2.1.graph.node? b = some n' →
        (e.trace.2.1.graph.Links a b ↔ ∃ c, walk b = walk a ++ [c])) ∧
      (∀ a n, e.trace.2.1.graph.node? a = some n → ∃ bs b, e.entry.Walks (walk a) bs b ∧
        placeOf e.trace.2.2 a = some (⟨e.entry.name, b⟩, 0)) ∧
      (e.entry.overruns e.options).encard = e.trace.2.1.stats.pruned ∧
      (e.trace.2.1.incomplete = false ↔
        ∀ cs ∈ e.entry.walks, ∃ a n, e.trace.2.1.graph.node? a = some n ∧ walk a = cs) := by
  obtain ⟨s₀, vs, hl, hr, -, hnil, hframes, hoptions, -, hentry⟩ := exists_record he h
  obtain ⟨choices, hc⟩ := hl.exists_choices
  generalize e.trace.2.1 = e' at *
  rw [← hoptions] at hinline hunroll ⊢
  rw [← hentry]
  have hbij := hc.bijOn hl hinline hnil
  have hpruned := hc.encard_overruns hl hr hinline hunroll hnil
  refine ⟨fun a => choices a.toNat, hbij, ?_, ?_, ?_, hpruned, ?_⟩
  · obtain ⟨w, hw⟩ := hl.exists_first hnil (decide_eq_true hunroll)
    rw [hl.root (List.ne_nil_of_mem (List.mem_of_getElem? hw))]
    exact hc.zero
  · intro a b n n' hn hn'
    obtain ⟨i, v, rfl, hv, -⟩ := hl.exists_of_node hn
    obtain ⟨j, w, rfl, hw, -⟩ := hl.exists_of_node hn'
    exact hc.links_iff hl hv hw
  · intro a n hn
    obtain ⟨j, w, rfl, hw, -⟩ := hl.exists_of_node hn
    obtain ⟨bs, hstands, -⟩ := hc.standsAt hl hinline hw
    refine ⟨bs, w.frame.block, hstands.walk, ?_⟩
    rw [hframes, Logged.placeOf_eq hw, Frame.location, hstands.function, Frame.depth,
      hstands.callers]
    rfl
  · have hincomplete : e'.incomplete = false ↔ e'.entry.overruns e'.options = ∅ := by
      rw [← Set.encard_eq_zero, hpruned, incomplete, decide_eq_false_iff_not, Nat.not_lt,
        Nat.le_zero, Nat.cast_eq_zero]
    rw [hincomplete]
    constructor
    · intro hempty cs hcs
      obtain ⟨a, ⟨n, hn⟩, ha⟩ := hbij.surjOn
        (Function.walks_subset_allowedWalks hunroll hempty hcs)
      exact ⟨a, n, hn, ha⟩
    · intro hall
      rw [Set.eq_empty_iff_forall_notMem]
      rintro cs ⟨hwalk, hnot, -⟩
      obtain ⟨a, n, hn, rfl⟩ := hall cs hwalk
      exact hnot (hbij.mapsTo ⟨n, hn⟩)

/-! ## A loop -/

/-- Goes round a block, which leaves the loop if the parameter is not zero. -/
def loopBlock : Explorer where
  options := { maxUnroll := 2 }
  entry := {
    name := "loop"
    locals := [⟨"", .integer⟩, ⟨"x", .integer⟩]
    argCount := 1
    blocks := [⟨[], .switch (.copy ⟨1, 0⟩) [0] [0, 1] {}⟩, ⟨[], .return⟩] }

/-- Going round once more is the only walk that goes one choice too far. -/
theorem loopBlock_walks : loopBlock.trace.1 = .ok () ∧
    loopBlock.trace.2.1.graph.nodes.length = 4 ∧
    (∃ walk : Int → List Nat, Set.BijOn walk
      {a | ∃ n, loopBlock.trace.2.1.graph.node? a = some n}
      (loopBlock.entry.allowedWalks loopBlock.options)) ∧
    (loopBlock.entry.overruns loopBlock.options).encard = 1 ∧
    ∃ cs ∈ loopBlock.entry.walks, cs ∉ loopBlock.entry.allowedWalks loopBlock.options := by
  have hrun : loopBlock.trace.1 = .ok () := by decide +kernel
  have hpruned : loopBlock.trace.2.1.stats.pruned = 1 := by decide +kernel
  obtain ⟨walk, hbij, -, -, -, hcard, -⟩ :=
    nodes_bijOn_walks (e := loopBlock) (.new ..) rfl (by decide) hrun
  rw [hpruned] at hcard
  obtain ⟨cs, hcs⟩ := Set.encard_eq_one.mp hcard
  have hmem : cs ∈ loopBlock.entry.overruns loopBlock.options := by
    rw [hcs]
    exact Set.mem_singleton cs
  exact ⟨hrun, by decide +kernel, ⟨walk, hbij⟩, hcard, cs, hmem.1, hmem.2.1⟩

end Explorer
end NullPath
