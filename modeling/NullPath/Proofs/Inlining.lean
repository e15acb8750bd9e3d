import NullPath.Proofs.NullDereference
import NullPath.Proofs.Shadows
import NullPath.Proofs.ValidQueries
import NullPath.Proofs.Walks

/-!
# Following calls only rules out behaviour

A function is explored twice, once with its calls and once without them.  Where a call is skipped,
its destination gets a new name about which nothing is known.  So every node that the exploration
with calls has outside of them has a counterpart in the other one: the node to which the entry
function comes by the same choices.  A model of the path to the first node is a model of the path to
the counterpart, and what is dereferenced at the first node is dereferenced there.

* `Explorer.callerChoices`, `Explorer.Labels`: the choices that the entry function itself makes.
* `Explorer.Refinement.level_step`, `Explorer.Refinement.below_step`: one visit, outside of all
  calls or inside of one.
* `Graph.Refines`: a map of names from one path to another one.
* `Explorer.inlining_refines`: following calls refines skipping them.
-/

namespace NullPath

open Visit

variable {ρ σ : Name ↪ Name}

namespace Explorer

variable {s₀ s : Store} {e e' : Explorer} {vs vs' : List Visit} {cs cs' : Nat → List Nat}
  {i j c : Nat} {v w : Visit} {ns : List Int} {a b : Int} {f : Function}

/-! ## Along a path -/

theorem Logged.route_snoc (ns : List Int) (hw : vs[j]? = some w) :
    route (vs.map finished) (ns ++ [(j : Int)]) =
      route (vs.map finished) ns ++ [(w.frame.location, w.frame.depth)] := by
  rw [route, route, List.filterMap_append, List.filterMap_cons, placeOf_eq hw, List.filterMap_nil]

/-- The second visit executed the frame at a position of what the first one handed on. -/
structure Handed (e : Explorer) (vs : List Visit) (cs : Nat → List Nat) (ns : List Int)
    (i : Nat) (v : Visit) (c j : Nat) (w : Visit) : Prop where
  path : e.graph.PathTo e.root ns i
  parent : vs[i]? = some v
  child : vs[j]? = some w
  lt : i < j
  next : v.next[c]? = some w.frame.unnumbered
  link : w.frame.parent = some (i : Int)
  choices : cs j = cs i ++ [c]

theorem Charted.exists_handed (h : Charted s₀ e vs cs) (hp : e.graph.PathTo e.root ns a)
    (hlinks : e.graph.Links a b) :
    ∃ (i : Nat) (v : Visit) (c j : Nat) (w : Visit), a = i ∧ b = j ∧
      Handed e vs cs ns i v c j w := by
  obtain ⟨j, w, rfl, hw⟩ := h.logged.visit_of_path (hp.step hlinks)
  have hparent := (h.logged.links_iff hw).mp hlinks
  have hj : j ≠ 0 := by
    rintro rfl
    rw [h.logged.parent_zero hw] at hparent
    cases hparent
  obtain ⟨i, c, v, hij, hv, hnext, hlink, hcs⟩ := h.choices.step j w hw hj
  obtain rfl := Option.mem_unique hparent hlink
  exact ⟨i, v, c, j, w, rfl, rfl, hp, hv, hw, hij, hnext, hlink, hcs⟩

/-- What holds of the first visit and goes on from visits to those that they handed frames to holds
at the end of all paths. -/
theorem Charted.path_induction (h : Charted s₀ e vs cs) {P : List Int → Nat → Visit → Prop}
    (first : ∀ w, vs[0]? = some w → P [] 0 w)
    (step : ∀ ns i v c j w, Handed e vs cs ns i v c j w → P ns i v → P (ns ++ [(i : Int)]) j w)
    (hp : e.graph.PathTo e.root ns j) (hw : vs[j]? = some w) : P ns j w := by
  generalize ha : (j : Int) = a at hp
  induction hp generalizing j w with
  | root _ =>
    have hroot := h.logged.root (List.ne_nil_of_mem (List.mem_of_getElem? hw))
    obtain rfl : j = 0 := by omega
    exact first w hw
  | @step ns a b hp hlinks ih =>
    obtain ⟨i, v, c, k, u, rfl, rfl, hstep⟩ := h.exists_handed hp hlinks
    obtain rfl := Int.ofNat.inj ha
    obtain rfl := Option.mem_unique hw hstep.child
    exact step ns i v c j w hstep (ih hstep.parent rfl)

/-! ## The memory along a path -/

theorem bindParameters_confined {count k : Nat} {s' : Store} (hs : s.Confined .start 0)
    (h : bindParameters f count k s = (.ok (), s')) : s'.Confined .start 0 := by
  induction count generalizing s k with
  | zero =>
    cases h
    exact hs
  | succ count ih =>
    obtain ⟨l, sort, s₁, -, hsort, hb, h₁⟩ := bindParameters_succ_eq_ok h
    exact ih ((hs.declare (Ty.sort_cases hsort) _).bind ⟨rfl, Nat.le_refl 0, by decide⟩
      (Nat.zero_le _) hb) h₁

theorem enterFunction_confined (h : enterFunction f {} = (.ok (), s)) : s.Confined .start 0 := by
  have hempty : Store.Confined .start 0 {} :=
    ⟨⟨fun _ _ _ _ => Nat.zero_le _, fun _ _ _ _ => Nat.zero_le _, fun _ _ => rfl, fun _ _ => rfl⟩,
      Nat.zero_le _, Store.bare_empty.scope.tidy⟩
  obtain ⟨result, rest, s₁, -, -, hresult, hp⟩ := enterFunction_eq_ok h
  refine bindParameters_confined ?_ hp
  rcases hresult with ⟨-, rfl⟩ | ⟨-, n, hn⟩
  · exact hempty
  · exact hempty.writeFresh ⟨rfl, Nat.le_refl 0, by decide⟩ hn

/-- The frames that a visit hands on have a confined memory if its own frame has. -/
theorem Handed.memory_confined {B : Boundary} (h : Handed e vs cs ns i v c j w)
    (hl : Logged s₀ e vs) (hB : B.depth ≤ v.frame.depth)
    (hlt : v.frame.depth < 0x100000000 ∨ B.depth = 0)
    (hnames : B.names ≤ v.entered.store.graph.decls.length)
    (hv : v.frame.memory.Confined B v.frame.depth) : w.frame.Confined B := by
  have hvalid := hl.valid i v h.parent
  have hs : v.entered.store.Confined B v.frame.depth :=
    ⟨hvalid.memory ▸ hv, hnames, hvalid.scope.tidy⟩
  have henv : (v.env i).Inside B v.frame.visit.depth := ⟨rfl, hB, hlt⟩
  have hnext : w.frame.unnumbered.Confined B :=
    Machine.block_confined henv hs hvalid.run _ (List.mem_of_getElem? h.next)
  exact hnext

/-- The path is inside of fewer calls than slots have depths. -/
def Shallow (vs : List Visit) (ns : List Int) : Prop :=
  ∀ x ∈ route (vs.map Visit.finished) ns, x.2 < 0x100000000

theorem Shallow.snoc_iff (hw : vs[j]? = some w) : Shallow vs (ns ++ [(j : Int)]) ↔
    Shallow vs ns ∧ w.frame.depth < 0x100000000 := by
  simp only [Shallow, Logged.route_snoc ns hw, List.forall_mem_append, List.forall_mem_singleton]

/-- A frame knows slots of the calls that it is inside of only. -/
theorem Charted.memory_confined (h : Charted s₀ e vs cs) (hp : e.graph.PathTo e.root ns j)
    (hw : vs[j]? = some w) : w.frame.memory.Confined .start w.frame.depth := by
  refine h.path_induction (P := fun _ _ w => w.frame.memory.Confined .start w.frame.depth)
    (fun w hw => ?_) ?_ hp hw
  · have hfirst := h.logged.first_of_zero hw
    have hmemory : w.frame.memory = s₀.memory := congrArg Frame.memory hfirst
    have hcallers : w.frame.callers = [] := congrArg Frame.callers hfirst
    rw [hmemory, Frame.depth, hcallers]
    exact (enterFunction_confined h.logged.entered).memory
  · intro ns i v c j w hstep ih
    exact hstep.memory_confined h.logged (Nat.zero_le _) (.inr rfl) (Nat.zero_le _) ih
      (Nat.zero_le _) (.inr rfl)

/-! ## The choices of the entry function -/

/-- The choices on the way to a visit that the entry function itself made. -/
def callerChoices (vs : List Visit) (cs : Nat → List Nat) (j : Nat) : List Nat :=
  match vs[j]?.bind fun w => w.frame.parent with
  | none => []
  | some p =>
    if p.toNat < j then
      callerChoices vs cs p.toNat ++
        if (vs[p.toNat]?.map fun v => v.frame.depth) = some 0 then (cs j).drop (cs p.toNat).length
        else []
    else []
termination_by j

theorem callerChoices_zero : callerChoices vs cs 0 = [] := by
  rw [callerChoices]
  split
  · rfl
  · rw [if_neg (Nat.not_lt_zero _)]

theorem Handed.callerChoices (h : Handed e vs cs ns i v c j w) : callerChoices vs cs j =
    callerChoices vs cs i ++ if v.frame.depth = 0 then [c] else [] := by
  rw [Explorer.callerChoices, h.child, Option.bind_some, h.link]
  simp only [Int.toNat_natCast, if_pos h.lt, h.parent, Option.map_some, Option.some.injEq,
    h.choices, List.drop_left]

/-- If no calls are followed, the entry function makes all choices. -/
theorem Charted.callerChoices_eq (h : Charted s₀ e vs cs) (hinline : e.options.inlineCalls = false)
    (hw : vs[j]? = some w) : callerChoices vs cs j = cs j := by
  obtain ⟨ns, hp⟩ := h.logged.exists_path hw
  refine h.path_induction (P := fun _ j _ => callerChoices vs cs j = cs j) (fun w hw => ?_) ?_ hp hw
  · rw [callerChoices_zero, h.choices.zero]
  · intro ns i v c j w hstep ih
    obtain ⟨bs, hstands, -⟩ := h.choices.standsAt h.logged hinline hstep.parent
    have hdepth : v.frame.depth = 0 := congrArg List.length hstands.callers
    rw [hstep.callerChoices, ih, if_pos hdepth, hstep.choices]

/-- Nodes are labelled with the choices that the entry function made on the way to them. -/
structure Labels (frames : List Frame) (g : Graph) (root : Int) (walk : Int → List Nat) : Prop where
  root : walk root = []
  outside : ∀ a b l, placeOf frames a = some (l, 0) → g.Links a b → ∃ c, walk b = walk a ++ [c]
  inside : ∀ a b l d, placeOf frames a = some (l, d + 1) → g.Links a b → walk b = walk a
  apart : ∀ a b b' l, placeOf frames a = some (l, 0) → g.Links a b → g.Links a b' →
    walk b = walk b' → b = b'

theorem Charted.exists_handed_of_place (h : Charted s₀ e vs cs) {l : Location} {d : Nat}
    (ha : placeOf (vs.map finished) a = some (l, d)) (hlinks : e.graph.Links a b) :
    ∃ (ns : List Int) (i : Nat) (v : Visit) (c j : Nat) (w : Visit), a = i ∧ b = j ∧
      Handed e vs cs ns i v c j w ∧ v.frame.depth = d := by
  obtain ⟨n, ed, hn, -, -⟩ := id hlinks
  obtain ⟨i, v, rfl, hv, -⟩ := h.logged.exists_of_node hn
  obtain ⟨ns, hp⟩ := h.logged.exists_path hv
  obtain ⟨i', v', c, j, w, hi, rfl, hstep⟩ := h.exists_handed hp hlinks
  obtain rfl := Int.ofNat.inj hi
  rw [Logged.placeOf_eq hstep.parent] at ha
  exact ⟨ns, i, v', c, j, w, rfl, rfl, hstep, (Prod.mk.inj (Option.some.inj ha)).2⟩

theorem Charted.labels (h : Charted s₀ e vs cs) :
    Labels (vs.map finished) e.graph e.root fun a => callerChoices vs cs a.toNat := by
  refine ⟨?_, fun a b l ha hlinks => ?_, fun a b l d ha hlinks => ?_,
    fun a b b' l ha hlinks hlinks' heq => ?_⟩
  · rcases List.eq_nil_or_concat vs with rfl | ⟨_, _, rfl⟩
    · rw [callerChoices]
      rfl
    · rw [h.logged.root (by simp)]
      exact callerChoices_zero
  · obtain ⟨ns, i, v, c, j, w, rfl, rfl, hstep, hdepth⟩ := h.exists_handed_of_place ha hlinks
    refine ⟨c, ?_⟩
    rw [Int.toNat_natCast, Int.toNat_natCast, hstep.callerChoices, if_pos hdepth]
  · obtain ⟨ns, i, v, c, j, w, rfl, rfl, hstep, hdepth⟩ := h.exists_handed_of_place ha hlinks
    rw [Int.toNat_natCast, Int.toNat_natCast, hstep.callerChoices, hdepth,
      if_neg (Nat.succ_ne_zero d), List.append_nil]
  · obtain ⟨ns, i, v, c, j, w, rfl, rfl, hstep, hdepth⟩ := h.exists_handed_of_place ha hlinks
    obtain ⟨ns', i', v', c', j', w', hi, rfl, hstep', hdepth'⟩ :=
      h.exists_handed_of_place ha hlinks'
    obtain rfl := Int.ofNat.inj hi
    rw [Int.toNat_natCast, Int.toNat_natCast, hstep.callerChoices, hstep'.callerChoices,
      if_pos hdepth, if_pos hdepth'] at heq
    obtain rfl := (List.cons.inj (List.append_cancel_left heq)).1
    rw [h.choices.injective j j' (lt_length_of_getElem? hstep.child)
      (lt_length_of_getElem? hstep'.child) (hstep.choices.trans hstep'.choices.symm)]

/-! ## Two logs -/

/-- Two logs of one task, of which the second one follows no calls, and has finished. -/
structure Refinement (s₀ : Store) (e : Explorer) (vs : List Visit) (cs : Nat → List Nat)
    (e' : Explorer) (vs' : List Visit) (cs' : Nat → List Nat) : Prop where
  left : Charted s₀ e vs cs
  right : Charted s₀ e' vs' cs'
  options : e'.options = { e.options with inlineCalls := false }
  program : e'.program = e.program
  entry : e'.entry = e.entry
  done : e'.searcher.pending = []

/-- A frame of the first log is one of the entry function, and a visit of the second log has come
the same way, or it is inside of a call, and a visit of the second log has made this call. -/
inductive Shadows (s₀ : Store) (e : Explorer) (vs : List Visit) (e' : Explorer) (vs' : List Visit)
    (cs' : Nat → List Nat) (label : List Nat) (ns : List Int) (g : Graph) (f : Frame) : Prop
  | level {ns' : List Int} {j' : Nat} {w' : Visit} {g' : Graph} :
    vs'[j']? = some w' → e'.graph.PathTo e'.root ns' j' → cs' j' = label →
    route (vs'.map Visit.finished) ns' =
      (route (vs.map Visit.finished) ns).filter (fun x => x.2 == 0) →
    g'.Extends w'.entered.store.graph →
    Frame.Shadowed s₀ (e'.graph.factsOn ns') (e.graph.factsOn ns) g' w'.frame g f →
      Shadows s₀ e vs e' vs' cs' label ns g f
  | below {ns' : List Int} {j' : Nat} {w' r : Visit} {σ ρ : Name ↪ Name} {s t : Store}
    {B : Boundary} {caller : Caller} :
    vs'[j']? = some w' → e'.graph.PathTo e'.root ns' j' → cs' j' ++ [0] = label →
    route (vs'.map Visit.finished) (ns' ++ [(j' : Int)]) =
      (route (vs.map Visit.finished) ns).filter (fun x => x.2 == 0) →
    Frame.Suspended s₀ (e'.graph.factsOn (ns' ++ [(j' : Int)])) (e.graph.factsOn ns) j' w' r σ ρ s t
      B caller g f →
      Shadows s₀ e vs e' vs' cs' label ns g f

end Explorer

namespace Explorer.Refinement

variable {s₀ : Store} {e e' : Explorer} {vs vs' : List Visit} {cs cs' : Nat → List Nat}
  {i j c j' : Nat} {v w w' : Visit} {ns ns' : List Int} {g : Graph}

section

variable (h : Refinement s₀ e vs cs e' vs' cs')
include h

theorem inlineCalls_eq : e'.options.inlineCalls = false := by
  rw [h.options]

theorem maxUnroll_eq : e'.options.maxUnroll = e.options.maxUnroll := by
  rw [h.options]

theorem valid (hw' : vs'[j']? = some w') : w'.Valid e'.options e.program j' := by
  have hvalid := h.right.logged.valid j' w' hw'
  rwa [h.program] at hvalid

/-- A frame of the entry function that a visit of the second log hands on is visited there, if the
frame that it shadows is visited in the first log. -/
theorem level_next {f' : Frame} (hw' : vs'[j']? = some w') (hp' : e'.graph.PathTo e'.root ns' j')
    (hf' : w'.next[c]? = some f') (hroute : route (vs'.map finished) (ns' ++ [(j' : Int)]) =
      (route (vs.map finished) ns).filter (fun x => x.2 == 0)) (hw : vs[j]? = some w)
    (hf : Frame.Shadowed s₀ (e'.graph.factsOn (ns' ++ [(j' : Int)])) (e.graph.factsOn ns)
      (w'.graph j') f' g w.frame.unnumbered) :
    Shadows s₀ e vs e' vs' cs' (cs' j' ++ [c]) ns g w.frame := by
  have hadm : e.options.admits w.frame.unnumbered = true := h.left.logged.admits_frame hw
  obtain ⟨k, u, hu, rfl, hparent, hcs⟩ := h.right.choices.visited h.done j' c w' f' hw' hf'
    (hf.admits h.maxUnroll_eq hadm)
  obtain ⟨j₀, hj₀, hlt⟩ := h.right.logged.parents k u j' hu hparent
  obtain rfl := Int.ofNat.inj hj₀
  exact .level hu (h.right.logged.path_step hp' hu hparent) hcs hroute
    (h.right.logged.ordered j' k w' u hlt hw' hu) hf.of_unnumbered

/-- The first frame is its own shadow. -/
theorem first (hw : vs[0]? = some w) : Shadows s₀ e vs e' vs' cs' [] [] s₀.graph w.frame := by
  have hfirst := h.left.logged.first_of_zero hw
  have hsame : firstFrame e' s₀ = firstFrame e s₀ := by rw [firstFrame, firstFrame, h.entry]
  have hself : Frame.Shadowed s₀ [] [] s₀.graph (firstFrame e' s₀) s₀.graph w.frame.unnumbered := by
    rw [hfirst, hsame]
    exact ⟨rfl, List.Sublist.refl _, _, _, .refl Name, .refl Name, h.left.logged.resumes_first,
      h.left.logged.resumes_first, Nat.le_refl _, fun _ _ => ⟨rfl, rfl⟩,
      fun c hc => absurd hc List.not_mem_nil⟩
  obtain ⟨w', hw'⟩ := h.right.logged.exists_first h.done
    (hself.admits h.maxUnroll_eq (h.left.logged.admits_frame hw))
  rw [← h.right.logged.first_of_zero hw'] at hself
  exact .level hw' (h.right.logged.path_root hw') h.right.choices.zero rfl
    (h.right.logged.based 0 w' hw') hself.of_unnumbered

end

section Level

variable {ns' : List Int} {j' : Nat} {w' : Visit} {g' : Graph}

/-- Visits of a frame and of its shadow go through the same blocks of the entry function. -/
theorem route_level (hv : vs[i]? = some v) (hw' : vs'[j']? = some w')
    (hroute : route (vs'.map finished) ns' =
      (route (vs.map finished) ns).filter (fun x => x.2 == 0))
    {F' F : List Expr} (hf : Frame.Shadowed s₀ F' F g' w'.frame g v.frame) :
    route (vs'.map finished) (ns' ++ [(j' : Int)]) =
      (route (vs.map finished) (ns ++ [(i : Int)])).filter (fun x => x.2 == 0) := by
  have hdepth : v.frame.depth = 0 := congrArg List.length hf.callers
  rw [Logged.route_snoc ns' hw', Logged.route_snoc ns hv, List.filter_append, hroute,
    hf.location_eq, hf.depth_eq, hdepth]
  rfl

variable (h : Refinement s₀ e vs cs e' vs' cs') (hw' : vs'[j']? = some w')
  (hg' : g'.Extends w'.entered.store.graph) (hg : g.Extends v.entered.store.graph)
  (hmemory : v.frame.memory.Confined .start 0)
  (hf : Frame.Shadowed s₀ (e'.graph.factsOn ns') (e.graph.factsOn ns) g' w'.frame g v.frame)
include h hw' hg' hg hmemory hf

/-- A visit of the entry function and its shadow do the same up to a call, and what the shadow
asserts is asserted by the visit. -/
theorem exists_tied (hv : vs[i]? = some v) :
    ∃ (r : Visit) (σ ρ : Name ↪ Name) (s t : Store), r.Renamed σ j' w' ∧ r.frame.callers = [] ∧
      r.Tied ρ i v s t ∧
      Bond s₀ s.graph.decls.length σ ρ (e'.graph.factsOn (ns' ++ [(j' : Int)]))
        (e.graph.factsOn (ns ++ [(i : Int)])) ∧
      r.PartsAt ρ i v s t := by
  obtain ⟨r, σ, ρ, s, t, hr', hentry, htied, hbond, hparts⟩ := hf.exists_tied (h.valid hw')
    (h.left.logged.valid i v hv) h.inlineCalls_eq hmemory hg' hg (h.right.recorded.clean _ _ hw')
    (h.left.recorded.clean _ _ hv)
  have hbond := hbond.append (htied.carries hr' h.left.logged h.right.logged hv hw')
  rw [← Graph.factsOn_append, ← Graph.factsOn_append] at hbond
  exact ⟨r, σ, ρ, s, t, hr', hentry, htied, hbond, hparts⟩

/-- A visit of the entry function and its shadow go on in the same way, or a call is entered. -/
theorem level_step (hstep : Handed e vs cs ns i v c j w) (hp' : e'.graph.PathTo e'.root ns' j')
    (hroute : route (vs'.map finished) ns' =
      (route (vs.map finished) ns).filter (fun x => x.2 == 0)) :
    Shadows s₀ e vs e' vs' cs' (cs' j' ++ [c]) (ns ++ [(i : Int)]) (v.graph i) w.frame := by
  obtain ⟨r, σ, ρ, s, t, hr', hentry, htied, hbond, hparts⟩ :=
    h.exists_tied hw' hg' hg hmemory hf hstep.parent
  have hroute := route_level hstep.parent hw' hroute hf
  have hv := h.left.logged.valid i v hstep.parent
  cases hparts with
  | ends hs hr =>
    rw [hs] at hbond
    obtain ⟨f', hf', hshadowed⟩ := hr'.exists_shadowed hr hentry (h.valid hw') hv h.inlineCalls_eq
      hf.path hbond hstep.next
    exact h.level_next hw' hp' hf' hroute hstep.child hshadowed
  | @calls B caller f hcall hfunction hnext hnext' hcallers hB =>
    -- the callee is the only frame that is handed on
    have hw := hstep.next
    rw [hnext', List.getElem?_singleton] at hw
    split at hw
    · next hc =>
      obtain rfl := hc
      obtain rfl := Option.some.inj hw
      have hcallers : w.frame.callers = [caller] := hcallers
      have hdepth : w.frame.depth = 1 := congrArg List.length hcallers
      refine .below hw' hp' rfl hroute ⟨hr', hentry, hcall, hfunction, hnext, htied.extends_graph,
        by rw [hcallers]; rfl, hdepth ▸ hB, ?_, hbond⟩
      have hpath : w.frame.path = v.frame.location :: v.frame.path :=
        (hv.succeeds (List.mem_of_getElem? hstep.next)).path
      rw [hpath, Frame.visit, hf.location_eq]
      exact hf.path.cons_cons _
    · cases hw

end Level

/-- A visit inside of a call stays inside, or returns to where its shadow has gone on. -/
theorem below_step (h : Refinement s₀ e vs cs e' vs' cs') (hstep : Handed e vs cs ns i v c j w)
    {r : Visit} {s t : Store} {B : Boundary} {caller : Caller} (hw' : vs'[j']? = some w')
    (hp' : e'.graph.PathTo e'.root ns' j')
    (hroute : route (vs'.map finished) (ns' ++ [(j' : Int)]) =
      (route (vs.map finished) ns).filter (fun x => x.2 == 0))
    (hg : g.Extends v.entered.store.graph) (hv : v.frame.depth < 0x100000000)
    (hw : w.frame.depth < 0x100000000)
    (hf : Frame.Suspended s₀ (e'.graph.factsOn (ns' ++ [(j' : Int)])) (e.graph.factsOn ns) j' w' r
      σ ρ s t B caller g v.frame) :
    Shadows s₀ e vs e' vs' cs' (cs' j' ++ [0]) (ns ++ [(i : Int)]) (v.graph i) w.frame := by
  have hvalid := h.left.logged.valid i v hstep.parent
  have hmem := List.mem_of_getElem? hstep.next
  have hpos := Frame.depth_pos hf.callers
  have hroute : route (vs'.map finished) (ns' ++ [(j' : Int)]) =
      (route (vs.map finished) (ns ++ [(i : Int)])).filter (fun x => x.2 == 0) := by
    have hne : (v.frame.depth == 0) = false := beq_eq_false_iff_ne.mpr (Nat.ne_of_gt hpos)
    rw [Logged.route_snoc ns hstep.parent, List.filter_append, hroute, List.filter_cons, hne]
    exact (List.append_nil _).symm
  have hfacts : e.graph.factsOn ns ⊆ e.graph.factsOn (ns ++ [(i : Int)]) := by
    rw [Graph.factsOn_append]
    exact List.subset_append_left _ _
  have hf := hf.mono hfacts
  -- only a return of the outermost callee leaves the call
  rcases hf.stack hvalid hmem with ⟨hnil, hcall⟩ | hcallers
  · obtain ⟨f', hf', hshadowed⟩ := hf.exists_shadowed hvalid hmem (h.valid hw') hg hnil hcall
    exact h.level_next hw' hp' hf' hroute hstep.child hshadowed
  · have hnames : B.names ≤ v.entered.store.graph.decls.length := by
      rw [hf.call.names]
      exact (hf.extends_.trans hg).length_le
    have hmemory := hstep.memory_confined h.left.logged (hf.call.depth ▸ hpos) (.inl hv) hnames
      hf.memory
    have hnext := hf.goOn hvalid hmem hg hcallers hmemory hw
    exact .below hw' hp' rfl hroute { hnext with }

/-- Every visit that is not inside of too many calls is shadowed. -/
theorem exists_shadows (h : Refinement s₀ e vs cs e' vs' cs') (hp : e.graph.PathTo e.root ns j)
    (hw : vs[j]? = some w) (hs : Shallow vs (ns ++ [(j : Int)])) :
    ∃ g, g.Extends w.entered.store.graph ∧
      Shadows s₀ e vs e' vs' cs' (callerChoices vs cs j) ns g w.frame := by
  refine h.left.path_induction (P := fun ns j w => Shallow vs (ns ++ [(j : Int)]) →
    ∃ g, g.Extends w.entered.store.graph ∧
      Shadows s₀ e vs e' vs' cs' (callerChoices vs cs j) ns g w.frame)
    (fun w hw _ => ?_) ?_ hp hw hs
  · rw [callerChoices_zero]
    exact ⟨_, h.left.logged.based 0 w hw, h.first hw⟩
  · intro ns i v c j w hstep ih hs
    obtain ⟨hs, hlt⟩ := (Shallow.snoc_iff hstep.child).mp hs
    obtain ⟨g, hg, hshadows⟩ := ih hs
    refine ⟨v.graph i, h.left.logged.ordered i j v w hstep.lt hstep.parent hstep.child, ?_⟩
    rw [hstep.callerChoices]
    -- the entry function makes one more choice, or the choice is made inside of a call
    cases hshadows with
    | level hw' hp' hcs hroute hg' hf =>
      have hdepth : v.frame.depth = 0 := congrArg List.length hf.callers
      have hmemory := h.left.memory_confined hstep.path hstep.parent
      rw [if_pos hdepth, ← hcs]
      exact h.level_step hw' hg' hg (hdepth ▸ hmemory) hf hstep hp' hroute
    | below hw' hp' hcs hroute hf =>
      rw [if_neg (Nat.ne_of_gt (Frame.depth_pos hf.callers)), List.append_nil, ← hcs]
      exact h.below_step hstep hw' hp' hroute hg ((Shallow.snoc_iff hstep.parent).mp hs).2 hlt hf

end Explorer.Refinement

/-! ## Maps of names -/

namespace Expr

theorem occurrences_rename (x : Expr) : (x.rename ρ).occurrences = x.occurrences.map ρ := by
  induction x with
  | const c | name n s => rfl
  | not x ih => rw [rename, occurrences_not, occurrences_not, ih]
  | neg x ih => rw [rename, occurrences_neg, occurrences_neg, ih]
  | ite c t x ihc iht ihx =>
    rw [rename, occurrences_ite, occurrences_ite, ihc, iht, ihx, List.map_append, List.map_append]
  | binary op l r ihl ihr =>
    rw [rename, occurrences_binary, occurrences_binary, ihl, ihr, List.map_append]

end Expr

/-- Two renamings give a map of the names under the one to those under the other. -/
theorem exists_embedding {l b : Nat} (hρ : ∀ n, n.index < l → (ρ n).index < b) :
    ∃ τ : Name ↪ Name, ∀ n, n.index < l → τ (σ n) = ρ n := by
  let old : {n : Name // n.index < l} → Name := fun n => σ n
  let new : {n : Name // n.index < l} → Name := fun n => ρ n
  -- all other names are sent beyond the bound
  let far : Name → Name := fun x => ⟨x.index + b⟩
  have hold : Function.Injective old := σ.injective.comp Subtype.val_injective
  have hapart : ∀ n x, new n ≠ far x := by
    intro n x heq
    have hlt : (new n).index < b := hρ n n.2
    rw [heq] at hlt
    exact absurd hlt (Nat.not_lt.mpr (Nat.le_add_left b x.index))
  have hinj : Function.Injective (Function.extend old new far) := by
    intro x y hxy
    by_cases hx : ∃ n, old n = x <;> by_cases hy : ∃ n, old n = y
    · obtain ⟨n, rfl⟩ := hx
      obtain ⟨n', rfl⟩ := hy
      rw [hold.extend_apply, hold.extend_apply] at hxy
      rw [Subtype.ext (ρ.injective hxy)]
    · obtain ⟨n, rfl⟩ := hx
      rw [hold.extend_apply, Function.extend_apply' _ _ _ hy] at hxy
      exact absurd hxy (hapart n y)
    · obtain ⟨n, rfl⟩ := hy
      rw [hold.extend_apply, Function.extend_apply' _ _ _ hx] at hxy
      exact absurd hxy.symm (hapart n x)
    · rw [Function.extend_apply' _ _ _ hx, Function.extend_apply' _ _ _ hy] at hxy
      exact Name.ext (Nat.add_right_cancel (congrArg Name.index hxy))
  exact ⟨⟨_, hinj⟩, fun n hn => hold.extend_apply new far ⟨n, hn⟩⟩

/-- A node at the end of a path has at most the behaviour of a node at the end of a path of another
graph.  The map takes the names that the guards and assertions of the second path are about to names
of the first graph, and leaves the entry parameters alone.  Every model of the guards and assertions
on the first path satisfies those on the second path through the map.  What is dereferenced at the
first node is the image of something that is dereferenced at the second one. -/
structure Graph.Refines (τ : Name ↪ Name) (g : Graph) (ns : List Int) (n : Int) (g' : Graph)
    (ns' : List Int) (n' : Int) : Prop where
  parameters : ∀ x d', g'.declaration? x = some d' → d'.origin ≠ none → τ x = x ∧
    ∃ d, g.declaration? x = some d ∧ d.origin = d'.origin ∧ d.sort = d'.sort
  names : ∀ c ∈ g'.factsOn (ns' ++ [n']), ∀ x ∈ c.occurrences, ∃ d d',
    g.declaration? (τ x) = some d ∧ g'.declaration? x = some d' ∧ d.sort = d'.sort
  models : ∀ m : Model, (∀ c ∈ g.factsOn (ns ++ [n]), m.Satisfies c) →
    ∀ c ∈ g'.factsOn (ns' ++ [n']), m.Satisfies (c.rename τ)
  tags : ∀ x d, g.declaration? x = some d → d.isDerefedAt n = true →
    ∃ y d', τ y = x ∧ g'.declaration? y = some d' ∧ d'.isDerefedAt n' = true

namespace Explorer

variable {s₀ : Store} {e e' : Explorer} {vs vs' : List Visit} {cs cs' : Nat → List Nat}
  {j : Nat} {w : Visit} {ns : List Int}

namespace Refinement

section Maps

variable {j' : Nat} {r w' : Visit} {s t : Store}

section

variable (h : Refinement s₀ e vs cs e' vs' cs') (hw : vs[j]? = some w) (hw' : vs'[j']? = some w')
  (hr' : r.Renamed σ j' w') (htied : r.Tied ρ j w s t)
include h hw hw' hr' htied

/-- The names of a replay are declared in both graphs. -/
theorem exists_declarations {n : Name} (hn : n.index < s.graph.decls.length) :
    ∃ d d', e.graph.declaration? (ρ n) = some d ∧ e'.graph.declaration? (σ n) = some d' ∧
      d.sort = d'.sort := by
  have hd := List.getElem?_eq_getElem hn
  obtain ⟨d₁, hd₁, hdd₁⟩ := htied.store.decls n _ hd
  obtain ⟨d, hd₂, hext⟩ :=
    (htied.extends_graph.trans (h.left.logged.final j w hw)).decls _ d₁ hd₁
  obtain ⟨d₃, hd₃, hgain⟩ := htied.quiet.decls n.index _ hd
  obtain ⟨d₄, hd₄, hdd₄⟩ := hr'.left.decls n d₃ hd₃
  obtain ⟨d', hd', hext'⟩ := (h.right.logged.final j' w' hw').decls _ d₄ hd₄
  exact ⟨d, d', hd₂, hd', by rw [hext.sort, hdd₁.sort, hext'.sort, hdd₄.sort, hgain.sort]⟩

/-- What is tagged at a node is tagged at the node of its shadow. -/
theorem exists_tag {x : Name} {d : Declaration} (hd : e.graph.declaration? x = some d)
    (htag : d.isDerefedAt j = true) :
    ∃ n d', n.index < s.graph.decls.length ∧ ρ n = x ∧ e'.graph.declaration? (σ n) = some d' ∧
      d'.isDerefedAt j' = true := by
  obtain ⟨tag, hmem, hnode⟩ := List.any_eq_true.mp htag
  obtain ⟨v, d₁, hv, hd₁, hmem₁⟩ :=
    h.left.recorded.tags x.index j d tag hd hmem (beq_iff_eq.mp hnode)
  obtain rfl := Option.mem_unique hw hv
  have hne : d₁.spansAt j ≠ [] :=
    Declaration.isDerefedAt_iff.mp (List.any_eq_true.mpr ⟨tag, hmem₁, hnode⟩)
  have hvalid := h.left.logged.valid j w hw
  obtain ⟨_, -, -, hev, -, -⟩ := hvalid.evolves hvalid.scope
  obtain ⟨n, d₂, hn, hx, hd₂, hne₂⟩ := htied.exists_tag hev.scope.tidy hd₁ hne
  obtain ⟨d₃, hd₃, hdd₃⟩ := hr'.left.decls n d₂ hd₂
  obtain ⟨d', hd', hext⟩ := (h.right.logged.final j' w' hw').decls _ d₃ hd₃
  have htag₃ : d₃.isDerefedAt j' = true := by
    rw [hdd₃.isDerefedAt]
    exact Declaration.isDerefedAt_iff.mpr hne₂
  obtain ⟨tag', hmem', hnode'⟩ := List.any_eq_true.mp htag₃
  exact ⟨n, d', hn, hx, hd', List.any_eq_true.mpr ⟨tag', hext.derefs hmem', hnode'⟩⟩

theorem exists_refines {ns' : List Int} (hbond : Bond s₀ s.graph.decls.length σ ρ
      (e'.graph.factsOn (ns' ++ [(j' : Int)])) (e.graph.factsOn (ns ++ [(j : Int)]))) :
    ∃ τ, Graph.Refines τ e.graph ns j e'.graph ns' j' := by
  have hdeclared : ∀ n, n.index < s.graph.decls.length → ∃ d d',
      e.graph.declaration? (ρ n) = some d ∧ e'.graph.declaration? (σ n) = some d' ∧
        d.sort = d'.sort := fun n hn => h.exists_declarations hw hw' hr' htied hn
  have hlt : ∀ n, n.index < s.graph.decls.length → (ρ n).index < e.graph.decls.length := by
    intro n hn
    obtain ⟨d, -, hd, -⟩ := hdeclared n hn
    exact lt_length_of_getElem? hd
  obtain ⟨τ, hτ⟩ := exists_embedding (σ := σ) hlt
  refine ⟨τ, fun x d' hd' horigin => ?_, fun c hc x hx => ?_, fun m hm c hc => ?_,
    fun x d hd htag => ?_⟩
  · have hlt := h.right.logged.origins x.index d' hd' horigin
    obtain ⟨hσx, hρx⟩ := hbond.fixed x hlt
    have hx := hτ x (Nat.lt_of_lt_of_le hlt hbond.le)
    rw [hσx, hρx] at hx
    have hd₀ := List.getElem?_eq_getElem hlt
    obtain ⟨d, hd, hext⟩ := h.left.logged.base.decls x.index _ hd₀
    obtain ⟨d₁, hd₁, hext'⟩ := h.right.logged.base.decls x.index _ hd₀
    obtain rfl := Option.mem_unique hd₁ hd'
    exact ⟨hx, d, hd, hext.origin.trans hext'.origin.symm, hext.sort.trans hext'.sort.symm⟩
  · obtain ⟨y, hy, rfl, -⟩ := hbond.carries c hc
    rw [Expr.occurrences_rename] at hx
    obtain ⟨n, hn, rfl⟩ := List.mem_map.mp hx
    obtain ⟨-, hlt⟩ := hy.mem_occurrences hn
    rw [hτ n hlt]
    exact hdeclared n hlt
  · obtain ⟨y, hy, rfl, hmem⟩ := hbond.carries c hc
    have heq : (y.rename σ).rename τ = y.rename ρ := by
      rw [Expr.rename_rename]
      exact hy.rename_congr fun n _ hn => hτ n hn
    rw [heq]
    exact hm _ hmem
  · obtain ⟨n, d', hn, rfl, hd', htag'⟩ := h.exists_tag hw hw' hr' htied hd htag
    exact ⟨σ n, d', hτ n hn, hd', htag'⟩

end

end Maps

end Refinement

/-- If no calls are followed, a path goes through the blocks of a walk. -/
theorem Charted.exists_walk (h : Charted s₀ e vs cs) (hinline : e.options.inlineCalls = false)
    (hp : e.graph.PathTo e.root ns j) (hw : vs[j]? = some w) :
    ∃ bs, w.frame.StandsAt e.entry (cs j) bs ∧
      route (vs.map finished) (ns ++ [(j : Int)]) =
        e.entry.places (bs ++ [w.frame.block]) := by
  have hplace : ∀ {f : Frame} {cs : List Nat} {bs : List Int}, f.StandsAt e.entry cs bs →
      (f.location, f.depth) = (⟨e.entry.name, f.block⟩, 0) := by
    intro f cs bs hf
    rw [Frame.location, Frame.depth, hf.function, hf.callers]
    rfl
  refine h.path_induction (P := fun ns j w => ∃ bs, w.frame.StandsAt e.entry (cs j) bs ∧
    route (vs.map finished) (ns ++ [(j : Int)]) = e.entry.places (bs ++ [w.frame.block]))
    (fun w hw => ?_) ?_ hp hw
  · obtain ⟨bs, hstands, -⟩ := h.choices.standsAt h.logged hinline hw
    obtain rfl : bs = [] := by
      have hpath : w.frame.path = [] := congrArg Frame.path (h.logged.first_of_zero hw)
      rw [hstands.path] at hpath
      simpa using hpath
    refine ⟨[], hstands, ?_⟩
    rw [Logged.route_snoc [] hw, hplace hstands]
    rfl
  · rintro ns i v c j w hstep ⟨bs, hstands, hroute⟩
    have hvalid := h.logged.valid i v hstep.parent
    have hnext := (hstands.next hinline hvalid.block hvalid.run).2 c _ hstep.next
    have hnext : w.frame.StandsAt e.entry (cs j) (bs ++ [v.frame.block]) := by
      rw [hstep.choices]
      exact { hnext with }
    refine ⟨_, hnext, ?_⟩
    rw [Logged.route_snoc _ hstep.child, hroute, hplace hnext, Function.places_append _ (bs ++ _)]

/-- Two successful explorations of one task, of which one follows no calls. -/
theorem exists_refinement (he : e.Unused) (he' : e'.Unused)
    (hoptions : e'.options = { e.options with inlineCalls := false })
    (hprogram : e'.program = e.program) (hentry : e'.entry = e.entry) (hrun : e.trace.1 = .ok ())
    (hrun' : e'.trace.1 = .ok ()) :
    ∃ s₀ vs cs vs' cs', Refinement s₀ e.trace.2.1 vs cs e'.trace.2.1 vs' cs' ∧
      e.trace.2.2 = vs.map finished ∧ e'.trace.2.2 = vs'.map finished ∧
      e.trace.2.1.entry = e.entry := by
  obtain ⟨s₀, vs, hl, hr, -, -, hframes, hopt, hprog, hent⟩ := exists_record he hrun
  obtain ⟨s₀', vs', hl', hr', -, hdone', hframes', hopt', hprog', hent'⟩ := exists_record he' hrun'
  obtain ⟨cs, hcs⟩ := hl.exists_choices
  obtain ⟨cs', hcs'⟩ := hl'.exists_choices
  have hsame := hent'.trans (hentry.trans hent.symm)
  obtain rfl := hl.entered_unique hl' hsame
  exact ⟨s₀', vs, cs, vs', cs', ⟨⟨hl, hr, hcs⟩, ⟨hl', hr', hcs'⟩, by rw [hopt, hopt', hoptions],
    by rw [hprog, hprog', hprogram], hsame, hdone'⟩, hframes, hframes', hent⟩

/-- Following calls refines skipping them.  Whatever node of the entry function the exploration with
calls arrives at, the one without calls has a node to which the same blocks and choices of the entry
function lead.  An injective map takes the names of the path to this node to names of the other
graph.  The entry parameters stay as they are, every model of the guards and assertions on the path
with the calls satisfies those on the path without them, and every pointer that is dereferenced at
the node is dereferenced at its counterpart.

The condition on the path is there because slots keep the low 32 bits of their depth only: inside of
so many calls, a callee would get the slots of the entry function. -/
theorem inlining_refines (he : e.Unused) (he' : e'.Unused)
    (hoptions : e'.options = { e.options with inlineCalls := false })
    (hprogram : e'.program = e.program) (hentry : e'.entry = e.entry) (hrun : e.trace.1 = .ok ())
    (hrun' : e'.trace.1 = .ok ()) :
    ∃ walk walk' : Int → List Nat,
      Labels e.trace.2.2 e.trace.2.1.graph e.trace.2.1.root walk ∧
      Labels e'.trace.2.2 e'.trace.2.1.graph e'.trace.2.1.root walk' ∧
      ∀ ns n l, e.trace.2.1.graph.PathTo e.trace.2.1.root ns n →
        placeOf e.trace.2.2 n = some (l, 0) →
        (∀ x ∈ route e.trace.2.2 (ns ++ [n]), x.2 < 0x100000000) →
        ∃ ns' n' bs b, e'.trace.2.1.graph.PathTo e'.trace.2.1.root ns' n' ∧ walk' n' = walk n ∧
          e.entry.Walks (walk n) bs b ∧
          route e'.trace.2.2 (ns' ++ [n']) = e.entry.places (bs ++ [b]) ∧
          (route e.trace.2.2 (ns ++ [n])).filter (fun x => x.2 == 0) =
            e.entry.places (bs ++ [b]) ∧
          ∃ τ, Graph.Refines τ e.trace.2.1.graph ns n e'.trace.2.1.graph ns' n' := by
  obtain ⟨s₀, vs, cs, vs', cs', h, hframes, hframes', hent⟩ :=
    exists_refinement he he' hoptions hprogram hentry hrun hrun'
  rw [hframes, hframes', ← hent]
  generalize e.trace.2.1 = E at *
  generalize e'.trace.2.1 = E' at *
  refine ⟨_, _, h.left.labels, h.right.labels, fun ns n l hp hplace hs => ?_⟩
  obtain ⟨j, w, rfl, hw⟩ := h.left.logged.visit_of_path hp
  rw [Logged.placeOf_eq hw] at hplace
  have hdepth : w.frame.depth = 0 := (Prod.mk.inj (Option.some.inj hplace)).2
  obtain ⟨g, hg, hshadows⟩ := h.exists_shadows hp hw hs
  cases hshadows with
  | below hw' hp' hcs hroute hf => exact absurd hdepth (Nat.ne_of_gt (Frame.depth_pos hf.callers))
  | @level ns' j' w' g' hw' hp' hcs hroute hg' hf =>
    have hmemory := h.left.memory_confined hp hw
    obtain ⟨r, σ, ρ, s, t, hr', -, htied, hbond, -⟩ :=
      h.exists_tied hw' hg' hg (hdepth ▸ hmemory) hf hw
    obtain ⟨bs, hstands, hplaces⟩ := h.right.exists_walk h.inlineCalls_eq hp' hw'
    have hroute := Refinement.route_level hw hw' hroute hf
    have hlabel := h.right.callerChoices_eq h.inlineCalls_eq hw'
    rw [h.entry] at hstands hplaces
    refine ⟨ns', j', bs, w'.frame.block, hp', hlabel.trans hcs, ?_, hplaces,
      hroute.symm.trans hplaces, h.exists_refines hw hw' hr' htied hbond⟩
    rw [Int.toNat_natCast, ← hcs]
    exact hstands.walk

/-! ## A pointer that comes back from a call -/

/-- Reads behind the pointer that a call gives back for its parameter. -/
def echoed : Explorer where
  options := { inlineCalls := true }
  program := ⟨[{
    name := "echo"
    locals := [⟨"", .pointerTo .integer⟩, ⟨"a", .pointerTo .integer⟩]
    argCount := 1
    blocks := [⟨[.assign ⟨0, 0⟩ (.use (.copy ⟨1, 0⟩)) {}], .return⟩] }]⟩
  entry := {
    name := "read"
    locals := [⟨"", .integer⟩, ⟨"p", .pointerTo .integer⟩, ⟨"q", .pointerTo .integer⟩]
    argCount := 1
    blocks := [
      ⟨[], .call "echo" [.copy ⟨1, 0⟩] (some ⟨2, 0⟩) 1 {}⟩,
      ⟨[.assign ⟨0, 0⟩ (.use (.copy ⟨2, 1⟩)) {}], .return⟩] }

/-- The exploration without the call. -/
def unechoed : Explorer :=
  { echoed with options := { echoed.options with inlineCalls := false } }

theorem echoed_path : echoed.trace.2.1.graph.PathTo echoed.trace.2.1.root [0, 1] 2 := by
  have hroot : echoed.trace.2.1.root = 0 := by decide +kernel
  have h₀ : (echoed.trace.2.1.graph.node? 0).isSome = true := by decide +kernel
  have h₁ : echoed.trace.2.1.graph.Links 0 1 := Graph.links_of_any (by decide +kernel)
  have h₂ : echoed.trace.2.1.graph.Links 1 2 := Graph.links_of_any (by decide +kernel)
  obtain ⟨n, hn⟩ := Option.isSome_iff_exists.mp h₀
  rw [hroot]
  exact ((Graph.PathTo.root hn).step h₁).step h₂

/-- The read after the call is reached without the call as well. -/
theorem echoed_refines : echoed.trace.1 = .ok () ∧ unechoed.trace.1 = .ok () ∧
    (echoed.trace.2.1.graph.decls.any fun d => d.isDerefedAt 2) = true ∧
    ∃ ns' n' τ, unechoed.trace.2.1.graph.PathTo unechoed.trace.2.1.root ns' n' ∧
      route unechoed.trace.2.2 (ns' ++ [n']) = [(⟨"read", 0⟩, 0), (⟨"read", 1⟩, 0)] ∧
      Graph.Refines τ echoed.trace.2.1.graph [0, 1] 2 unechoed.trace.2.1.graph ns' n' := by
  have hrun : echoed.trace.1 = .ok () := by decide +kernel
  have hrun' : unechoed.trace.1 = .ok () := by decide +kernel
  have hunused : echoed.Unused := .new ..
  have hunused' : unechoed.Unused := .new ..
  have hplace : placeOf echoed.trace.2.2 2 = some (⟨"read", 1⟩, 0) := by decide +kernel
  have hroute : route echoed.trace.2.2 ([0, 1] ++ [2]) =
      [(⟨"read", 0⟩, 0), (⟨"echo", 0⟩, 1), (⟨"read", 1⟩, 0)] := by decide +kernel
  obtain ⟨walk, walk', -, -, hrefines⟩ := inlining_refines hunused hunused' rfl rfl rfl hrun hrun'
  obtain ⟨ns', n', bs, b, hp', -, -, hroute', hfilter, τ, hτ⟩ :=
    hrefines [0, 1] 2 _ echoed_path hplace (by rw [hroute]; decide)
  rw [hroute] at hfilter
  exact ⟨hrun, hrun', by decide +kernel, ns', n', τ, hp', hroute'.trans hfilter.symm, hτ⟩

end Explorer

end NullPath
