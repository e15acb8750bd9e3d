import NullPath.Proofs.LoweredAssignment
import NullPath.Proofs.SanityCheck

/-!
# Explorations of lowered programs

Functions in single-assignment form that fit together are lowered to a program.  An exploration of
it, with calls followed or not, fails only with errors about unsupported constructs, with two
exceptions.  Every lowered call waits for a result, but only a function with exactly one result
assigns its result slot, so a followed call of any other function fails when it returns.  And a load
or a store through the result of a call fails if the type of the result has no sort, since then the
local of the result is never assigned.

* `Ssa.Linked.sound`, `Ssa.Linked.callsFit`: what the lowered functions satisfy.
* `Frame.LacksResult`, `Frame.FollowsUntracked`: the exceptions.
* `Explorer.lowered_step_fails`: how steps fail.
-/

namespace NullPath

/-- Well-formed functions that fit together: a call of one of them by its name passes as many
arguments as there are parameters, and none has the text of a call as its name. -/
structure Ssa.Linked (fs : List Ssa.Function) : Prop where
  wellFormed : ∀ f ∈ fs, f.WellFormed
  arguments : ∀ f ∈ fs, ∀ call ∈ f.calls, ∀ f' ∈ fs, call.1.name? = some f'.name →
    call.2.length = f'.params.length
  named : ∀ f ∈ fs, ∀ call ∈ f.calls, ∀ f' ∈ fs, f'.name ≠ f.callText call.1 call.2

namespace Ssa.Linked

variable {fs : List Ssa.Function} {gs : List NullPath.Function} {g : NullPath.Function}

/-- A call that goes by the name of a function passes operands for all of its arguments. -/
theorem length_callParts (h : Linked fs) {f f' : Ssa.Function} (hf : f ∈ fs) (hf' : f' ∈ fs)
    {callee : Callee} {vs : List Value} (hcall : (callee, vs) ∈ f.calls)
    (hname : f'.name = (f.callParts callee vs).1) :
    (f.callParts callee vs).2.length = f'.params.length := by
  have htext := h.named f hf _ hcall f' hf'
  unfold Function.callParts at hname ⊢
  split at hname
  · exact absurd hname htext
  · next xs hxs =>
    have hlen := (Function.operands_eq_ok hxs).length_eq
    cases callee with
    | method receiver name | builtin name => exact absurd hname htext
    | static name =>
      by_cases hempty : name = ""
      · simp only [hempty, if_true] at hname htext
        exact absurd hname htext
      · simp only [if_neg hempty] at hname
        exact hlen.symm.trans (h.arguments f hf _ hcall f' hf' (by rw [hname]; rfl))

variable (h : Linked fs) (hlower : List.Forall₂ (fun f g => f.lower = .ok g) fs gs)

include h hlower

theorem coded (hg : g ∈ gs) : ∃ f ∈ fs, f.lower = .ok g ∧ f.Coded g := by
  obtain ⟨f, hf, hfg⟩ := Function.exists_of_forall₂ hlower g hg
  exact ⟨f, hf, hfg, Function.coded_of_lower hfg (h.wellFormed f hf).ends
    (h.wellFormed f hf).inside⟩

theorem sound (hg : g ∈ gs) (hsize : g.Addressable) :
    g.Sound fun st => ∃ f ∈ fs, f.lower = .ok g ∧ f.Strays st := by
  obtain ⟨f, hf, hfg, hcoded⟩ := h.coded hlower hg
  exact ⟨hsize, Function.assignsFirst (h.wellFormed f hf) hcoded fun st hst => ⟨f, hf, hfg, hst⟩⟩

/-- Where a path of a lowered function leads, its code is safe unless it strays. -/
theorem safe {k : Int} {E : Set Int} {b : NullPath.Block} (hg : g ∈ gs) (harr : g.Arrives k E)
    (hb : g.block? k = some b) :
    ∃ f ∈ fs, f.lower = .ok g ∧ Function.Safe f.Strays f g b E := by
  obtain ⟨f, hf, hfg, hcoded⟩ := h.coded hlower hg
  obtain ⟨b', hb', hsafe⟩ := Function.safe_of_arrives (h.wellFormed f hf) hcoded
    (fun _ hst => hst) harr
  obtain rfl := Option.mem_unique hb hb'
  exact ⟨f, hf, hfg, hsafe⟩

theorem callsFit {gs' : List NullPath.Function} (hsub : ∀ g ∈ gs', g ∈ gs) :
    Program.CallsFit ⟨gs⟩ gs' := by
  intro g hg k E blk harr hblk callee args dest next span hterm g' hfound
  obtain ⟨f, hf, -, hsafe⟩ := h.safe hlower (hsub g hg) harr hblk
  obtain ⟨f', hf', -, hcoded'⟩ := h.coded hlower (List.mem_of_find?_eq_some hfound)
  obtain ⟨call, hcall, hparts⟩ := hsafe.calls _ _ _ _ _ hterm
  have hname : g'.name = callee := by simpa using List.find?_some hfound
  have hlen := h.length_callParts hf hf' hcall (hcoded'.name.symm.trans (by rw [hname, ← hparts]))
  rw [hcoded'.argCount, ← hlen, ← hparts]

end Ssa.Linked

/-- The frame is inside of a followed call and returns from the lowered form of a function that does
not have exactly one result. -/
def Frame.LacksResult (fs : List Ssa.Function) (frame : Frame) : Prop :=
  frame.callers ≠ [] ∧ ∃ f ∈ fs, f.lower = .ok frame.function ∧ f.results.length ≠ 1 ∧
    ∃ b, frame.function.block? frame.block = some b ∧ b.terminator = .return

/-- Only where there is not exactly one result the result slot may be left unassigned. -/
theorem Frame.Forgets.lacksResult {fs : List Ssa.Function} {gs : List Function} {frame : Frame}
    (h : frame.Forgets) (hfs : Ssa.Linked fs)
    (hlower : List.Forall₂ (fun f g => f.lower = .ok g) fs gs) (hg : frame.function ∈ gs) :
    frame.LacksResult fs := by
  obtain ⟨hcallers, E, b, harr, hb, hret, hzero⟩ := h
  obtain ⟨f, hf, hfg, hsafe⟩ := hfs.safe hlower hg harr hb
  exact ⟨hcallers, f, hf, hfg, fun hone => hzero (hsafe.result hret hone), b, hb, hret⟩

/-- The frame stands at a block of the lowered form of a function with a load or a store through the
result of a call whose type has no sort. -/
def Frame.FollowsUntracked (fs : List Ssa.Function) (frame : Frame) : Prop :=
  ∃ b, frame.function.block? frame.block = some b ∧
    ∃ st ∈ b.statements, ∃ f ∈ fs, f.lower = .ok frame.function ∧ f.Strays st

/-- The cause of the error that a step fails with. -/
def Outcome.cause? : Outcome → Option Cause
  | .failed _ (.error err) => some err.cause
  | _ => none

theorem Outcome.exists_of_cause? {outcome : Outcome} {c : Cause} (h : outcome.cause? = some c) :
    ∃ f? err, outcome = .failed f? (.error err) ∧ err.cause = c := by
  cases outcome with
  | failed f? failure =>
    cases failure with
    | error err => exact ⟨f?, err, rfl, Option.some.inj h⟩
    | fault fault => cases h
  | finished | executed frame => cases h

namespace Explorer

/-- An exploration of a lowered program fails only with errors about unsupported constructs, because
a followed call of a function without exactly one result returns, or because a load or a store goes
through the result of a call whose type has no sort.

The bound on the depths is there because slots keep the low 32 bits of their depth only. -/
theorem lowered_step_fails {fs : List Ssa.Function} {gs : List Function} {e : Explorer}
    (hfs : Ssa.Linked fs) (hlower : List.Forall₂ (fun f g => f.lower = .ok g) fs gs)
    (he : e.Unused) (hprogram : e.program = ⟨gs⟩) (hentry : e.entry ∈ gs)
    (hsize : ∀ g ∈ gs, g.Addressable) (n : Nat)
    (hdepth : ∀ f ∈ e.framesOf (n + 1), f.depth < 0x100000000) (f? : Option Frame)
    (failure : Failure) (hstep : (e.after n).step.1 = .failed f? failure) :
    ∃ err : Error, failure = .error err ∧ (err.isUnsupported = true ∨
      err.cause = .unbound ∧ ∃ frame, f? = some frame ∧
        (e.options.inlineCalls = true ∧ frame.LacksResult fs ∨ frame.FollowsUntracked fs)) := by
  have hfunctions : ∀ g ∈ e.functions, g ∈ gs := by
    intro g hg
    rcases List.mem_cons.mp hg with rfl | hg
    · exact hentry
    · rwa [hprogram] at hg
  have hsound : ∀ g ∈ e.functions, g.Sound fun st => ∃ f ∈ fs, f.lower = .ok g ∧ f.Strays st :=
    fun g hg => hfs.sound hlower (hfunctions g hg) (hsize g (hfunctions g hg))
  have hfit : e.program.CallsFit e.functions := hprogram ▸ hfs.callsFit hlower hfunctions
  have htyped : ∀ g ∈ e.functions, ∀ l ∈ g.locals, l.type ≠ .untyped := by
    intro g hg
    obtain ⟨f, -, -, hcoded⟩ := hfs.coded hlower (hfunctions g hg)
    exact hcoded.typed
  rcases he.step_admitted hsound hfit hdepth hstep with hun | ⟨⟨frame, rfl, hwithin, hor⟩, hcause⟩
  · cases failure with
    | error err => exact ⟨err, rfl, Or.inl hun⟩
    | fault fault => exact absurd hstep (he.step_ne_fault n htyped f? fault)
  · obtain ⟨err, rfl, hunbound⟩ := hcause
    refine ⟨err, rfl, .inr ⟨hunbound, frame, rfl, hor.imp_left fun hforgets => ?_⟩⟩
    exact ⟨hwithin.inlined hforgets.1,
      hforgets.lacksResult hfs hlower (hfunctions _ hwithin.function)⟩

/-- A load through the result of a call, whose type is a type parameter. -/
def genericLoad : Ssa.Function where
  name := "load"
  results := [.basic "int"]
  params := []
  blocks := [⟨[.call ⟨0, .basic "P", {}⟩ (.static "make") [],
    .unary ⟨1, .basic "int", {}⟩ "*" (.register 0) false, .return [.register 1] {}], [], []⟩]

/-- A function without results. -/
def discarder : Ssa.Function where
  name := "discard"
  results := []
  params := [⟨"x", .basic "int"⟩]
  blocks := [⟨[.return [] {}], [], []⟩]

/-- A call of the function without results. -/
def discardCaller : Ssa.Function where
  name := "caller"
  results := []
  params := [⟨"x", .basic "int"⟩]
  blocks := [⟨[.call ⟨0, .tuple [], {}⟩ (.static "discard") [.parameter 0], .return [] {}], [], []⟩]

def lossy : List Ssa.Function := [genericLoad, discarder, discardCaller]

/-- An exploration of one of the three functions, with their program. -/
def lossyExplorer (f : Ssa.Function) (inlineCalls : Bool) : Explorer where
  entry := f.code
  program := ⟨lossy.map (·.code)⟩
  options := { inlineCalls }

theorem linked_lossy : Ssa.Linked lossy where
  wellFormed f hf := Ssa.Function.wellFormed_of_sane (fun _ => [])
    ((by decide : ∀ f ∈ lossy, f.sane (fun _ => []) = true) f hf)
  arguments := by decide
  named := by decide

theorem lower_lossy : List.Forall₂ (fun f g => f.lower = .ok g) lossy (lossy.map (·.code)) :=
  .cons (by rfl) (.cons (by rfl) (.cons (by rfl) .nil))

theorem genericLoad_step_fails :
    ∃ f? err, ((lossyExplorer genericLoad false).after 1).step.1 = .failed f? (.error err) ∧
      err.cause = .unbound ∧ ∃ frame, f? = some frame ∧ frame.FollowsUntracked lossy := by
  have hcause : ((lossyExplorer genericLoad false).after 1).step.1.cause? = some .unbound := by
    decide +kernel
  obtain ⟨f?, err, hstep, hunbound⟩ := Outcome.exists_of_cause? hcause
  have hsize : ∀ g ∈ lossy.map (·.code), g.locals.length ≤ 0x100000000 := by decide
  have hdepths : ((lossyExplorer genericLoad false).framesOf 2).map Frame.depth = [0, 0] := by
    decide +kernel
  have hdepth : ∀ f ∈ (lossyExplorer genericLoad false).framesOf 2, f.depth < 0x100000000 := by
    intro f hf
    have hmem := List.mem_map_of_mem (f := Frame.depth) hf
    rw [hdepths] at hmem
    simp at hmem
    omega
  obtain ⟨err', heq, hor⟩ := lowered_step_fails linked_lossy lower_lossy (.new ..) rfl
    List.mem_cons_self hsize 1 hdepth f? (.error err) hstep
  obtain rfl := Failure.error.inj heq
  rcases hor with hun | ⟨-, frame, hframe, ⟨hinline, -⟩ | hfollows⟩
  · simp [Error.isUnsupported, hunbound] at hun
  · cases hinline
  · exact ⟨f?, err, hstep, hunbound, frame, hframe, hfollows⟩

/-- The return from a function without results fails, and so does, with calls not followed, a load
through a result whose type has no sort. -/
theorem lowered_results_unbound :
    Ssa.Linked lossy ∧ List.Forall₂ (fun f g => f.lower = .ok g) lossy (lossy.map (·.code)) ∧
      (∀ f inline, (lossyExplorer f inline).Unused) ∧
      ((lossyExplorer discardCaller true).after 1).step.1.cause? = some .unbound ∧
      ((lossyExplorer genericLoad false).after 1).step.1.cause? = some .unbound :=
  ⟨linked_lossy, lower_lossy, fun _ _ => .new .., by decide +kernel, by decide +kernel⟩

end Explorer
end NullPath
