import Mathlib.Logic.ExistsUnique
import NullPath.Explore.Run
import NullPath.Proofs.Growth

/-!
# The guards of a switch

A switch hands on one frame for each of its values and one more for all other values, each with a
guard.  Whatever the operand stands for, some guard is true: if no value is that of the operand, it
is the last one.  Two guards are true together exactly if two positions of the list have the value
of the operand, and nothing keeps a list from this.  A number may be listed twice, and of a truth
value all numbers but 0 say the same.

* `existsUnique_switchTakes_iff`: when a switch has one way to go.
* `Machine.switch_guards_unique_iff`: when exactly one of the handed-on frames has a true guard.
* `Explorer.repeatedValue_two_guards`: two edges of a switch that are taken together.
-/

namespace NullPath

variable {d : Constant} {values : List Int}

/-- The value of the operand stands at one position of the list at most. -/
def switchSeparates (d : Constant) (values : List Int) : Prop :=
  ∀ (i j : Nat) (v w : Int), values[i]? = some v → values[j]? = some w →
    switchMatches d v → switchMatches d w → i = j

/-- A switch goes somewhere. -/
theorem exists_switchTakes (d : Constant) (values : List Int) : ∃ k, switchTakes d values k := by
  by_cases h : ∃ v ∈ values, switchMatches d v
  · obtain ⟨v, hv, hmatch⟩ := h
    obtain ⟨i, hi⟩ := List.mem_iff_getElem?.mp hv
    exact ⟨i, .inl ⟨v, hi, hmatch⟩⟩
  · exact ⟨values.length, .inr ⟨rfl, fun v hv hmatch => h ⟨v, hv, hmatch⟩⟩⟩

theorem existsUnique_switchTakes_iff :
    (∃! k, switchTakes d values k) ↔ switchSeparates d values := by
  constructor
  · intro hunique i j v w hi hj hv hw
    exact hunique.unique (.inl ⟨v, hi, hv⟩) (.inl ⟨w, hj, hw⟩)
  · intro hsep
    refine existsUnique_of_exists_of_unique (exists_switchTakes d values) ?_
    rintro i j (⟨v, hi, hv⟩ | ⟨rfl, hnone⟩) (⟨w, hj, hw⟩ | ⟨rfl, hnone'⟩)
    · exact hsep i j v w hi hj hv hw
    · exact absurd hv (hnone' v (List.mem_of_getElem? hi))
    · exact absurd hw (hnone w (List.mem_of_getElem? hj))
    · rfl

/-- Values whose literals differ are told apart by every value of the operand. -/
theorem switchSeparates_of_nodup {discr : Expr} (hsort : d.sort = discr.sort)
    (h : (values.map (switchLiteral discr)).Nodup) : switchSeparates d values := by
  intro i j v w hi hj hv hw
  have hliteral : switchLiteral discr v = switchLiteral discr w := by
    unfold switchMatches at hv hw
    unfold switchLiteral
    rw [hsort] at hv hw
    split at hv
    · next hbool =>
      have hbools : (v != 0) = (w != 0) := by
        rw [if_pos hbool, hv] at hw
        revert hw
        cases v != 0 <;> cases w != 0 <;> decide
      rw [if_pos hbool, if_pos hbool, hbools]
    · next hbool =>
      rw [if_neg hbool, hv] at hw
      have hints : v = w := hw
      rw [hints]
  have hlt : i < values.length := lt_length_of_getElem? hi
  refine (List.getElem?_inj (by rwa [List.length_map]) h).mp ?_
  rw [List.getElem?_map, List.getElem?_map, hi, hj, Option.map_some, Option.map_some, hliteral]

/-- The frame at a position has a guard that is true in a model. -/
def Frame.GuardHolds (fs : List Frame) (m : Model) (k : Nat) : Prop :=
  ∃ f g, fs[k]? = some f ∧ f.guard = some g ∧ m.Satisfies g

namespace Machine

variable {options : Options} {program : Program} {frame : Frame} {env : Env} {m m' : Machine}
  {fs : List Frame} {x : Operand} {values targets : List Int} {span : Span}

/-- The frames that a switch hands on carry its guards, in order. -/
theorem guards_of_switch {discr : Expr} {memory : Memory}
    (hlen : targets.length = values.length + 1) :
    ((targets.zip (switchGuards discr values)).map fun tg =>
      frame.fork memory tg.1 (some tg.2) env.node).map Frame.guard =
        (switchGuards discr values).map some := by
  have hsize : (switchGuards discr values).length ≤ targets.length := by
    simp [switchGuards, hlen]
  conv_rhs => rw [← List.map_snd_zip hsize]
  rw [List.map_map, List.map_map]
  rfl

theorem guardHolds_iff {discr : Expr} {v : Constant} {model : Model} {D : Scope}
    (hfs : fs.map Frame.guard = (switchGuards discr values).map some) (hsort : discr.Sorted D)
    (hmodel : model.Exact D) (hv : discr.eval model = .ok v) (k : Nat) :
    Frame.GuardHolds fs model k ↔ switchTakes v values k := by
  have hget : (fs[k]?).map Frame.guard = ((switchGuards discr values)[k]?).map some := by
    rw [← List.getElem?_map, hfs, List.getElem?_map]
  constructor
  · rintro ⟨f, g, hf, hg, hsat⟩
    rw [hf, Option.map_some, hg, eq_comm, Option.map_eq_some_iff] at hget
    obtain ⟨g', hg', heq⟩ := hget
    cases heq
    exact (satisfies_switchGuards hsort hmodel hv hg').mp hsat
  · intro htakes
    have hk : k < (switchGuards discr values).length := by
      rw [switchGuards, List.length_append, List.length_map, List.length_singleton]
      rcases htakes with ⟨w, hw, -⟩ | ⟨rfl, -⟩
      · have := lt_length_of_getElem? hw
        omega
      · omega
    have hg := List.getElem?_eq_getElem hk
    rw [hg, Option.map_some, Option.map_eq_some_iff] at hget
    obtain ⟨f, hf, hguard⟩ := hget
    exact ⟨f, _, hf, hguard, (satisfies_switchGuards hsort hmodel hv hg).mpr htakes⟩

/-- **When the guards of a switch exclude each other.**  A switch that is executed hands on one
frame for each value and one for all others, each with a guard.  In every model of the declared
names the operand has a value, each guard is true or false, and at least one is true.  Exactly one
is true if and only if the value stands at one position of the list at most.  So the guards are a
partition of all values if no two of the listed ones are the same for the operand. -/
theorem switch_guards_unique_iff (hs : m.store.Scoped fun _ => True)
    (h : terminator options program frame env (.switch x values targets span) m = (.ok fs, m')) :
    fs.length = values.length + 1 ∧
      ∃ discr, (Store.operand { env with span } x m.store).1 = .ok discr ∧
        ∀ model : Model, model.Exact (m'.store.graph.scope fun _ => True) →
          ∃ v, discr.eval model = .ok v ∧ v.HasSort discr.sort ∧
            (∀ f ∈ fs, ∃ g c, f.guard = some g ∧ g.eval model = .ok c ∧ c.HasSort .bool) ∧
            (∃ k, Frame.GuardHolds fs model k) ∧
            ((∃! k, Frame.GuardHolds fs model k) ↔ switchSeparates v values) ∧
            ((values.map (switchLiteral discr)).Nodup → ∃! k, Frame.GuardHolds fs model k) := by
  obtain ⟨hlen, discr, s₁, hd, hm', hfs⟩ := terminator_switch_eq_ok h
  obtain ⟨-, hsorted, hfree⟩ := hs.operand hd
  have hguards : fs.map Frame.guard = (switchGuards discr values).map some := by
    rw [hfs]
    exact guards_of_switch hlen
  have hsize : fs.length = values.length + 1 := by
    have := congrArg List.length hguards
    simpa [switchGuards] using this
  refine ⟨hsize, discr, by rw [hd], fun model hmodel => ?_⟩
  rw [hm'] at hmodel
  obtain ⟨v, hv⟩ := hsorted.defines hfree hmodel.sorts
  have hvsort := hsorted.hasSort hmodel.respects hv
  have hiff := guardHolds_iff hguards hsorted hmodel hv
  have hunique : (∃! k, Frame.GuardHolds fs model k) ↔ switchSeparates v values := by
    simp only [hiff]
    exact existsUnique_switchTakes_iff
  refine ⟨v, hv, hvsort, fun f hf => ?_, ?_, hunique, fun hnodup => ?_⟩
  · have hmem : f.guard ∈ (switchGuards discr values).map some := by
      rw [← hguards]
      exact List.mem_map_of_mem hf
    obtain ⟨g, hg, heq⟩ := List.mem_map.mp hmem
    have hbool := hasSort_of_mem_switchGuards hsorted hg
    obtain ⟨c, hc⟩ :=
      hbool.sorted.defines (divisionFree_of_mem_switchGuards hfree hg) hmodel.sorts
    exact ⟨g, c, heq.symm, hc, hbool.eval hmodel.respects hc⟩
  · obtain ⟨k, hk⟩ := exists_switchTakes v values
    exact ⟨k, (hiff k).mpr hk⟩
  · exact hunique.mpr (switchSeparates_of_nodup hvsort.sort_eq hnodup)

/-! ## A switch on a truth value -/

/-- Goes one way for false, another way for true, and lists 2 for true. -/
def truthSwitch : Function where
  name := "truth"
  locals := [⟨"", .integer⟩, ⟨"b", .boolean⟩]
  argCount := 1
  blocks := [⟨[], .switch (.copy ⟨1, 0⟩) [0, 2] [1, 1, 1] {}⟩, ⟨[], .return⟩]

/-- The state in which the switch is executed: the parameter has a name. -/
def truthMachine : Machine where
  store := ⟨{ decls := [⟨⟨0⟩, .bool, [], none⟩] }, { locals := ⟨[(⟨0, 1⟩, ⟨⟨0⟩, false⟩)]⟩ }⟩

theorem truthMachine_scoped : truthMachine.store.Scoped := by
  refine ⟨fun k d hd => ?_, fun _ _ => trivial, fun n hn => ?_⟩
  · obtain ⟨hk, rfl⟩ := List.getElem?_eq_some_iff.mp hd
    obtain rfl := Nat.lt_one_iff.mp hk
    exact ⟨rfl, .inr rfl⟩
  · refine ⟨trivial, ?_⟩
    cases hn with
    | value hv =>
      obtain ⟨e, he, rfl⟩ := Option.map_eq_some_iff.mp hv
      obtain rfl := List.mem_singleton.mp (List.mem_of_find?_eq_some he)
      exact Nat.one_pos
    | address h | pointer h | pointee h => cases h

/-- The literals of 0 and 2 are false and true, so exactly one guard is true in every model. -/
theorem truthSwitch_guards_unique : ∃ fs m',
    terminator {} .empty { function := truthSwitch } { function := truthSwitch }
      (.switch (.copy ⟨1, 0⟩) [0, 2] [1, 1, 1] {}) truthMachine = (.ok fs, m') ∧
    ∀ model : Model, model.Exact (m'.store.graph.scope fun _ => True) →
      ∃! k, Frame.GuardHolds fs model k := by
  obtain ⟨fs, m', hrun⟩ : ∃ fs m',
      terminator {} .empty { function := truthSwitch } { function := truthSwitch }
        (.switch (.copy ⟨1, 0⟩) [0, 2] [1, 1, 1] {}) truthMachine = (.ok fs, m') := ⟨_, _, rfl⟩
  refine ⟨fs, m', hrun, fun model hmodel => ?_⟩
  obtain ⟨-, discr, hdiscr, hall⟩ := switch_guards_unique_iff truthMachine_scoped hrun
  obtain ⟨v, -, -, -, -, -, hunique⟩ := hall model hmodel
  obtain rfl : Expr.name ⟨0⟩ .bool = discr := Except.ok.inj hdiscr
  exact hunique (by decide)

end Machine

/-! ## A value that is listed twice -/

namespace Explorer

/-- Lists the number 1 twice, with different targets. -/
def repeatedValue : Explorer where
  entry := {
    name := "repeated"
    locals := [⟨"", .integer⟩, ⟨"x", .integer⟩]
    argCount := 1
    blocks := [⟨[], .switch (.copy ⟨1, 0⟩) [1, 1] [1, 2, 3] {}⟩, ⟨[], .return⟩, ⟨[], .return⟩,
      ⟨[], .return⟩] }

/-- Two edges lead away from the switch whose guards are both true if the operand is 1. -/
theorem repeatedValue_two_guards : repeatedValue.run.1 = .ok () ∧
    ∃ n e₁ e₂ g₁ g₂, repeatedValue.run.2.graph.node? 0 = some n ∧ e₁ ∈ n.out ∧ e₂ ∈ n.out ∧
      e₁.target ≠ e₂.target ∧ e₁.guard = some g₁ ∧ e₂.guard = some g₂ ∧
      ∀ m : Model, m.get? ⟨1⟩ = some (.ofInt 1) → m.Satisfies g₁ ∧ m.Satisfies g₂ := by
  have hnode : repeatedValue.run.2.graph.node? 0 = some
      { closed := true
        out := [⟨some (.binary .and (.not (.binary .eq (.int 1) (.name ⟨1⟩ .int)))
            (.not (.binary .eq (.int 1) (.name ⟨1⟩ .int)))), 1⟩,
          ⟨some (.binary .eq (.int 1) (.name ⟨1⟩ .int)), 2⟩,
          ⟨some (.binary .eq (.int 1) (.name ⟨1⟩ .int)), 3⟩] } := by decide +kernel
  refine ⟨by decide +kernel, _, _, _, _, _, hnode, List.mem_cons_of_mem _ List.mem_cons_self,
    List.mem_cons_of_mem _ (List.mem_cons_of_mem _ List.mem_cons_self), by decide, rfl, rfl, ?_⟩
  intro m hm
  have htrue : m.Satisfies (.binary .eq (.int 1) (.name ⟨1⟩ .int)) :=
    ⟨.ofBool true, Expr.eval_binary .eq (x := .ofInt 1) (y := .ofInt 1) rfl
      (Expr.eval_name_eq_ok.mpr hm), rfl⟩
  exact ⟨htrue, htrue⟩

end Explorer
end NullPath
