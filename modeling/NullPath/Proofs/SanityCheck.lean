import NullPath.Proofs.SingleAssignment

/-!
# Checking that a function is well-formed

Whether definitions dominate uses is a statement about all paths.  It can be checked block by block
with a table that lists, for each block, registers that have been defined on every path to it: an
edge must have defined what the table lists for its target.

* `Ssa.Function.sane`: the check.
* `Ssa.Function.wellFormed_of_sane`: a function that passes the check is well-formed.
-/

namespace NullPath.Ssa

variable {instrs : List Instr} {n : Nat}

/-! ## What a table knows -/

/-- The numbers of the registers that instructions define where they stand. -/
def definedNumbers (instrs : List Instr) : List Nat :=
  instrs.filterMap fun i => i.defines?.map Register.number

/-- The register and the values of a phi node. -/
def Instr.phi? : Instr → Option (Register × List Value)
  | .phi r edges => some (r, edges)
  | _ => none

/-- The numbers of the registers that are defined on the way into a block. -/
def Block.joinedNumbers (b : Block) : List Nat :=
  b.instrs.filterMap fun i => i.phi?.map fun phi => phi.1.number

/-- Whether a value is known when some registers are. -/
def Value.isKnown (known : List Nat) : Value → Bool
  | .register n => n ∈ known
  | _ => true

/-- Whether each instruction uses values that are known before it. -/
def usesKnown (known : List Nat) : List Instr → Bool
  | [] => true
  | i :: rest => i.uses.all (Value.isKnown known) && usesKnown (known ++ definedNumbers [i]) rest

/-- Whether no phi node comes after another instruction. -/
def phisLead : List Instr → Bool
  | .phi _ _ :: rest | .debug :: rest => phisLead rest
  | rest => rest.all fun i => i.phi?.isNone

theorem mem_definedNumbers : n ∈ definedNumbers instrs ↔ n ∈ definedBy instrs := by
  simp [definedNumbers, definedBy]

theorem Instr.phi?_eq_some {i : Instr} {phi : Register × List Value} :
    i.phi? = some phi ↔ i = .phi phi.1 phi.2 := by
  cases i with
  | phi r edges => simp [Instr.phi?, Prod.ext_iff, eq_comm]
  | _ => simp [Instr.phi?]

theorem Block.mem_joinedNumbers {b : Block} : n ∈ b.joinedNumbers ↔ n ∈ b.joins := by
  simp [joinedNumbers, joins, Instr.phi?_eq_some]

theorem mem_of_usesKnown {known : List Nat} {done rest : List Instr} {i : Instr}
    (h : usesKnown known instrs = true) (hsplit : instrs = done ++ i :: rest)
    (hn : .register n ∈ i.uses) : n ∈ known ∨ n ∈ definedBy done := by
  induction done generalizing known instrs with
  | nil =>
    subst hsplit
    obtain ⟨huses, -⟩ := (Bool.and_eq_true _ _).mp h
    have hknown := List.all_eq_true.mp huses _ hn
    exact .inl (of_decide_eq_true hknown)
  | cons j done ih =>
    subst hsplit
    obtain ⟨-, hrest⟩ := (Bool.and_eq_true _ _).mp h
    rcases ih hrest rfl with hmem | hmem
    · rcases List.mem_append.mp hmem with hmem | hmem
      · exact .inl hmem
      · obtain ⟨i', hi', hr⟩ := mem_definedNumbers.mp hmem
        exact .inr ⟨i', by simp_all, hr⟩
    · obtain ⟨i', hi', hr⟩ := hmem
      exact .inr ⟨i', .tail _ hi', hr⟩

theorem mem_phisOf_of_phisLead (h : phisLead instrs = true) {r : Register} {edges : List Value}
    (hmem : .phi r edges ∈ instrs) : (r, edges) ∈ phisOf instrs := by
  fun_induction phisLead instrs with
  | case1 r' edges' rest ih =>
    rcases List.mem_cons.mp hmem with heq | hmem
    · cases heq
      exact List.mem_cons_self
    · exact .tail _ (ih h hmem)
  | case2 rest ih =>
    rcases List.mem_cons.mp hmem with heq | hmem
    · cases heq
    · exact ih h hmem
  | case3 rest =>
    have hnone := List.all_eq_true.mp h _ hmem
    cases hnone

namespace Function

variable {f : Function} {b : Block} {table : Nat → List Nat} {k : Nat}

/-- A table that fits the edges lists only registers that have been defined. -/
theorem Arrives.covers (hentry : table 0 = [])
    (hedge : ∀ k b s b', f.blocks[k]? = some b → s ∈ b.succs → f.blocks[s]? = some b' →
      ∀ n ∈ table s, n ∈ table k ++ definedNumbers b.instrs ++ b'.joinedNumbers) {D : Set Nat}
    (h : f.Arrives k D) : ∀ n ∈ table k, n ∈ D := by
  induction h with
  | entry => simp [hentry]
  | edge _ hb hs hb' ih =>
    intro n hn
    have hmem := hedge _ _ _ _ hb hs hb' n hn
    rw [List.mem_append, List.mem_append, mem_definedNumbers, Block.mem_joinedNumbers] at hmem
    rcases hmem with (hmem | hmem) | hmem
    · exact .inl (.inl (ih n hmem))
    · exact .inl (.inr hmem)
    · exact .inr hmem

/-! ## The check -/

/-- Whether an instruction leaves its block, whose successors fit. -/
def exits (f : Function) (b : Block) : Instr → Bool
  | .branch _ => match b.succs with
    | [s, t] => s != t
    | _ => false
  | .jump => b.succs.length == 1
  | .return results _ => b.succs.isEmpty && results.length == f.results.length
  | .panic _ => b.succs.isEmpty
  | _ => false

/-- Whether the last instruction leaves the block, and no other one does. -/
def closes (f : Function) (b : Block) : List Instr → Bool
  | [] => false
  | [i] => f.exits b i
  | i :: rest => !i.isExit && f.closes b rest

/-- Whether the edge from one block to another has defined what is needed after it. -/
def edgeKnown (f : Function) (table : Nat → List Nat) (k : Nat) (b : Block) (s : Nat) : Bool :=
  let known := table k ++ definedNumbers b.instrs
  match f.blocks[s]? with
  | none => false
  | some b' => (table s).all (· ∈ known ++ b'.joinedNumbers) &&
    (b'.instrs.filterMap Instr.phi?).all fun phi =>
      (b'.preds.zip phi.2).all fun pv => pv.1 != k || pv.2.isKnown known

/-- Whether a block is well-formed, where a table lists registers that have been defined. -/
def saneBlock (f : Function) (table : Nat → List Nat) (k : Nat) (b : Block) : Bool :=
  f.closes b b.instrs && decide b.preds.Nodup && phisLead b.instrs &&
    usesKnown (table k) b.instrs && b.succs.all (f.edgeKnown table k b)

/-- Whether a function is well-formed, where a table lists registers that have been defined. -/
def sane (f : Function) (table : Nat → List Nat) : Bool :=
  decide (f.registers.map Register.number).Nodup && (table 0).isEmpty &&
    (List.range f.blocks.length).all fun k => (f.blocks[k]?).all (f.saneBlock table k)

theorem exits_of_check {i : Instr} (h : f.exits b i = true) : f.Exits b i := by
  cases i with
  | branch c =>
    rw [exits] at h
    split at h
    · next s t hs => exact ⟨s, t, hs, by simpa using h⟩
    · cases h
  | jump => exact List.length_eq_one_iff.mp (by simpa [exits] using h)
  | «return» results span | panic span => simpa [exits, Exits] using h
  | _ => cases h

theorem closes_of_check {instrs : List Instr} (h : f.closes b instrs = true) : f.Closes b instrs := by
  fun_induction closes f b instrs with
  | case1 => cases h
  | case2 i => exact ⟨[], i, rfl, by simp, exits_of_check h⟩
  | case3 i rest _ ih =>
    obtain ⟨hi, hrest⟩ := (Bool.and_eq_true _ _).mp h
    obtain ⟨init, last, rfl, hinit, hlast⟩ := ih hrest
    exact ⟨i :: init, last, rfl, List.forall_mem_cons.mpr ⟨by simpa using hi, hinit⟩, hlast⟩

theorem edgeKnown_eq_true {s : Nat} (h : f.edgeKnown table k b s = true) :
    ∃ b', f.blocks[s]? = some b' ∧
      (∀ n ∈ table s, n ∈ table k ++ definedNumbers b.instrs ++ b'.joinedNumbers) ∧
      ∀ r edges, .phi r edges ∈ b'.instrs → ∀ n, b'.Takes k edges (.register n) →
        n ∈ table k ++ definedNumbers b.instrs := by
  unfold edgeKnown at h
  split at h
  · cases h
  · next b' hb' =>
    obtain ⟨htable, hphis⟩ := (Bool.and_eq_true _ _).mp h
    refine ⟨b', hb', fun n hn => of_decide_eq_true (List.all_eq_true.mp htable n hn), ?_⟩
    intro r edges hphi n ⟨j, hpred, hv⟩
    have hmem : (r, edges) ∈ b'.instrs.filterMap Instr.phi? :=
      List.mem_filterMap.mpr ⟨_, hphi, rfl⟩
    have hzip : (k, .register n) ∈ b'.preds.zip edges :=
      List.mem_of_getElem? (i := j) (by simp [List.getElem?_zip_eq_some, hpred, hv])
    have hknown := List.all_eq_true.mp (List.all_eq_true.mp hphis _ hmem) _ hzip
    simpa [Value.isKnown] using hknown

/-- A function that passes the check is well-formed. -/
theorem wellFormed_of_sane (table : Nat → List Nat) (h : f.sane table = true) : f.WellFormed := by
  simp only [sane, Bool.and_eq_true, decide_eq_true_eq, List.isEmpty_iff, List.all_eq_true,
    List.mem_range] at h
  obtain ⟨⟨hdistinct, hentry⟩, hall⟩ := h
  have hblock : ∀ k b, f.blocks[k]? = some b → f.saneBlock table k b = true := by
    intro k b hb
    have hk := hall k (lt_length_of_getElem? hb)
    rwa [hb] at hk
  simp only [saneBlock, Bool.and_eq_true, decide_eq_true_eq] at hblock
  have hmem : ∀ b ∈ f.blocks, ∃ k, f.blocks[k]? = some b := fun b hb => List.getElem?_of_mem hb
  have hedges : ∀ k b s, f.blocks[k]? = some b → s ∈ b.succs → f.edgeKnown table k b s = true :=
    fun k b s hb => List.all_eq_true.mp (hblock k b hb).2 s
  -- what the table lists has been defined on every path, since every edge keeps it
  have hcovers : ∀ k D, f.Arrives k D → ∀ n ∈ table k, n ∈ D := by
    intro k D harr
    refine harr.covers hentry fun k b s b' hb hs hb' => ?_
    obtain ⟨b'', hb'', htable, -⟩ := edgeKnown_eq_true (hedges k b s hb hs)
    obtain rfl := Option.mem_unique hb' hb''
    exact htable
  refine ⟨hdistinct, ?_, ?_, ?_, ?_, ?_, ?_⟩
  · intro b hb
    obtain ⟨k, hk⟩ := hmem b hb
    exact closes_of_check (hblock k b hk).1.1.1.1
  · intro b hb s hs
    obtain ⟨k, hk⟩ := hmem b hb
    obtain ⟨b', hb', -⟩ := edgeKnown_eq_true (hedges k b s hk hs)
    exact lt_length_of_getElem? hb'
  · intro b hb
    obtain ⟨k, hk⟩ := hmem b hb
    exact (hblock k b hk).1.1.1.2
  · intro b hb r edges hphi
    obtain ⟨k, hk⟩ := hmem b hb
    exact mem_phisOf_of_phisLead (hblock k b hk).1.1.2 hphi
  · intro k D b harr hb done i rest hsplit n hn
    rcases mem_of_usesKnown (hblock k b hb).1.2 hsplit hn with hknown | hdone
    · exact .inl (hcovers k D harr n hknown)
    · exact .inr hdone
  · intro k D b s b' harr hb hs hb' r edges hphi n htakes
    obtain ⟨b'', hb'', -, hphis⟩ := edgeKnown_eq_true (hedges k b s hb hs)
    obtain rfl := Option.mem_unique hb' hb''
    rcases List.mem_append.mp (hphis r edges hphi n htakes) with hknown | hdefined
    · exact .inl (hcovers k D harr n hknown)
    · exact .inr (mem_definedNumbers.mp hdefined)

end Function

end NullPath.Ssa
