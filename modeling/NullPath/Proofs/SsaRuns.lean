import NullPath.Proofs.Readings
import NullPath.Proofs.SingleAssignment

/-!
# Running functions in single-assignment form

A register holds nothing before it is defined.  The phi nodes of a block are assigned on the way into
it, all at once: each takes the value that belongs to the edge, as it was before the edge.  Operators
have the meaning that a reading gives to the operator with the same token.

* `SourceBinOp.token?`, `SourceUnOp.token?`: tokens of operators.
* `Ssa.Value.read`, `Ssa.Instr.Computes`, `Ssa.Instr.Exec`: values and instructions.
* `Ssa.Function.Runs`, `Ssa.Function.Reaches`: blocks, and runs from the entry.
-/

namespace NullPath

/-- The token of a binary operator. -/
def SourceBinOp.token? : SourceBinOp → Option String
  | .add => some "+" | .sub => some "-" | .mul => some "*" | .div => some "/" | .rem => some "%"
  | .eq => some "==" | .ne => some "!="
  | .lt => some "<" | .le => some "<=" | .gt => some ">" | .ge => some ">="
  | .bitAnd => some "&" | .bitOr => some "|" | .bitXor => some "^"
  | .shl => some "<<" | .shr => some ">>"
  | .offset | .other _ => none

/-- The token of a unary operator. -/
def SourceUnOp.token? : SourceUnOp → Option String
  | .not => some "!"
  | .neg => some "-"
  | .other _ => none

namespace Ssa

/-! ## Values -/

/-- The contents of the registers. -/
abbrev Regs := Nat → Option Constant

/-- The registers with one of them changed. -/
def Regs.set (ρ : Regs) (n : Nat) (c : Constant) : Regs :=
  fun m => if m = n then some c else ρ m

/-- The value of a literal.  The zero value of a type is zero or false. -/
def Literal.value? (t : GoType) : Literal → Option Constant
  | .int v => some (.ofInt v)
  | .bool b => some (.ofBool b)
  | .float _ => none
  | .zero =>
    match t.lower.sort with
    | .ok sort => some (if sort = .bool then .ofBool false else .ofInt 0)
    | .error _ => none

/-- The number or truth value that a value stands for. -/
def Value.read (args : List Constant) (ρ : Regs) : Value → Option Constant
  | .register n => ρ n
  | .parameter i => args[i]?
  | .global _ _ => none
  | .const c t => c.value? t

/-! ## Instructions -/

/-- What an instruction computes. -/
inductive Instr.Computes (R : Reading) (args : List Constant) (ρ : Regs) : Instr → Constant → Prop
  | binary {r : Register} {op : String} {o : SourceBinOp} {x y : Value} {a b c : Constant} :
    o.token? = some op → x.read args ρ = some a → y.read args ρ = some b → R.binary o a b = some c →
    Computes R args ρ (.binary r op x y) c
  | unary {r : Register} {op : String} {o : SourceUnOp} {x : Value} {a c : Constant} :
    o.token? = some op → x.read args ρ = some a → R.unary o a = some c →
    Computes R args ρ (.unary r op x false) c
  | convert {r : Register} {x : Value} {a c : Constant} : x.read args ρ = some a →
    R.cast r.type.lower a = some c → Computes R args ρ (.convert r x) c
  | changeType {r : Register} {x : Value} {a c : Constant} : x.read args ρ = some a →
    R.cast r.type.lower a = some c → Computes R args ρ (.changeType r x) c

/-- Executing an instruction that does not leave its block, where calls return some values. -/
inductive Instr.Exec (R : Reading) (args : List Constant) :
    Instr → Regs → List Constant → Regs → Prop
  | debug {ρ : Regs} : Exec R args .debug ρ [] ρ
  | phi {r : Register} {edges : List Value} {ρ : Regs} : Exec R args (.phi r edges) ρ [] ρ
  | compute {i : Instr} {r : Register} {ρ : Regs} {c : Constant} : i.defines? = some r →
    i.Computes R args ρ c → Exec R args i ρ [] (ρ.set r.number c)
  | call {r : Register} {callee : Callee} {vs : List Value} {ρ : Regs} (c : Constant) :
    Exec R args (.call r callee vs) ρ [c] (ρ.set r.number c)

theorem Instr.Exec.not_exit {R : Reading} {args cs : List Constant} {i : Instr} {ρ ρ' : Regs}
    (h : i.Exec R args ρ cs ρ') : i.isExit = false := by
  cases h with
  | compute _ hc => cases hc <;> rfl
  | debug | phi | call => rfl

/-- How far a run has come: it stands at a block, or it has ended. -/
inductive Point
  | head (block : Nat) (regs : Regs)
  | returned (results : List (Option Constant)) (regs : Regs)
  | panicked (regs : Regs)

namespace Function

/-- The way from one block into another: every phi node takes its value of the edge, as it was before,
and the other registers stay as they are. -/
def Joined (f : Function) (args : List Constant) (pred block : Nat) (ρ ρ' : Regs) : Prop :=
  ∃ b, f.blocks[block]? = some b ∧
    (∀ r edges, .phi r edges ∈ b.instrs → ∃ v c, b.Takes pred edges v ∧ v.read args ρ = some c ∧
      ρ' r.number = some c) ∧
    ∀ n, n ∉ b.joins → ρ' n = ρ n

/-- Executing instructions in a row that end a block.  A condition holds if its value is not zero. -/
inductive Runs (R : Reading) (f : Function) (args : List Constant) (k : Nat) (b : Block) :
    List Instr → Regs → List Constant → Point → Prop
  | step {i : Instr} {rest : List Instr} {ρ ρ' : Regs} {cs cs' : List Constant} {p : Point} :
    i.Exec R args ρ cs ρ' → Runs R f args k b rest ρ' cs' p →
    Runs R f args k b (i :: rest) ρ (cs ++ cs') p
  | jump {s : Nat} {ρ ρ' : Regs} : b.succs = [s] → f.Joined args k s ρ ρ' →
    Runs R f args k b [.jump] ρ [] (.head s ρ')
  | taken {v : Value} {c : Constant} {s s' : Nat} {ρ ρ' : Regs} : b.succs = [s, s'] →
    v.read args ρ = some c → c.value ≠ 0 → f.Joined args k s ρ ρ' →
    Runs R f args k b [.branch v] ρ [] (.head s ρ')
  | otherwise {v : Value} {c : Constant} {s s' : Nat} {ρ ρ' : Regs} : b.succs = [s, s'] →
    v.read args ρ = some c → c.value = 0 → f.Joined args k s' ρ ρ' →
    Runs R f args k b [.branch v] ρ [] (.head s' ρ')
  | return {vs : List Value} {span : Span} {ρ : Regs} :
    Runs R f args k b [.return vs span] ρ [] (.returned (vs.map (Value.read args ρ)) ρ)
  | panic {span : Span} {ρ : Regs} : Runs R f args k b [.panic span] ρ [] (.panicked ρ)

/-- A run on arguments has visited blocks in order, calls have returned some values, and the run has
come to a point. -/
inductive Reaches (R : Reading) (f : Function) (args : List Constant) :
    List Nat → List Constant → Point → Prop
  | start : Reaches R f args [] [] (.head 0 fun _ => none)
  | step {ks : List Nat} {cs cs' : List Constant} {k : Nat} {ρ : Regs} {b : Block} {p : Point} :
    Reaches R f args ks cs (.head k ρ) → f.blocks[k]? = some b → f.Runs R args k b b.instrs ρ cs' p →
    Reaches R f args (ks ++ [k]) (cs ++ cs') p

end Function

/-! ## Registers that hold values -/

/-- The registers of a set hold values. -/
def Regs.Covers (ρ : Regs) (D : Set Nat) : Prop :=
  ∀ n ∈ D, ∃ c, ρ n = some c

variable {R : Reading} {f : Function} {args : List Constant} {ρ ρ' : Regs} {D : Set Nat}
  {cs : List Constant} {b : Block}

theorem Regs.Covers.set (h : ρ.Covers D) (n : Nat) (c : Constant) :
    (ρ.set n c).Covers (D ∪ {n}) := by
  intro m hm
  by_cases hmn : m = n
  · exact ⟨c, by simp [Regs.set, hmn]⟩
  · obtain ⟨c', hc'⟩ := h m (hm.resolve_right hmn)
    exact ⟨c', by simpa [Regs.set, hmn] using hc'⟩

theorem Instr.Exec.covers {i : Instr} (h : i.Exec R args ρ cs ρ') (hρ : ρ.Covers D) :
    ρ'.Covers (D ∪ definedBy [i]) := by
  cases h with
  | debug | phi => simpa [definedBy, Instr.defines?, Instr.result?] using hρ
  | compute hr _ =>
    rw [definedBy_singleton hr]
    exact hρ.set _ _
  | call =>
    rw [definedBy_singleton rfl]
    exact hρ.set _ _

theorem Instr.Exec.covers_snoc {i : Instr} {done : List Instr} (h : i.Exec R args ρ cs ρ')
    (hρ : ρ.Covers (D ∪ definedBy done)) : ρ'.Covers (D ∪ definedBy (done ++ [i])) := by
  rw [definedBy_append, ← Set.union_assoc]
  exact h.covers hρ

namespace Function

theorem Joined.covers {k s : Nat} {b' : Block} (h : f.Joined args k s ρ ρ') (hρ : ρ.Covers D)
    (hb' : f.blocks[s]? = some b') : ρ'.Covers (D ∪ b'.joins) := by
  obtain ⟨b'', hb'', hphis, hothers⟩ := h
  obtain rfl := Option.mem_unique hb' hb''
  intro n hn
  by_cases hjoin : n ∈ b'.joins
  · obtain ⟨r, edges, hphi, rfl⟩ := hjoin
    obtain ⟨v, c, -, -, hc⟩ := hphis r edges hphi
    exact ⟨c, hc⟩
  · rw [hothers n hjoin]
    exact hρ n (hn.resolve_right hjoin)

/-- Registers that a path to the next block has defined hold values there. -/
theorem Runs.covers {k s : Nat} {done rest : List Instr} (harr : f.Arrives k D)
    (hb : f.blocks[k]? = some b) (hsplit : b.instrs = done ++ rest)
    (hρ : ρ.Covers (D ∪ definedBy done)) (h : f.Runs R args k b rest ρ cs (.head s ρ')) :
    ∃ D', f.Arrives s D' ∧ ρ'.Covers D' := by
  generalize hp : Point.head s ρ' = p at h
  -- the instruction that leaves the block defines nothing itself
  have hnext : ∀ {i : Instr} {ρ₁ ρ₂ : Regs} {s' : Nat} {done' : List Instr}, i.defines? = none →
      b.instrs = done' ++ [i] → s' ∈ b.succs → ρ₁.Covers (D ∪ definedBy done') →
      f.Joined args k s' ρ₁ ρ₂ → ∃ D', f.Arrives s' D' ∧ ρ₂.Covers D' := by
    intro i ρ₁ ρ₂ s' done' hnone hend hs' hcov hjoined
    have ⟨b', hb', _⟩ := hjoined
    refine ⟨_, .edge harr hb hs' hb', Joined.covers hjoined (fun n hn => hcov n ?_) hb'⟩
    rw [hend, definedBy_append] at hn
    simpa [definedBy, hnone] using hn
  induction h generalizing done with
  | step hi _ ih =>
    exact ih (by simpa using hsplit) (hi.covers_snoc hρ) hp
  | jump hs hj | taken hs _ _ hj | otherwise hs _ _ hj =>
    cases hp
    exact hnext rfl hsplit (by simp [hs]) hρ hj
  | «return» | panic => cases hp

/-- Registers that have been defined on the way hold values. -/
theorem Reaches.covers {k : Nat} {ks : List Nat} (h : f.Reaches R args ks cs (.head k ρ)) :
    ∃ D, f.Arrives k D ∧ ρ.Covers D := by
  generalize hp : Point.head k ρ = p at h
  induction h generalizing k ρ with
  | start =>
    cases hp
    exact ⟨∅, .entry, nofun⟩
  | step _ hb hrun ih =>
    subst hp
    obtain ⟨D, harr, hcov⟩ := ih rfl
    refine hrun.covers harr hb (List.nil_append _).symm ?_
    simpa [definedBy] using hcov

/-- Runs stand at blocks of the function. -/
theorem Reaches.exists_block {k : Nat} {ks : List Nat} (h : f.Reaches R args ks cs (.head k ρ))
    (hne : f.blocks ≠ []) : ∃ b, f.blocks[k]? = some b := by
  obtain ⟨D, harr, -⟩ := h.covers
  cases harr with
  | entry =>
    obtain ⟨b, bs, hblocks⟩ := List.exists_cons_of_ne_nil hne
    exact ⟨b, by simp [hblocks]⟩
  | edge _ _ _ hb' => exact ⟨_, hb'⟩

end Function

end Ssa
end NullPath
