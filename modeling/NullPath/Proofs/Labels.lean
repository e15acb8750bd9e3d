import NullPath.Proofs.Readability
import Mathlib.Data.Nat.Digits.Defs

/-!
# Numerals and labels

A label is the letter `x` and a decimal numeral.  The numerals that are read are the non-empty lists
of decimal digits, and they are read as the numbers that they denote, of whatever length they are.
Only the number decides whether a label fits into 64 bits: zeros in front do no harm.

* `Text.digitsValue?_eq_some`: the numerals that are read, and what they denote.
* `Text.signed?_toDigits`, `Name.parse?_label`: what is printed is read back.
* `Name.parse?_exact`: the labels are exactly what is read as a name, and no two names share one.
-/

namespace NullPath

/-! ## Numerals -/

namespace Text

variable {c : Char} {cs : List Char} {n : Nat}

/-- The number that a list of decimal digits denotes, of which the last one counts units. -/
def denoted (cs : List Char) : Nat :=
  Nat.ofDigits 10 (cs.reverse.map fun c => c.toNat - '0'.toNat)

theorem ofDigitChars_eq_denoted (cs : List Char) : Nat.ofDigitChars 10 cs 0 = denoted cs := by
  rw [denoted, Nat.ofDigits_eq_foldr, List.foldr_map, List.foldr_reverse, Nat.ofDigitChars_eq_foldl]
  simp only [Nat.add_comm, Nat.cast_id]

theorem anyDigit?_of_isDigit (h : c.isDigit = true) :
    anyDigit? c = some (c.toNat - '0'.toNat) ∧ c.toNat - '0'.toNat < 10 := by
  simp only [Char.isDigit, ge_iff_le, Bool.and_eq_true, decide_eq_true_eq] at h
  have hrange : '0' ≤ c ∧ c ≤ '9' := h
  have hhigh : c.toNat ≤ 57 := UInt32.le_iff_toNat_le.mp h.2
  have hzero : '0'.toNat = 48 := rfl
  exact ⟨by rw [anyDigit?, if_pos hrange], by omega⟩

/-- A digit below ten is a decimal one: letters stand for ten and more. -/
theorem isDigit_of_anyDigit? {d : Nat} (h : anyDigit? c = some d) (hd : d < 10) :
    c.isDigit = true := by
  unfold anyDigit? at h
  split at h
  · next hrange => exact Bool.and_eq_true_iff.mpr ⟨decide_eq_true hrange.1, decide_eq_true hrange.2⟩
  · split at h
    · cases h
      omega
    · split at h
      · cases h
        omega
      · cases h

/-- A list of digits is read as the number that it stands for. -/
theorem digitsFrom?_of_digits (h : ∀ c ∈ cs, c.isDigit = true) (acc : Nat) :
    digitsFrom? 10 acc cs = some (Nat.ofDigitChars 10 cs acc) := by
  induction cs generalizing acc with
  | nil => rfl
  | cons c cs ih =>
    obtain ⟨hc, hcs⟩ := List.forall_mem_cons.mp h
    obtain ⟨hdigit, hlt⟩ := anyDigit?_of_isDigit hc
    rw [digitsFrom?, hdigit, Nat.ofDigitChars_cons]
    simp only [if_pos hlt]
    rw [ih hcs, Nat.mul_comm]

/-- Nothing but digits is read. -/
theorem isDigit_of_digitsFrom? {acc : Nat} (h : digitsFrom? 10 acc cs = some n) :
    ∀ c ∈ cs, c.isDigit = true := by
  induction cs generalizing acc with
  | nil => simp
  | cons c cs ih =>
    rw [digitsFrom?] at h
    split at h
    · next d hd =>
      split at h
      · next hlt => exact List.forall_mem_cons.mpr ⟨isDigit_of_anyDigit? hd hlt, ih h⟩
      · cases h
    · cases h

/-- The numerals that are read are the non-empty lists of digits, and each is read as the number that
it denotes. -/
theorem digitsValue?_eq_some : digitsValue? 10 cs = some n ↔
    cs ≠ [] ∧ (∀ c ∈ cs, c.isDigit = true) ∧ denoted cs = n := by
  cases cs with
  | nil => simp [digitsValue?]
  | cons c cs =>
    rw [digitsValue?, ← ofDigitChars_eq_denoted]
    constructor
    · intro h
      have hdigits := isDigit_of_digitsFrom? h
      rw [digitsFrom?_of_digits hdigits] at h
      exact ⟨by simp, hdigits, Option.some.inj h⟩
    · rintro ⟨-, hdigits, rfl⟩
      exact digitsFrom?_of_digits hdigits 0
    · simp

theorem digitsValue?_toDigits (n : Nat) : digitsValue? 10 (Nat.toDigits 10 n) = some n := by
  refine digitsValue?_eq_some.mpr ⟨Nat.toDigits_ne_nil, fun c hc => Expr.isDigit_of_mem hc, ?_⟩
  rw [← ofDigitChars_eq_denoted, Nat.ofDigitChars_ten_toDigits]

theorem signed?_toDigits (n : Nat) : signed? (Nat.toDigits 10 n) = some (n : Int) := by
  have hsplit : splitSign (Nat.toDigits 10 n) = (false, Nat.toDigits 10 n) := by
    have hdigit : ∀ c ∈ Nat.toDigits 10 n, c.isDigit = true := fun c hc => Expr.isDigit_of_mem hc
    unfold splitSign
    split
    · next heq =>
      have := hdigit '+' (by rw [heq]; simp)
      cases this
    · next heq =>
      have := hdigit '-' (by rw [heq]; simp)
      cases this
    · rfl
  rw [signed?, hsplit]
  simp [digitsValue?_toDigits]

/-- No numeral has a semicolon in it. -/
theorem semicolon_notMem_of_digitsValue? (h : digitsValue? 10 cs = some n) : ';' ∉ cs :=
  fun hmem => Bool.false_ne_true ((digitsValue?_eq_some.mp h).2.1 ';' hmem)

theorem semicolon_notMem_of_signed? {v : Int} (h : signed? cs = some v) : ';' ∉ cs := by
  have hsplit : ';' ∈ cs → ';' ∈ (splitSign cs).2 := by
    unfold splitSign
    split <;> simp
  cases hdigits : digitsValue? 10 (splitSign cs).2 with
  | none => simp [signed?, hdigits] at h
  | some n => exact fun hmem => semicolon_notMem_of_digitsValue? hdigits (hsplit hmem)

end Text

/-! ## Labels -/

namespace Name

variable {s : String} {n : Name}

theorem label_injective : Function.Injective label := by
  intro n k h
  have hdigits : Nat.toDigits 10 n.index = Nat.toDigits 10 k.index := by
    have := congrArg String.toList h
    rw [toList_label, toList_label] at this
    exact (List.cons.inj this).2
  have hindex : some n.index = some k.index := by
    rw [← Text.digitsValue?_toDigits, hdigits, Text.digitsValue?_toDigits]
  exact Name.ext (Option.some.inj hindex)

/-- What is read as a name. -/
theorem parse?_eq_some : parse? s = some n ↔
    ∃ ds, s.toList = 'x' :: ds ∧ Text.digitsValue? 10 ds = some n.index ∧
      n.index < UInt64.size := by
  obtain ⟨i⟩ := n
  rw [parse?]
  split
  · next ds hs =>
    split
    · next k hk =>
      constructor
      · intro h
        obtain ⟨hlt, heq⟩ := Option.ite_none_right_eq_some.mp h
        cases heq
        exact ⟨ds, hs, hk, hlt⟩
      · rintro ⟨ds', hs', hds', hlt⟩
        obtain rfl : ds = ds' := (List.cons.inj (hs.symm.trans hs')).2
        cases hk.symm.trans hds'
        exact if_pos hlt
    · next hnone => simp [hs, hnone]
  · next hother => simpa using fun ds hs => (hother ds hs).elim

/-- A label is read back, if its number has at most 64 bits. -/
theorem parse?_label (h : n.index < UInt64.size) : parse? n.label = some n :=
  parse?_eq_some.mpr ⟨_, n.toList_label, Text.digitsValue?_toDigits _, h⟩

theorem semicolon_notMem_of_parse? (h : parse? s = some n) : ';' ∉ s.toList := by
  obtain ⟨ds, hs, hds, -⟩ := parse?_eq_some.mp h
  simpa [hs] using Text.semicolon_notMem_of_digitsValue? hds

/-- A text is read as a name exactly if it is the letter `x` followed by decimal digits, one at
least, that denote the number of the name, and this number has at most 64 bits.  The label of every
such name is read as this name, and no two names have the same label. -/
theorem parse?_exact :
    (∀ s n, parse? s = some n ↔ ∃ ds, s.toList = 'x' :: ds ∧ ds ≠ [] ∧
      (∀ c ∈ ds, c.isDigit = true) ∧ Text.denoted ds = n.index ∧ n.index < 2 ^ 64) ∧
    (∀ w : UInt64, parse? (label ⟨w.toNat⟩) = some ⟨w.toNat⟩) ∧ Function.Injective label := by
  refine ⟨fun s n => ?_, fun w => parse?_label w.toNat_lt, label_injective⟩
  simp only [parse?_eq_some, Text.digitsValue?_eq_some, and_assoc, UInt64.size]
  rfl

end Name
end NullPath
