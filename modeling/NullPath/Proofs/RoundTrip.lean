import NullPath.Proofs.Tokens

/-!
# Reading inverts printing

An atom is a symbol or a string literal.  A symbol has no blanks and no parentheses in it, and does
not start like a literal or a comment; in a literal every quote between the first and the last one is
doubled.  A tree of such atoms is read back from its printed form, whatever blank text follows, and
only such trees are ever read, however their text was laid out.

* `Smt.token_quoted`, `Smt.atom_of_token`: literals are read as atoms, and what atoms are read.
* `Sexp.read_inverts_text`: reading and printing.
-/

namespace NullPath

namespace Smt

variable {cs rest s w : List Char} {c : Char}

/-! ## String literals -/

/-- The text with every quote doubled. -/
def doubleQuotes (cs : List Char) : List Char :=
  cs.flatMap fun c => if c = '"' then ['"', '"'] else [c]

/-- A string literal: a text with doubled quotes, between quotes. -/
def Quoted (w : List Char) : Prop :=
  ∃ cs, w = '"' :: (doubleQuotes cs ++ ['"'])

theorem literalRest_cons (hc : c ≠ '"') (cs : List Char) :
    literalRest (c :: cs) = (literalRest cs).map fun (s, rest) => (c :: s, rest) := by
  rw [literalRest]
  · exact fun _ h => absurd h hc
  · exact hc

/-- A literal ends at the first quote that is not doubled. -/
theorem literalRest_doubleQuotes (hrest : rest.head? ≠ some '"') (cs : List Char) :
    literalRest (doubleQuotes cs ++ '"' :: rest) = some (doubleQuotes cs ++ ['"'], rest) := by
  induction cs with
  | nil =>
    cases rest with
    | nil => rfl
    | cons c rest =>
      have hc : c ≠ '"' := by simpa using hrest
      simp [doubleQuotes, literalRest, hc]
  | cons c cs ih =>
    by_cases hc : c = '"'
    · subst hc
      have hcons : doubleQuotes ('"' :: cs) = '"' :: '"' :: doubleQuotes cs := rfl
      rw [hcons]
      simp [literalRest, ih]
    · have hcons : doubleQuotes (c :: cs) = c :: doubleQuotes cs := by simp [doubleQuotes, hc]
      rw [hcons, List.cons_append, literalRest_cons hc, ih]
      rfl

/-- All quotes of a literal but the last one are doubled. -/
theorem exists_doubleQuotes (h : literalRest cs = some (s, rest)) :
    ∃ t, s = doubleQuotes t ++ ['"'] := by
  fun_induction literalRest cs generalizing s rest with
  | case1 => cases h
  | case2 cs ih =>
    obtain ⟨⟨s', rest'⟩, h', heq⟩ := Option.map_eq_some_iff.1 h
    cases heq
    obtain ⟨t, rfl⟩ := ih h'
    exact ⟨'"' :: t, rfl⟩
  | case3 cs _ =>
    cases h
    exact ⟨[], rfl⟩
  | case4 c cs _ hc ih =>
    obtain ⟨⟨s', rest'⟩, h', heq⟩ := Option.map_eq_some_iff.1 h
    cases heq
    obtain ⟨t, rfl⟩ := ih h'
    have hc : c ≠ '"' := hc
    exact ⟨c :: t, by simp [doubleQuotes, hc]⟩

/-- A string literal is read as an atom. -/
theorem token_quoted (hw : Quoted w) : Atomic w := by
  obtain ⟨cs, rfl⟩ := hw
  intro rest hrest
  have hhead : rest.head? ≠ some '"' := by
    rintro h
    obtain ⟨rest, rfl⟩ := List.head?_eq_some_iff.mp h
    cases hrest
  have hskip : skip false ('"' :: (doubleQuotes cs ++ '"' :: rest)) =
      '"' :: (doubleQuotes cs ++ '"' :: rest) := rfl
  rw [List.cons_append, List.append_assoc, List.singleton_append, token, hskip]
  simp only [literalRest_doubleQuotes hhead]

/-! ## The atoms that are read -/

/-- The text after blanks and comments starts with neither. -/
theorem isBlank_of_skip {b : Bool} (h : skip b cs = c :: rest) :
    Text.isBlank c = false ∧ c ≠ ';' := by
  induction cs generalizing b with
  | nil => cases b <;> cases h
  | cons d cs ih =>
    cases b with
    | true =>
      rw [skip] at h
      split at h
      · exact ih h
      · exact ih h
    | false =>
      rw [skip] at h
      split at h
      · exact ih h
      · next hsemi =>
        split at h
        · exact ih h
        · next hblank =>
          cases h
          exact ⟨by simpa using hblank, hsemi⟩

/-- Every atom that is read is a symbol or a string literal. -/
theorem atom_of_token (h : token cs = .ok (.atom w, rest)) : Symbolic w ∨ Quoted w := by
  unfold token at h
  split at h
  · cases h
  · cases h
  · cases h
  · split at h
    · next hs =>
      cases h
      obtain ⟨t, rfl⟩ := exists_doubleQuotes hs
      exact .inr ⟨t, rfl⟩
    · cases h
  · next c cs' hopen hclose hquote hskip =>
    cases h
    obtain ⟨hblank, hsemi⟩ := isBlank_of_skip hskip
    have hc : isSymbolChar c = true := by
      simpa [isSymbolChar, hblank] using ⟨hopen, hclose⟩
    refine .inl ⟨?_, by simp, by simpa using hquote, by simpa using hsemi⟩
    rw [List.all_cons, hc, List.all_takeWhile, Bool.and_self]

/-- All atoms among the tokens of a text are symbols and string literals. -/
theorem Tokenizes.atom {ts : List Token} (h : Tokenizes cs ts rest) (hw : .atom w ∈ ts) :
    Symbolic w ∨ Quoted w := by
  induction h with
  | nil => cases hw
  | cons first _ ih =>
    rcases List.mem_cons.mp hw with rfl | hw
    · exact atom_of_token first
    · exact ih hw

end Smt

namespace Sexp

/-- A tree whose atoms are symbols and string literals. -/
def WellFormed (e : Sexp) : Prop :=
  ∀ w, .atom w ∈ e.tokens → Smt.Symbolic w ∨ Smt.Quoted w

/-- A printed tree is read back in front of the end of the text and of every blank. -/
theorem WellFormed.read_text {e : Sexp} (he : e.WellFormed) {rest : List Char}
    (hrest : ∀ c ∈ rest.head?, Text.isBlank c = true) :
    read (e.text.toList ++ rest) = .ok (e, rest) := by
  refine Smt.read_of_tokenizes (Smt.tokenizes_text e (fun w hw => ?_) rest ?_)
  · rcases he w hw with hw | hw
    · exact fun _ => Smt.token_symbol hw
    · exact Smt.token_quoted hw
  · cases rest with
    | nil => rfl
    | cons c rest => simp [Smt.isSymbolChar, hrest c rfl]

/-- Reading inverts printing.  A tree of symbols and string literals is read back from its printed
form, and the text that follows is left as it is; and every tree that is read is one of these, so
that it is read again from its own printed form. -/
theorem read_inverts_text :
    (∀ e, e.WellFormed → ∀ rest, (∀ c ∈ rest.head?, Text.isBlank c = true) →
      read (e.text.toList ++ rest) = .ok (e, rest)) ∧
    ∀ cs e rest, read cs = .ok (e, rest) →
      e.WellFormed ∧ read e.text.toList = .ok (e, []) := by
  refine ⟨fun e he rest hrest => he.read_text hrest, fun cs e rest h => ?_⟩
  have he : e.WellFormed := fun w hw => (Smt.tokenizes_of_read h).atom hw
  have hread : read (e.text.toList ++ []) = .ok (e, []) := he.read_text (by simp)
  rw [List.append_nil] at hread
  exact ⟨he, hread⟩

end Sexp

end NullPath
