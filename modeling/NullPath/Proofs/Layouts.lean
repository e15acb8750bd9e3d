import NullPath.Proofs.Tokens
import Mathlib.Data.List.Chain

/-!
# Layouts of tokens

Blanks and comments may stand before any token, and something must stand between two atoms.  The
reader finds the tokens of such a layout with one exception.  A semicolon is not one of the
characters that end a symbol, so a comment that starts right after an atom is taken for a part of
the atom.  In all other layouts the tokens are found as they were laid out.

* `Separated`: two atoms have something between them.  `Detached`: no comment touches an atom.
* `tokenizes_layout`: the tokens of a layout are found if no comment touches an atom.
-/

namespace NullPath.Smt

/-- What may stand between two tokens: a blank, or a comment up to the end of its line. -/
inductive Filler
  | blank (c : Char) (isBlank : Text.isBlank c = true)
  | comment (body : List Char) (oneLine : '\n' ∉ body)

namespace Filler

/-- The text of a blank or a comment. -/
def chars : Filler → List Char
  | .blank c _ => [c]
  | .comment body _ => ';' :: (body ++ ['\n'])

/-- Whether it is a comment. -/
def isComment : Filler → Bool
  | .blank _ _ => false
  | .comment _ _ => true

end Filler

namespace Token

/-- The text of a token. -/
def chars : Token → List Char
  | .opening => ['(']
  | .closing => [')']
  | .atom a => a

/-- Whether it is an atom. -/
def isAtom : Token → Bool
  | .atom _ => true
  | _ => false

theorem exists_of_isAtom {t : Token} (h : t.isAtom = true) : ∃ a, t = .atom a := by
  cases t with
  | opening | closing => cases h
  | atom a => exact ⟨a, rfl⟩

end Token

/-- A token, and what stands before it. -/
structure Placed where
  gap : List Filler
  token : Token

/-- The text of a token with what stands before it. -/
def Placed.chars (p : Placed) : List Char :=
  p.gap.flatMap Filler.chars ++ p.token.chars

/-- Whether what stands before the token begins with a comment. -/
def Placed.startsWithComment (p : Placed) : Bool :=
  p.gap.head?.any Filler.isComment

/-- The text of tokens that are laid out. -/
def layout (l : List Placed) : List Char :=
  l.flatMap Placed.chars

/-- Between two atoms there is a blank or a comment. -/
def Separated (l : List Placed) : Prop :=
  l.IsChain fun p p' => p.token.isAtom = true → p'.token.isAtom = true → p'.gap ≠ []

/-- No comment starts right after an atom. -/
def Detached (l : List Placed) : Prop :=
  l.IsChain fun p p' => p.token.isAtom = true → p'.startsWithComment = false

/-- The atoms of the layout are such that are read as they are written. -/
def Legible (l : List Placed) : Prop :=
  ∀ p ∈ l, ∀ a, p.token = .atom a → Symbolic a

variable {p p' : Placed} {l : List Placed} {cs rest : List Char}

/-! ## Gaps -/

theorem skip_comment {body : List Char} (h : '\n' ∉ body) (cs : List Char) :
    skip true (body ++ '\n' :: cs) = skip false cs := by
  induction body with
  | nil => simp [skip]
  | cons c body ih =>
    have hc : c ≠ '\n' := fun hc => h (by simp [hc])
    simp [skip, hc, ih fun hmem => h (by simp [hmem])]

theorem token_filler (f : Filler) (cs : List Char) : token (f.chars ++ cs) = token cs := by
  cases f with
  | blank c h => exact token_blank h cs
  | comment body h =>
    refine token_eq_of_skip_eq ?_
    simp [Filler.chars, skip, skip_comment h]

theorem token_gap (g : List Filler) (cs : List Char) :
    token (g.flatMap Filler.chars ++ cs) = token cs := by
  induction g with
  | nil => rfl
  | cons f g ih => rw [List.flatMap_cons, List.append_assoc, token_filler, ih]

/-! ## Tokens of a layout -/

/-- A token is found after its gap, if what follows does not go on with its symbol. -/
theorem token_placed (hp : ∀ a, p.token = .atom a → Symbolic a)
    (hrest : p.token.isAtom = true → rest.takeWhile isSymbolChar = []) :
    token (p.chars ++ rest) = .ok (p.token, rest) := by
  obtain ⟨g, t⟩ := p
  rw [Placed.chars, List.append_assoc, token_gap]
  cases t with
  | opening => exact token_opening rest
  | closing => exact token_closing rest
  | atom a => exact token_symbol (hp a rfl) (hrest rfl)

/-- After an atom that no comment touches, the next token does not go on with its symbol. -/
theorem takeWhile_placed (hsep : p'.token.isAtom = true → p'.gap ≠ [])
    (hdet : p'.startsWithComment = false) (cs : List Char) :
    (p'.chars ++ cs).takeWhile isSymbolChar = [] := by
  obtain ⟨g, t⟩ := p'
  cases g with
  | nil =>
    cases t with
    | opening | closing => rfl
    | atom a => exact absurd rfl (hsep rfl)
  | cons f g =>
    cases f with
    | blank c h =>
      have hc : isSymbolChar c = false := by simp [isSymbolChar, h]
      simp [Placed.chars, Filler.chars, hc]
    | comment body h => cases hdet

theorem token_layout (hsep : Separated (p :: p' :: l)) (hl : Legible (p :: p' :: l))
    (hdet : p.token.isAtom = true → p'.startsWithComment = false) (rest : List Char) :
    token (layout (p :: p' :: l) ++ rest) = .ok (p.token, layout (p' :: l) ++ rest) := by
  have htext : layout (p :: p' :: l) ++ rest = p.chars ++ (layout (p' :: l) ++ rest) := by
    simp [layout]
  rw [htext]
  refine token_placed (hl p (by simp)) fun hp => ?_
  have htext : layout (p' :: l) ++ rest = p'.chars ++ (layout l ++ rest) := by simp [layout]
  rw [htext]
  exact takeWhile_placed ((List.isChain_cons_cons.mp hsep).1 hp) (hdet hp) _

/-- A comment that starts right after an atom is read as a part of the atom. -/
theorem token_glued {a : List Char} (hp : p.token = .atom a) (ha : Symbolic a)
    (hcomment : p'.startsWithComment = true) (cs : List Char) :
    ∃ w rest, token (p.chars ++ (p'.chars ++ cs)) = .ok (.atom (a ++ ';' :: w), rest) := by
  obtain ⟨g, t⟩ := p'
  cases g with
  | nil => cases hcomment
  | cons f g =>
    cases f with
    | blank c h => cases hcomment
    | comment body h =>
      have htext : Placed.chars ⟨.comment body h :: g, t⟩ ++ cs =
          ';' :: (body ++ '\n' :: (g.flatMap Filler.chars ++ (t.chars ++ cs))) := by
        simp [Placed.chars, Filler.chars]
      have hsemi : isSymbolChar ';' = true := by decide
      rw [htext, Placed.chars, List.append_assoc, token_gap, hp, Token.chars,
        token_symbol_append ha, List.takeWhile_cons_of_pos hsemi]
      exact ⟨_, _, rfl⟩

theorem Legible.tail (h : Legible (p :: l)) : Legible l :=
  fun p' hp' => h p' (by simp [hp'])

/-- If no comment touches an atom, the tokens of a layout are found. -/
theorem tokenizes_layout (hsep : Separated l) (hdet : Detached l) (hl : Legible l)
    (hlast : ∀ p ∈ l.getLast?, p.token.isAtom = false) (rest : List Char) :
    Tokenizes (layout l ++ rest) (l.map Placed.token) rest := by
  induction l with
  | nil => exact .nil rest
  | cons p l ih =>
    cases l with
    | nil =>
      have hp : p.token.isAtom = false := hlast p rfl
      refine .cons ?_ (.nil rest)
      rw [layout, List.flatMap_cons, List.flatMap_nil, List.append_nil]
      exact token_placed (hl p (by simp)) fun h => by simp [hp] at h
    | cons p' l =>
      have hdet' := List.isChain_cons_cons.mp hdet
      exact .cons (token_layout hsep hl hdet'.1 rest)
        (ih (List.isChain_cons_cons.mp hsep).2 hdet'.2 hl.tail (by simpa using hlast))

/-- If comments touch atoms, the tokens are found up to the first such atom, which is found with a
semicolon in it.  It is not the last token. -/
theorem exists_glued (hsep : Separated l) (hdet : ¬Detached l) (hl : Legible l)
    (rest : List Char) :
    ∃ before a t after w rest',
      l.map Placed.token = before ++ .atom a :: t :: after ∧
        Tokenizes (layout l ++ rest) (before ++ [.atom (a ++ ';' :: w)]) rest' := by
  induction l with
  | nil => exact absurd List.IsChain.nil hdet
  | cons p l ih =>
    cases l with
    | nil => exact absurd (List.isChain_singleton p) hdet
    | cons p' l =>
      by_cases htouch : p.token.isAtom = true → p'.startsWithComment = false
      · have hdet' : ¬Detached (p' :: l) := fun h => hdet (List.isChain_cons_cons.mpr ⟨htouch, h⟩)
        obtain ⟨before, a, t, after, w, rest', htokens, hfound⟩ :=
          ih (List.isChain_cons_cons.mp hsep).2 hdet' hl.tail
        exact ⟨p.token :: before, a, t, after, w, rest', by simpa using htokens,
          .cons (token_layout hsep hl htouch rest) hfound⟩
      · obtain ⟨hatom, hcomment⟩ := Classical.not_imp.mp htouch
        obtain ⟨a, ha⟩ := Token.exists_of_isAtom hatom
        obtain ⟨w, rest', hglued⟩ := token_glued ha (hl p (by simp) a ha)
          (Bool.not_eq_false _ |>.mp hcomment) (layout l ++ rest)
        refine ⟨[], a, p'.token, l.map Placed.token, w, rest', by simp [ha], .cons ?_ (.nil rest')⟩
        rw [← hglued]
        simp [layout]

end NullPath.Smt
