import NullPath.Error
import NullPath.Text.Blank

/-!
# S-expressions

What a solver prints is a sequence of s-expressions: atoms, and lists in parentheses.  Blanks
separate them, and a semicolon starts a comment that ends with the line.  An atom that starts
with a double quote is a string literal, in which a doubled quote stands for a quote.

* `Sexp`: the trees, with `Sexp.text` as their form.
* `Sexp.unquote`: the contents of a string literal.
* `token`: the first token of a text, and the text after it.
* `Sexp.read`: the first tree of a text, and the text after it.
* `Sexp.readAll`: all trees of a text, and what stopped the reading.
-/

namespace NullPath

/-- An atom or a list. -/
inductive Sexp
  | atom (text : String)
  | list (items : List Sexp)

namespace Sexp

mutual

/-- The form of a tree. -/
def text : Sexp → String
  | .atom s => s
  | .list items => "(" ++ textItems items ++ ")"

/-- The forms of trees, separated by blanks. -/
def textItems : List Sexp → String
  | [] => ""
  | [e] => text e
  | e :: es => text e ++ " " ++ textItems es

end

/-- The text of an atom; a list has the empty one. -/
def atomText : Sexp → String
  | .atom s => s
  | .list _ => ""

/-- Joins doubled quotes. -/
def joinQuotes : List Char → List Char
  | '"' :: '"' :: cs => '"' :: joinQuotes cs
  | c :: cs => c :: joinQuotes cs
  | [] => []

/-- The contents of a string literal; any other atom is its own contents. -/
def unquote (e : Sexp) : String :=
  match e.atomText.toList with
  | '"' :: c :: cs =>
    if (c :: cs).getLast? = some '"' then String.ofList (joinQuotes (c :: cs).dropLast)
    else e.atomText
  | _ => e.atomText

end Sexp

namespace Smt

/-- Why no tree could be read. -/
inductive ReadError
  | endOfInput
  | openString
  | strayClose
  deriving DecidableEq, Repr

/-- A reading failure as an error. -/
def ReadError.toError : ReadError → Error
  | .endOfInput => .of .endOfInput
  | .openString => .of .unexpectedEnd
  | .strayClose => .ofText "unexpected ')'"

/-- The text after blanks and comments.  The flag tells that a comment is being skipped. -/
def skip : Bool → List Char → List Char
  | _, [] => []
  | true, c :: cs => if c = '\n' then skip false cs else skip true cs
  | false, c :: cs =>
    if c = ';' then skip true cs
    else if Text.isBlank c then skip false cs
    else c :: cs

/-- The rest of a string literal after its opening quote, and the text after it. -/
def literalRest : List Char → Option (List Char × List Char)
  | [] => none
  | '"' :: '"' :: cs => (literalRest cs).map fun (s, rest) => ('"' :: '"' :: s, rest)
  | '"' :: cs => some (['"'], cs)
  | c :: cs => (literalRest cs).map fun (s, rest) => (c :: s, rest)

/-- The characters that a symbol is made of. -/
def isSymbolChar (c : Char) : Bool :=
  !(Text.isBlank c || c == '(' || c == ')')

/-- The parts of which trees are written. -/
inductive Token
  | opening
  | closing
  | atom (text : List Char)
  deriving DecidableEq, Repr

/-- The first token of a text, and the text after it. -/
def token (cs : List Char) : Except ReadError (Token × List Char) :=
  match skip false cs with
  | [] => .error .endOfInput
  | '(' :: rest => .ok (.opening, rest)
  | ')' :: rest => .ok (.closing, rest)
  | '"' :: rest =>
    match literalRest rest with
    | some (s, rest') => .ok (.atom ('"' :: s), rest')
    | none => .error .openString
  | c :: rest => .ok (.atom (c :: rest.takeWhile isSymbolChar), rest.dropWhile isSymbolChar)

theorem length_skip_le (b : Bool) (cs : List Char) : (skip b cs).length ≤ cs.length := by
  induction cs generalizing b with
  | nil => cases b <;> simp [skip]
  | cons c cs ih =>
    cases b with
    | true =>
      simp only [skip]
      split
      · exact Nat.le_succ_of_le (ih false)
      · exact Nat.le_succ_of_le (ih true)
    | false =>
      simp only [skip]
      split
      · exact Nat.le_succ_of_le (ih true)
      · split
        · exact Nat.le_succ_of_le (ih false)
        · exact Nat.le_refl _

theorem length_of_literalRest {cs s rest : List Char} (h : literalRest cs = some (s, rest)) :
    rest.length < cs.length := by
  fun_induction literalRest cs generalizing s rest with
  | case1 => simp at h
  | case2 cs ih =>
    obtain ⟨⟨s', r'⟩, h', ⟨⟩⟩ := Option.map_eq_some_iff.1 h
    have := ih h'
    simp only [List.length_cons]
    omega
  | case3 cs _ =>
    obtain ⟨rfl, rfl⟩ := Prod.mk.inj (Option.some.inj h)
    simp
  | case4 c cs _ _ ih =>
    obtain ⟨⟨s', r'⟩, h', ⟨⟩⟩ := Option.map_eq_some_iff.1 h
    have := ih h'
    simp only [List.length_cons]
    omega

theorem length_dropWhile_le (p : Char → Bool) (cs : List Char) :
    (cs.dropWhile p).length ≤ cs.length :=
  (List.dropWhile_sublist p).length_le

/-- A token takes up at least one character. -/
theorem length_of_token {cs rest : List Char} {t : Token} (h : token cs = .ok (t, rest)) :
    rest.length < cs.length := by
  have hs := length_skip_le false cs
  unfold token at h
  split at h
  · cases h
  · next r hr =>
    cases h
    rw [hr, List.length_cons] at hs
    omega
  · next r hr =>
    cases h
    rw [hr, List.length_cons] at hs
    omega
  · next r hr =>
    rw [hr, List.length_cons] at hs
    split at h
    · next s r' hl =>
      cases h
      have := length_of_literalRest hl
      omega
    · cases h
  · next c r _ _ _ hr =>
    cases h
    rw [hr, List.length_cons] at hs
    have := length_dropWhile_le isSymbolChar r
    omega

/-- Reads on inside the lists that have been opened, the innermost one first.  The items of an
open list are kept in reverse. -/
def readWithin (opened : List (List Sexp)) (cs : List Char) :
    Except ReadError (Sexp × List Char) :=
  match h : token cs with
  | .error e => .error e
  | .ok (.opening, rest) =>
    have := length_of_token h
    readWithin ([] :: opened) rest
  | .ok (.closing, rest) =>
    have := length_of_token h
    match opened with
    | [] => .error .strayClose
    | [items] => .ok (.list items.reverse, rest)
    | items :: outer :: more => readWithin ((.list items.reverse :: outer) :: more) rest
  | .ok (.atom a, rest) =>
    have := length_of_token h
    match opened with
    | [] => .ok (.atom (String.ofList a), rest)
    | items :: more => readWithin ((.atom (String.ofList a) :: items) :: more) rest
termination_by cs.length

end Smt

namespace Sexp

/-- The first tree of a text, and the text after it. -/
def read (cs : List Char) : Except Smt.ReadError (Sexp × List Char) :=
  Smt.readWithin [] cs

/-- The trees of a text up to the first that cannot be read, and why.  The bound is the length of
the text, because every tree takes up a character. -/
def readAllWithin : Nat → List Char → List Sexp × Smt.ReadError
  | 0, _ => ([], .endOfInput)
  | n + 1, cs =>
    match read cs with
    | .error e => ([], e)
    | .ok (e, rest) =>
      let (es, stop) := readAllWithin n rest
      (e :: es, stop)

/-- The trees of a text up to the first that cannot be read, and why. -/
def readAll (cs : List Char) : List Sexp × Smt.ReadError :=
  readAllWithin (cs.length + 1) cs

end Sexp

end NullPath
