import NullPath.Smt.Sexp

/-!
# Trees as sequences of tokens

A tree is written with the same tokens however it is laid out: its atoms, and a pair of parentheses
for each list.  The reader sees a text only through its tokens.  If a text begins with the tokens of
a tree, this tree is read; and if a tree is read, its tokens are what has been taken from the text.

* `Smt.read_of_tokenizes`, `Smt.tokenizes_of_read`: what is read, and what has been taken.
* `Sexp.eq_of_tokens_initial`: no tree is written with a part of the tokens of another.
* `Sexp.Plain`, `Smt.tokenizes_text`: the printed form of a tree has the tokens of the tree.
-/

namespace NullPath

open Sexp

namespace Sexp

mutual

/-- The tokens of a tree. -/
def tokens : Sexp → List Smt.Token
  | .atom s => [.atom s.toList]
  | .list items => .opening :: (itemTokens items ++ [.closing])

/-- The tokens of trees that stand one after the other. -/
def itemTokens : List Sexp → List Smt.Token
  | [] => []
  | e :: es => tokens e ++ itemTokens es

end

theorem itemTokens_append (es es' : List Sexp) :
    itemTokens (es ++ es') = itemTokens es ++ itemTokens es' := by
  induction es with
  | nil => rfl
  | cons e es ih => rw [List.cons_append, itemTokens, ih, itemTokens, List.append_assoc]

theorem mem_itemTokens {t : Smt.Token} {es : List Sexp} :
    t ∈ itemTokens es ↔ ∃ e ∈ es, t ∈ e.tokens := by
  induction es with
  | nil => simp [itemTokens]
  | cons e es ih => simp [itemTokens, ih]

theorem tokens_ne_nil (e : Sexp) : e.tokens ≠ [] := by
  cases e <;> simp [tokens]

end Sexp

namespace Smt

variable {cs cs' rest rest' : List Char} {t : Token} {ts us : List Token}

/-! ## Texts as sequences of tokens -/

/-- The first text begins with the tokens, and the second text follows them. -/
inductive Tokenizes : List Char → List Token → List Char → Prop
  | nil (cs : List Char) : Tokenizes cs [] cs
  | cons {cs cs' rest : List Char} {t : Token} {ts : List Token} (first : token cs = .ok (t, cs'))
      (others : Tokenizes cs' ts rest) : Tokenizes cs (t :: ts) rest

namespace Tokenizes

theorem append (h : Tokenizes cs ts cs') (h' : Tokenizes cs' us rest) :
    Tokenizes cs (ts ++ us) rest := by
  induction h with
  | nil => exact h'
  | cons first _ ih => exact .cons first (ih h')

theorem exists_of_cons (h : Tokenizes cs (t :: ts) rest) :
    ∃ cs', token cs = .ok (t, cs') ∧ Tokenizes cs' ts rest := by
  cases h with
  | cons first others => exact ⟨_, first, others⟩

theorem exists_of_append (h : Tokenizes cs (ts ++ us) rest) :
    ∃ cs', Tokenizes cs ts cs' ∧ Tokenizes cs' us rest := by
  induction ts generalizing cs with
  | nil => exact ⟨cs, .nil cs, h⟩
  | cons t ts ih =>
    obtain ⟨mid, first, others⟩ := h.exists_of_cons
    obtain ⟨cs', hts, hus⟩ := ih others
    exact ⟨cs', .cons first hts, hus⟩

/-- Of two sequences of tokens with which one text begins, one goes on with the other. -/
theorem comparable (h : Tokenizes cs ts rest) (h' : Tokenizes cs us rest') :
    ts <+: us ∨ us <+: ts := by
  induction h generalizing us with
  | nil => exact .inl List.nil_prefix
  | cons first others ih =>
    cases h' with
    | nil => exact .inr List.nil_prefix
    | cons first' others' =>
      cases first.symm.trans first'
      exact (ih others').imp (List.prefix_cons_inj _).mpr (List.prefix_cons_inj _).mpr

/-- A text that begins with other characters which the reader skips has the same tokens. -/
theorem of_token_eq (h : Tokenizes cs ts rest) (hts : ts ≠ []) (htoken : token cs' = token cs) :
    Tokenizes cs' ts rest := by
  cases h with
  | nil => exact absurd rfl hts
  | cons first others => exact .cons (htoken.trans first) others

end Tokenizes

/-! ## Reading tokens -/

/-- What the reader does with a finished tree: it is the result, or an item of the innermost list
that is open. -/
def deliver (e : Sexp) (opened : List (List Sexp)) (rest : List Char) :
    Except ReadError (Sexp × List Char) :=
  match opened with
  | [] => .ok (e, rest)
  | items :: more => readWithin ((e :: items) :: more) rest

theorem readWithin_error {err : ReadError} (h : token cs = .error err)
    (opened : List (List Sexp)) : readWithin opened cs = .error err := by
  rw [readWithin]
  split <;> simp_all

theorem readWithin_stray (h : token cs = .ok (.closing, rest)) :
    readWithin [] cs = .error .strayClose := by
  rw [readWithin]
  split <;> simp_all

theorem readWithin_opening (h : token cs = .ok (.opening, rest)) (opened : List (List Sexp)) :
    readWithin opened cs = readWithin ([] :: opened) rest := by
  rw [readWithin]
  split <;> simp_all

theorem readWithin_closing (h : token cs = .ok (.closing, rest)) (items : List Sexp)
    (more : List (List Sexp)) :
    readWithin (items :: more) cs = deliver (.list items.reverse) more rest := by
  rw [readWithin]
  split <;> simp_all
  cases more <;> rfl

theorem readWithin_atom {a : List Char} (h : token cs = .ok (.atom a, rest))
    (opened : List (List Sexp)) :
    readWithin opened cs = deliver (.atom (String.ofList a)) opened rest := by
  rw [readWithin]
  split <;> simp_all
  cases opened <;> rfl

mutual

/-- A text that begins with the tokens of a tree is read as this tree, in any context. -/
theorem readWithin_of_tokenizes (e : Sexp) {cs rest : List Char} (h : Tokenizes cs e.tokens rest)
    (opened : List (List Sexp)) : readWithin opened cs = deliver e opened rest := by
  cases e with
  | atom s =>
    obtain ⟨cs', first, others⟩ := h.exists_of_cons
    cases others
    rw [readWithin_atom first, String.ofList_toList]
  | list items =>
    obtain ⟨cs', first, others⟩ := h.exists_of_cons
    obtain ⟨mid, hitems, hlast⟩ := others.exists_of_append
    obtain ⟨cs'', last, hnil⟩ := hlast.exists_of_cons
    cases hnil
    rw [readWithin_opening first, readWithin_of_itemTokens items hitems, List.append_nil,
      readWithin_closing last, List.reverse_reverse]

/-- Trees that stand one after the other become items of the innermost list that is open. -/
theorem readWithin_of_itemTokens (es : List Sexp) {cs rest : List Char}
    (h : Tokenizes cs (itemTokens es) rest) (items : List Sexp) (more : List (List Sexp)) :
    readWithin (items :: more) cs = readWithin ((es.reverse ++ items) :: more) rest := by
  cases es with
  | nil =>
    cases h
    rfl
  | cons e es =>
    obtain ⟨mid, he, hes⟩ := h.exists_of_append
    rw [readWithin_of_tokenizes e he, deliver, readWithin_of_itemTokens es hes, List.reverse_cons,
      List.append_assoc, List.singleton_append]

end

/-- A text that begins with the tokens of a tree is read as this tree. -/
theorem read_of_tokenizes {e : Sexp} (h : Tokenizes cs e.tokens rest) : read cs = .ok (e, rest) :=
  readWithin_of_tokenizes e h []

/-- The tokens that have been taken for lists that are still open. -/
def openTokens : List (List Sexp) → List Token
  | [] => []
  | items :: more => openTokens more ++ .opening :: Sexp.itemTokens items.reverse

theorem openTokens_cons_cons (e : Sexp) (items : List Sexp) (more : List (List Sexp)) :
    openTokens ((e :: items) :: more) = openTokens (items :: more) ++ e.tokens := by
  simp [openTokens, itemTokens_append, itemTokens]

/-- Whatever is read, the tokens taken before and after make up the tokens of the tree. -/
theorem tokenizes_of_readWithin {e : Sexp} {opened : List (List Sexp)}
    (h : readWithin opened cs = .ok (e, rest)) :
    ∃ ts, Tokenizes cs ts rest ∧ openTokens opened ++ ts = e.tokens := by
  induction hn : cs.length using Nat.strongRecOn generalizing cs opened with
  | ind n ih =>
    subst hn
    cases htoken : token cs with
    | error err =>
      rw [readWithin_error htoken] at h
      cases h
    | ok p =>
      obtain ⟨t, mid⟩ := p
      have hlt := length_of_token htoken
      -- a token is moved from the text to what has been taken
      have hmove : ∀ {taken : List Token}, openTokens opened ++ [t] = taken →
          (∃ ts, Tokenizes mid ts rest ∧ taken ++ ts = e.tokens) →
          ∃ ts, Tokenizes cs ts rest ∧ openTokens opened ++ ts = e.tokens := by
        rintro _ rfl ⟨ts, hts, heq⟩
        exact ⟨t :: ts, .cons htoken hts, by rw [← heq, List.append_assoc, List.singleton_append]⟩
      have hdeliver : ∀ {x : Sexp} {more : List (List Sexp)}, deliver x more mid = .ok (e, rest) →
          ∃ ts, Tokenizes mid ts rest ∧ (openTokens more ++ x.tokens) ++ ts = e.tokens := by
        intro x more hx
        cases more with
        | nil =>
          cases hx
          exact ⟨[], .nil _, by simp [openTokens]⟩
        | cons items more =>
          obtain ⟨ts, hts, heq⟩ := ih _ hlt hx rfl
          exact ⟨ts, hts, by rw [← openTokens_cons_cons, heq]⟩
      cases t with
      | opening =>
        rw [readWithin_opening htoken] at h
        exact hmove (by simp [openTokens, itemTokens]) (ih _ hlt h rfl)
      | closing =>
        cases opened with
        | nil =>
          rw [readWithin_stray htoken] at h
          cases h
        | cons items more =>
          rw [readWithin_closing htoken] at h
          exact hmove (by simp [openTokens, tokens]) (hdeliver h)
      | atom a =>
        rw [readWithin_atom htoken] at h
        exact hmove (by simp [tokens]) (hdeliver h)

/-- If a tree is read, its tokens have been taken from the text. -/
theorem tokenizes_of_read {e : Sexp} (h : read cs = .ok (e, rest)) :
    Tokenizes cs e.tokens rest := by
  obtain ⟨ts, hts, heq⟩ := tokenizes_of_readWithin h
  rw [openTokens, List.nil_append] at heq
  rwa [heq] at hts

/-! ## Printed forms -/

/-- A text that is read as an atom, if no further symbol character follows it. -/
def Symbolic (w : List Char) : Prop :=
  w.all isSymbolChar ∧ w.head? ≠ none ∧ w.head? ≠ some '"' ∧ w.head? ≠ some ';'

instance (w : List Char) : Decidable (Symbolic w) :=
  inferInstanceAs (Decidable (_ ∧ _ ∧ _ ∧ _))

theorem isBlank_eq_false {c : Char} (h : isSymbolChar c = true) : Text.isBlank c = false := by
  simp only [isSymbolChar, Bool.not_eq_true', Bool.or_eq_false_iff] at h
  exact h.1.1

/-- An atom goes on up to the first character that is not one of a symbol. -/
theorem token_of_head {c : Char} (hc : isSymbolChar c = true) (hquote : c ≠ '"') (hsemi : c ≠ ';')
    (cs : List Char) :
    token (c :: cs) = .ok (.atom (c :: cs.takeWhile isSymbolChar), cs.dropWhile isSymbolChar) := by
  have hskip : skip false (c :: cs) = c :: cs := by simp [skip, hsemi, isBlank_eq_false hc]
  rw [token, hskip]
  split
  · next h => cases h
  · next h =>
    cases h
    cases hc
  · next h =>
    cases h
    cases hc
  · next h =>
    cases h
    exact absurd rfl hquote
  · next h =>
    cases h
    rfl

/-- A symbol and what follows it up to the next blank or parenthesis are one atom. -/
theorem token_symbol_append {w : List Char} (hw : Symbolic w) (rest : List Char) :
    token (w ++ rest) =
      .ok (.atom (w ++ rest.takeWhile isSymbolChar), rest.dropWhile isSymbolChar) := by
  obtain ⟨hall, hne, hquote, hsemi⟩ := hw
  cases w with
  | nil => exact absurd rfl hne
  | cons c w =>
    rw [List.all_cons, Bool.and_eq_true] at hall
    have hw := List.all_eq_true.mp hall.2
    rw [List.cons_append, token_of_head hall.1 (by simpa using hquote) (by simpa using hsemi),
      List.takeWhile_append_of_pos hw, List.dropWhile_append_of_pos hw, List.cons_append]

theorem token_symbol {w : List Char} (hw : Symbolic w) (hrest : rest.takeWhile isSymbolChar = []) :
    token (w ++ rest) = .ok (.atom w, rest) := by
  have hsplit := List.takeWhile_append_dropWhile (p := isSymbolChar) (l := rest)
  rw [hrest, List.nil_append] at hsplit
  rw [token_symbol_append hw, hrest, hsplit, List.append_nil]

/-- A text that is read as an atom in front of everything but a further symbol character. -/
def Atomic (w : List Char) : Prop :=
  ∀ rest, rest.takeWhile isSymbolChar = [] → token (w ++ rest) = .ok (.atom w, rest)

theorem token_opening (rest : List Char) : token ('(' :: rest) = .ok (.opening, rest) := by
  rfl

theorem token_closing (rest : List Char) : token (')' :: rest) = .ok (.closing, rest) := by
  rfl

theorem token_eq_of_skip_eq (h : skip false cs = skip false cs') : token cs = token cs' := by
  rw [token, token, h]

theorem token_blank {c : Char} (h : Text.isBlank c = true) (cs : List Char) :
    token (c :: cs) = token cs := by
  have hsemi : c ≠ ';' := by rintro rfl; cases h
  exact token_eq_of_skip_eq (by simp [skip, hsemi, h])

end Smt

/-- A tree whose atoms are read as they are printed. -/
def Sexp.Plain (e : Sexp) : Prop :=
  ∀ a, .atom a ∈ e.tokens → Smt.Symbolic a

namespace Smt

mutual

/-- The printed form of a tree has the tokens of the tree. -/
theorem tokenizes_text (e : Sexp) (he : ∀ a, .atom a ∈ e.tokens → Atomic a) (rest : List Char)
    (hrest : rest.takeWhile isSymbolChar = []) :
    Tokenizes (e.text.toList ++ rest) e.tokens rest := by
  cases e with
  | atom s =>
    rw [text, tokens]
    exact .cons (he _ (by simp [tokens]) rest hrest) (.nil rest)
  | list items =>
    have hitems := tokenizes_textItems items (fun e hmem a ha => he a (by
      rw [tokens]
      simp [mem_itemTokens.mpr ⟨e, hmem, ha⟩])) rest
    have htext : (text (.list items)).toList ++ rest =
        '(' :: ((textItems items).toList ++ ')' :: rest) := by
      simp [text]
    rw [htext, tokens]
    exact .cons (token_opening _) (hitems.append (.cons (token_closing rest) (.nil rest)))

/-- The printed items of a list have the tokens of the items. -/
theorem tokenizes_textItems (es : List Sexp) (hes : ∀ e ∈ es, ∀ a, .atom a ∈ e.tokens → Atomic a)
    (rest : List Char) :
    Tokenizes ((textItems es).toList ++ ')' :: rest) (itemTokens es) (')' :: rest) := by
  match es with
  | [] => exact .nil _
  | [e] =>
    have h := tokenizes_text e (hes e (by simp)) (')' :: rest) rfl
    simpa [textItems, itemTokens] using h
  | e :: e' :: es =>
    have hlast := tokenizes_textItems (e' :: es) (fun x hx => hes x (by simp [hx])) rest
    have hne : itemTokens (e' :: es) ≠ [] := by
      simp [itemTokens, tokens_ne_nil]
    have hfirst := tokenizes_text e (hes e (by simp))
      (' ' :: ((textItems (e' :: es)).toList ++ ')' :: rest)) rfl
    have htext : (textItems (e :: e' :: es)).toList ++ ')' :: rest =
        e.text.toList ++ ' ' :: ((textItems (e' :: es)).toList ++ ')' :: rest) := by
      simp [textItems]
    rw [htext]
    exact hfirst.append (hlast.of_token_eq hne (token_blank rfl _))

end

/-- A printed tree is read back, if what follows it does not go on with its last symbol. -/
theorem read_text {e : Sexp} (he : e.Plain) (hrest : rest.takeWhile isSymbolChar = []) :
    read (e.text.toList ++ rest) = .ok (e, rest) :=
  read_of_tokenizes (tokenizes_text e (fun a ha _ => token_symbol (he a ha)) rest hrest)

end Smt

/-- No tree is written with a part of the tokens of another. -/
theorem Sexp.eq_of_tokens_initial {e e' : Sexp} (he : e.Plain) (h : e'.tokens <+: e.tokens) :
    e' = e := by
  obtain ⟨ts, hts⟩ := h
  have htokens := Smt.tokenizes_text e (fun a ha _ => Smt.token_symbol (he a ha)) [] rfl
  obtain ⟨mid, hmid, -⟩ := Smt.Tokenizes.exists_of_append (hts ▸ htokens)
  have hread := Smt.read_of_tokenizes hmid
  rw [Smt.read_of_tokenizes htokens] at hread
  cases hread
  rfl

end NullPath
