import NullPath.Proofs.Readability
import NullPath.Proofs.Tokens
import NullPath.Smt.Script

/-!
# Scripts are read back

A script is a sequence of commands, and every command is the printed form of a tree.  All atoms of
these trees are read as they are printed: keywords, labels, numerals and the symbols of operators
have no blanks and no parentheses in them, and none starts a string literal or a comment.  So a
reader that takes one tree after the other finds the commands, and then the end of the text.

* `Expr.tree`, `Query.commands`: terms and commands as trees.
* `Expr.text_tree`, `Query.script_eq`: their printed forms.
* `Query.readAll_script`: a script is read back.
-/

namespace NullPath

open Sexp

namespace Smt

variable {cs cs' rest : List Char} {e : Sexp}

/-! ## One tree after the other -/

theorem Tokenizes.length_le {ts : List Token} (h : Tokenizes cs ts rest) :
    rest.length ≤ cs.length := by
  induction h with
  | nil => exact Nat.le_refl _
  | cons first _ ih =>
    have := length_of_token first
    omega

/-- A tree takes up at least one character. -/
theorem length_of_read (h : read cs = .ok (e, rest)) : rest.length < cs.length := by
  obtain ⟨t, ts, hts⟩ := List.exists_cons_of_ne_nil e.tokens_ne_nil
  obtain ⟨mid, first, others⟩ := (hts ▸ tokenizes_of_read h).exists_of_cons
  have := length_of_token first
  have := others.length_le
  omega

/-- A bound above the length of the text is never met. -/
theorem readAllWithin_eq {n m : Nat} (hn : cs.length < n) (hm : cs.length < m) :
    readAllWithin n cs = readAllWithin m cs := by
  induction n generalizing m cs with
  | zero => omega
  | succ n ih =>
    obtain ⟨m, rfl⟩ := Nat.exists_eq_succ_of_ne_zero (show m ≠ 0 by omega)
    simp only [readAllWithin]
    cases hread : read cs with
    | error err => rfl
    | ok p =>
      have hlt := length_of_read hread
      simp only [ih (show p.2.length < n by omega) (show p.2.length < m by omega)]

/-- The trees of a text are the first one and the trees of the text after it. -/
theorem readAll_of_read (h : read cs = .ok (e, rest)) :
    readAll cs = (e :: (readAll rest).1, (readAll rest).2) := by
  have hlt := length_of_read h
  rw [readAll, readAllWithin, h]
  simp only [readAll]
  rw [readAllWithin_eq hlt (Nat.lt_succ_self rest.length)]

theorem readAll_of_error {err : ReadError} (h : read cs = .error err) : readAll cs = ([], err) := by
  rw [readAll, readAllWithin, h]

theorem read_eq_of_token_eq (h : token cs = token cs') : read cs = read cs' := by
  rw [Sexp.read, Sexp.read]
  cases htoken : token cs' with
  | error err => rw [readWithin_error htoken, readWithin_error (h.trans htoken)]
  | ok p =>
    obtain ⟨t, rest⟩ := p
    cases t with
    | opening => rw [readWithin_opening htoken, readWithin_opening (h.trans htoken)]
    | closing => rw [readWithin_stray htoken, readWithin_stray (h.trans htoken)]
    | atom a => rw [readWithin_atom htoken, readWithin_atom (h.trans htoken)]

theorem readAll_blank {c : Char} (h : Text.isBlank c = true) (cs : List Char) :
    readAll (c :: cs) = readAll cs := by
  have hread := read_eq_of_token_eq (token_blank h cs)
  cases hcs : read cs with
  | error err => rw [readAll_of_error hcs, readAll_of_error (hread.trans hcs)]
  | ok p => rw [readAll_of_read hcs, readAll_of_read (hread.trans hcs)]

/-- Printed trees, one a line, are read back, and then the text is at its end. -/
theorem readAll_lines (es : List Sexp) (hes : ∀ e ∈ es, e.Plain) :
    readAll (String.join (es.map fun e => e.text ++ "\n")).toList = (es, .endOfInput) := by
  induction es with
  | nil => exact readAll_of_error (readWithin_error rfl [])
  | cons e es ih =>
    obtain ⟨he, hes⟩ := List.forall_mem_cons.mp hes
    have htext : (String.join ((e :: es).map fun e => e.text ++ "\n")).toList =
        e.text.toList ++ '\n' :: (String.join (es.map fun e => e.text ++ "\n")).toList := by
      simp
    rw [htext, readAll_of_read (read_text he rfl), readAll_blank rfl, ih hes]

/-! ## Symbols -/

theorem isSymbolChar_of_isDigit {c : Char} (h : c.isDigit = true) : isSymbolChar c = true := by
  have hopen : c ≠ '(' := by rintro rfl; cases h
  have hclose : c ≠ ')' := by rintro rfl; cases h
  have hblank : Text.isBlank c = false := by
    simp only [Char.isDigit, ge_iff_le, Bool.and_eq_true, decide_eq_true_eq,
      UInt32.le_iff_toNat_le] at h
    have hlow : 48 ≤ c.toNat := h.1
    have hhigh : c.toNat ≤ 57 := h.2
    simp only [Text.isBlank, Bool.or_eq_false_iff, Bool.and_eq_false_iff, decide_eq_false_iff_not,
      beq_eq_false_iff_ne]
    omega
  simp [isSymbolChar, hblank, hopen, hclose]

theorem all_digits (n : Nat) : (Nat.toDigits 10 n).all isSymbolChar :=
  List.all_eq_true.mpr fun _ hc => isSymbolChar_of_isDigit (Expr.isDigit_of_mem hc)

theorem Symbolic.append {w w' : List Char} (hw : Symbolic w) (hw' : w'.all isSymbolChar) :
    Symbolic (w ++ w') := by
  obtain ⟨hall, hne, hhead⟩ := hw
  cases w with
  | nil => exact absurd rfl hne
  | cons c w => exact ⟨by rw [List.all_append, hall, hw']; rfl, hne, hhead⟩

/-- A numeral is read as an atom. -/
theorem symbolic_digits (n : Nat) : Symbolic (Nat.toDigits 10 n) := by
  obtain ⟨c, w, hw⟩ := List.exists_cons_of_ne_nil (Nat.toDigits_ne_nil)
  have hc : c.isDigit = true := Expr.isDigit_of_mem (by rw [hw]; simp)
  refine ⟨all_digits n, ?_, ?_, ?_⟩ <;> rw [hw]
  · simp
  · rintro h
    cases h
    cases hc
  · rintro h
    cases h
    cases hc

theorem all_toString (v : Int) : (toString v).toList.all isSymbolChar := by
  rw [Int.toString_eq_repr, Int.repr_eq_if]
  split
  · rw [Nat.toList_repr]
    exact all_digits _
  · rw [String.toList_append, List.all_append, Nat.toList_repr, all_digits]
    rfl

/-- The spelling of a number that has no name is read as an atom. -/
theorem Symbolic.numbered {w : List Char} (hw : Symbolic w) (v : Int) :
    Symbolic (w ++ ((toString v).toList ++ ['>'])) := by
  refine hw.append ?_
  rw [List.all_append, all_toString]
  rfl

end Smt

/-! ## Terms and commands as trees -/

/-- A literal as a tree: a negative number is a list of a minus and the number without its sign. -/
def Constant.tree (c : Constant) : Sexp :=
  if c.sort ≠ .bool ∧ c.value < 0 then .list [.atom "-", .atom (toString (-c.value))]
  else .atom c.text

theorem Constant.text_tree (c : Constant) : c.tree.text = c.text := by
  rw [Constant.tree]
  split
  · next h =>
    rw [Constant.text, if_neg h.1, if_pos h.2, ← String.toList_inj]
    simp [Sexp.text, Sexp.textItems, toString]
  · rfl

/-- All atoms of the tree of a literal are read as they are printed. -/
theorem Constant.plain_tree (c : Constant) : c.tree.Plain := by
  intro a ha
  rw [Constant.tree] at ha
  split at ha
  · next h =>
    have ha : a = ['-'] ∨ a = (toString (-c.value)).toList := by
      simpa [tokens, itemTokens] using ha
    rcases ha with rfl | rfl
    · decide
    · rw [Expr.toList_toString (by omega)]
      exact Smt.symbolic_digits _
  · next h =>
    obtain rfl : a = c.text.toList := by simpa [tokens] using ha
    rw [Constant.text]
    split
    · split <;> decide
    · next hb =>
      have hv : ¬c.value < 0 := fun hneg => h ⟨hb, hneg⟩
      rw [if_neg hv, Expr.toList_toString (by omega)]
      exact Smt.symbolic_digits _

namespace Expr

/-- A term as a tree. -/
def tree : Expr → Sexp
  | .const c => c.tree
  | .name n _ => .atom n.label
  | .not e => .list [.atom "not", tree e]
  | .neg e => .list [.atom "-", tree e]
  | .ite c t e => .list [.atom "ite", tree c, tree t, tree e]
  | .binary op l r => .list [.atom op.symbol, tree l, tree r]

/-- The printed form of a term is that of its tree. -/
theorem text_tree (e : Expr) : e.tree.text = e.text := by
  induction e with
  | const c => exact c.text_tree
  | name n s => simp [tree, Sexp.text, text]
  | not e ih | neg e ih =>
    rw [← String.toList_inj]
    simp [tree, Sexp.text, Sexp.textItems, text, ih, toString]
  | ite c t e ihc iht ihe =>
    rw [← String.toList_inj]
    simp [tree, Sexp.text, Sexp.textItems, text, ihc, iht, ihe, toString]
  | binary op l r ihl ihr =>
    rw [← String.toList_inj]
    simp [tree, Sexp.text, Sexp.textItems, text, ihl, ihr, toString]

end Expr

/-- The atoms of a list are those of its items. -/
theorem Sexp.plain_list {es : List Sexp} (h : ∀ e ∈ es, e.Plain) : (list es).Plain := by
  intro a ha
  obtain ⟨e, he, hae⟩ : ∃ e ∈ es, .atom a ∈ e.tokens := by
    simpa [tokens, mem_itemTokens] using ha
  exact h e he a hae

theorem Sexp.plain_atom {s : String} (h : Smt.Symbolic s.toList) : (atom s).Plain := by
  intro a ha
  obtain rfl : a = s.toList := by simpa [tokens] using ha
  exact h

theorem Name.symbolic_label (n : Name) : Smt.Symbolic n.label.toList := by
  have hx : Smt.Symbolic ['x'] := by decide
  rw [n.toList_label]
  exact hx.append (Smt.all_digits _)

theorem BinOp.symbolic_symbol (op : BinOp) : Smt.Symbolic op.symbol.toList := by
  cases op with
  | other c h =>
    have hstart : Smt.Symbolic "ExprOp<".toList := by decide
    simpa [BinOp.symbol, toString] using hstart.numbered c
  | _ => decide

theorem ExprSort.symbolic_text (s : ExprSort) : Smt.Symbolic s.text.toList := by
  cases s with
  | other c h =>
    have hstart : Smt.Symbolic "Sort<".toList := by decide
    simpa [ExprSort.text, toString] using hstart.numbered c
  | _ => decide

theorem Expr.plain_tree (e : Expr) : e.tree.Plain := by
  induction e with
  | const c => exact c.plain_tree
  | name n s => exact plain_atom n.symbolic_label
  | not e ih | neg e ih =>
    exact plain_list (by simpa using ⟨plain_atom (by decide), ih⟩)
  | ite c t e ihc iht ihe =>
    exact plain_list (by simpa using ⟨plain_atom (by decide), ihc, iht, ihe⟩)
  | binary op l r ihl ihr =>
    exact plain_list (by simpa using ⟨plain_atom op.symbolic_symbol, ihl, ihr⟩)

namespace Query

/-- The commands of a script, as trees. -/
def commands (q : Query) : List Sexp :=
  .list [.atom "set-option", .atom ":produce-models", .atom "true"] ::
    (q.declarations.map fun d =>
      .list [.atom "declare-const", .atom d.name.label, .atom d.sort.text]) ++
    (q.assertions.map fun e => .list [.atom "assert", e.tree]) ++
    [.list [.atom "check-sat"]]

theorem command_eq (d : Declaration) : d.command =
    (list [.atom "declare-const", .atom d.name.label, .atom d.sort.text]).text ++ "\n" := by
  unfold Declaration.command
  rw [← String.toList_inj]
  simp only [text, textItems, toString, String.toList_append]
  simp

theorem assert_eq (e : Expr) :
    s!"(assert {e.text})\n" = (list [.atom "assert", e.tree]).text ++ "\n" := by
  rw [← String.toList_inj]
  simp only [text, textItems, e.text_tree, toString, String.toList_append]
  simp

/-- A script is its commands, printed one a line. -/
theorem script_eq (q : Query) :
    q.script = String.join (q.commands.map fun e => e.text ++ "\n") := by
  have hoption : (list [.atom "set-option", .atom ":produce-models", .atom "true"]).text ++
      "\n" = "(set-option :produce-models true)\n" := by
    rfl
  have hcheck : (list [.atom "check-sat"]).text ++ "\n" = "(check-sat)\n" := by
    rfl
  unfold script
  rw [funext command_eq, funext assert_eq, commands, List.map_append, List.map_append,
    List.map_cons, List.map_map, List.map_map, String.join_append, String.join_append,
    String.join_cons, List.map_singleton, hoption, hcheck]
  simp [Function.comp_def]

theorem plain_commands (q : Query) : ∀ e ∈ q.commands, e.Plain := by
  have hkeyword : ∀ s ∈ ["set-option", ":produce-models", "true", "declare-const", "assert",
      "check-sat"], (atom s).Plain :=
    fun s hs => plain_atom (by revert s; decide)
  intro e he
  simp only [commands, List.cons_append, List.mem_cons, List.mem_append, List.mem_map,
    List.not_mem_nil, or_false] at he
  rcases he with rfl | (⟨d, -, rfl⟩ | ⟨e, -, rfl⟩) | rfl
  · exact plain_list (by simp [hkeyword])
  · exact plain_list (by
      simp [hkeyword, plain_atom d.name.symbolic_label, plain_atom d.sort.symbolic_text])
  · exact plain_list (by simp [hkeyword, e.plain_tree])
  · exact plain_list (by simp [hkeyword])

/-- Reading a script tree by tree gives the commands in their order: the option, a declaration of
each declared name, an assertion of each asserted term, whose printed form is that of the term, and
the check.  Then the text is at its end. -/
theorem readAll_script (q : Query) :
    Sexp.readAll q.script.toList =
        (.list [.atom "set-option", .atom ":produce-models", .atom "true"] ::
          (q.declarations.map fun d =>
            .list [.atom "declare-const", .atom d.name.label, .atom d.sort.text]) ++
          (q.assertions.map fun e => .list [.atom "assert", e.tree]) ++
          [.list [.atom "check-sat"]], .endOfInput) ∧
      ∀ e ∈ q.assertions, e.tree.text = e.text := by
  refine ⟨?_, fun e _ => e.text_tree⟩
  rw [script_eq]
  exact Smt.readAll_lines q.commands q.plain_commands

end Query

end NullPath
