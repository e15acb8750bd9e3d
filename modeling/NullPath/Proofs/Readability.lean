import NullPath.Proofs.Sorted

/-!
# The text of a term determines its value

In the prefix form a term is a symbol, or a symbol and operands in parentheses.  Spaces and
parentheses occur in no symbol.  So a text can be read in one way only: its first symbol, the number
of its operands and their texts are known, and so is the place where it ends.

A symbol and the values of the operands determine the value of a term.  Only two things are not
seen in a text, and neither matters: the sort of a name, and whether a negative number is a literal
or the negation of one.

* `Expr.symbol`, `Expr.operands`: what is read first, and what is read after it.
* `Expr.chars_of_operands`: the text of a term, made of its symbol and its operands.
* `Expr.eval_of_chars_append`: terms that begin one text have one value, and end at one place.
* `Expr.eval_eq_of_text_eq`: terms with one text have one value.
-/

namespace NullPath

/-- The characters that symbols are made of. -/
def isSymbolChar (c : Char) : Bool :=
  c != ' ' && c != '(' && c != ')'

/-- Where a symbol ends is known from what follows it. -/
theorem symbol_append_inj {w w' r r' : List Char} (hw : w.all isSymbolChar)
    (hw' : w'.all isSymbolChar) (hr : r.takeWhile isSymbolChar = [])
    (hr' : r'.takeWhile isSymbolChar = []) (h : w ++ r = w' ++ r') : w = w' ∧ r = r' := by
  have hleft : (w ++ r).takeWhile isSymbolChar = w := by
    rw [List.takeWhile_append_of_pos (List.all_eq_true.mp hw), hr, List.append_nil]
  have hright : (w' ++ r').takeWhile isSymbolChar = w' := by
    rw [List.takeWhile_append_of_pos (List.all_eq_true.mp hw'), hr', List.append_nil]
  have hww : w = w' := by rw [← hleft, h, hright]
  subst hww
  exact ⟨rfl, List.append_cancel_left h⟩

/-- The operators of sorted terms. -/
def BinOp.known : List BinOp :=
  [.add, .sub, .mul, .div, .mod, .and, .or, .implies, .eq, .ne, .lt, .le, .gt, .ge]

/-- The operator with a symbol. -/
def BinOp.ofSymbol? (w : List Char) : Option BinOp :=
  known.find? fun op => op.symbol.toList = w

namespace BinOp

variable {op : BinOp} {s t : ExprSort}

theorem ofSymbol?_symbol (h : op.Accepts s t) : ofSymbol? op.symbol.toList = some op := by
  cases op with
  | other _ _ => exact h.elim
  | _ => rfl

theorem symbol_ne_nil (h : op.Accepts s t) : op.symbol.toList ≠ [] := by
  cases op with
  | other _ _ => exact h.elim
  | _ => simp [symbol]

theorem symbol_all (h : op.Accepts s t) : op.symbol.toList.all isSymbolChar := by
  cases op with
  | other _ _ => exact h.elim
  | _ => rfl

end BinOp

theorem Name.toList_label (n : Name) : n.label.toList = 'x' :: Nat.toDigits 10 n.index := by
  rw [label, String.toList_append]
  exact congrArg _ Nat.toList_repr

namespace Expr

variable {D D' : Scope} {e e' : Expr}

/-- The text of a term as a list of characters. -/
def chars (e : Expr) : List Char :=
  e.text.toList

/-- The first symbol in the text of a term.  A negative number starts with a minus. -/
@[simp] def symbol : Expr → List Char
  | .const c =>
    if c.sort = .bool then (if c.isTrue then "true".toList else "false".toList)
    else if c.value < 0 then ['-']
    else Nat.toDigits 10 c.value.toNat
  | .name n _ => 'x' :: Nat.toDigits 10 n.index
  | .not _ => "not".toList
  | .neg _ => ['-']
  | .ite _ _ _ => "ite".toList
  | .binary op _ _ => op.symbol.toList

/-- The terms whose texts follow the first symbol.  A negative number is read as the negation of a
number. -/
@[simp] def operands : Expr → List Expr
  | .const c => if c.sort ≠ .bool ∧ c.value < 0 then [.int (-c.value)] else []
  | .name _ _ => []
  | .not e | .neg e => [e]
  | .ite c t e => [c, t, e]
  | .binary _ l r => [l, r]

/-- The texts of operands, each after a space. -/
def spread (es : List Expr) : List Char :=
  es.flatMap fun e => ' ' :: e.chars

@[simp] theorem spread_nil : spread [] = [] := rfl

@[simp] theorem spread_cons (e : Expr) (es : List Expr) :
    spread (e :: es) = ' ' :: (e.chars ++ spread es) := rfl

theorem toList_toString {v : Int} (h : 0 ≤ v) : (toString v).toList = Nat.toDigits 10 v.toNat := by
  rw [Int.toString_eq_repr, Int.repr_eq_if, if_pos h, Nat.toList_repr]

theorem chars_of_operands_nil (h : e.operands = []) : e.chars = e.symbol := by
  cases e with
  | const c =>
    rw [operands, ite_eq_right_iff] at h
    rw [chars, text, Constant.text, symbol]
    split
    · split <;> rfl
    · next hb =>
      have hv : ¬c.value < 0 := fun hneg => by simpa using h ⟨hb, hneg⟩
      rw [if_neg hv, if_neg hv]
      exact toList_toString (by omega)
  | name n s =>
    rw [chars, text, symbol]
    exact n.toList_label
  | _ => cases h

/-- A term with operands is written as its symbol and its operands, in parentheses. -/
theorem chars_of_operands (h : e.operands ≠ []) :
    e.chars = '(' :: (e.symbol ++ (spread e.operands ++ [')'])) := by
  cases e with
  | const c =>
    by_cases hc : c.sort ≠ .bool ∧ c.value < 0
    · obtain ⟨hb, hneg⟩ := hc
      have hpos : ¬-c.value < 0 := by omega
      have hone : (int (-c.value)).chars = (toString (-c.value)).toList := by
        rw [chars, int, text, Constant.text, if_neg nofun, Constant.value_ofInt, if_neg hpos]
      rw [chars, text, Constant.text, if_neg hb, if_pos hneg, symbol, if_neg hb, if_pos hneg,
        operands, if_pos ⟨hb, hneg⟩, spread_cons, hone]
      simp [toString]
    · rw [operands, if_neg hc] at h
      exact absurd rfl h
  | name n s => exact absurd rfl h
  | _ => simp [chars, text, toString]

/-! ## Symbols and values -/

theorem isSymbolChar_of_isDigit {c : Char} (h : c.isDigit = true) : isSymbolChar c = true := by
  have hspace : c ≠ ' ' := by rintro rfl; cases h
  have hopen : c ≠ '(' := by rintro rfl; cases h
  have hclose : c ≠ ')' := by rintro rfl; cases h
  simp [isSymbolChar, hspace, hopen, hclose]

theorem isDigit_of_mem {n : Nat} {c : Char} (h : c ∈ Nat.toDigits 10 n) : c.isDigit = true :=
  Nat.isDigit_of_mem_toDigits (by omega) (by omega) h

/-- No symbol of a sorted term has a space or a parenthesis in it. -/
theorem Sorted.symbol_all (h : e.Sorted D) : e.symbol.all isSymbolChar := by
  have hdigits : ∀ n, (Nat.toDigits 10 n).all isSymbolChar := fun n =>
    List.all_eq_true.mpr fun c hc => isSymbolChar_of_isDigit (isDigit_of_mem hc)
  cases e with
  | const c =>
    rw [symbol]
    split
    · split <;> rfl
    · split
      · rfl
      · exact hdigits _
  | name n s => exact hdigits _
  | not e | neg e | ite c t e => rfl
  | binary op l r => exact BinOp.symbol_all h.2.2

/-- A text that starts with a symbol does not start with a parenthesis. -/
theorem Sorted.symbol_append_ne (h : e.Sorted D) {r t : List Char} : e.symbol ++ r ≠ '(' :: t := by
  have hne : e.symbol ≠ [] := by
    cases e with
    | const c =>
      rw [symbol]
      split
      · split <;> simp
      · split
        · simp
        · exact Nat.toDigits_ne_nil
    | binary op l r => exact BinOp.symbol_ne_nil h.2.2
    | _ => simp
  obtain ⟨c, w, hw⟩ := List.exists_cons_of_ne_nil hne
  intro heq
  have hall := h.symbol_all
  rw [hw] at hall heq
  cases heq
  cases hall

/-- The value of a symbol without operands: a truth value, the value of a name or a number. -/
def leafValue (m : Model) (w : List Char) : Except EvalError Constant :=
  if w = "true".toList then .ok (.ofBool true)
  else if w = "false".toList then .ok (.ofBool false)
  else if w.head? = some 'x' then (name ⟨Nat.ofDigitChars 10 w.tail 0⟩ .int).eval m
  else .ok (.ofInt (Nat.ofDigitChars 10 w 0))

/-- The value that a symbol gives to the values of its operands.  What the symbol is applied to
tells a negation from a difference. -/
def meaning (m : Model) (w : List Char) :
    List (Except EvalError Constant) → Except EvalError Constant
  | [x] => if w = ['-'] then x.map Constant.neg else x.map Constant.not
  | [x, y] =>
    match BinOp.ofSymbol? w with
    | some op => x.bind fun a => y.bind fun b => op.apply a b
    | none => x
  | [z, x, y] => z.bind fun c => if c.isTrue then x else y
  | _ => leafValue m w

theorem leafValue_digits (m : Model) (n : Nat) :
    leafValue m (Nat.toDigits 10 n) = .ok (.ofInt n) := by
  have hhead : ∀ c, (Nat.toDigits 10 n).head? = some c → c.isDigit = true :=
    fun c hc => isDigit_of_mem (List.mem_of_mem_head? hc)
  have htrue : Nat.toDigits 10 n ≠ "true".toList := fun h => by
    have := hhead 't' (by rw [h]; rfl)
    cases this
  have hfalse : Nat.toDigits 10 n ≠ "false".toList := fun h => by
    have := hhead 'f' (by rw [h]; rfl)
    cases this
  have hname : (Nat.toDigits 10 n).head? ≠ some 'x' := fun h => by
    have := hhead 'x' h
    cases this
  rw [leafValue, if_neg htrue, if_neg hfalse, if_neg hname, Nat.ofDigitChars_ten_toDigits]

/-- The value of a sorted term is the one that its symbol gives to its operands. -/
theorem Sorted.eval_eq_meaning (h : e.Sorted D) (m : Model) :
    e.eval m = meaning m e.symbol (e.operands.map (eval m)) := by
  cases e with
  | const c =>
    rcases h.sort_cases with hc | hc
    · have hc : c.HasSort .int := hc
      have hb : c.sort ≠ .bool := by rw [hc.sort_eq]; simp
      by_cases hneg : c.value < 0
      · rw [symbol, operands, if_neg hb, if_pos hneg, if_pos ⟨hb, hneg⟩]
        show Except.ok c = .ok (Constant.ofInt (-(-c.value)))
        rw [Int.neg_neg, ← hc.eq_ofInt]
      · rw [symbol, operands, if_neg hb, if_neg hneg, if_neg (fun h => hneg h.2)]
        show Except.ok c = leafValue m _
        rw [leafValue_digits, Int.toNat_of_nonneg (by omega), ← hc.eq_ofInt]
    · have hs : c.HasSort c.sort := h
      have hb : c.HasSort .bool := hc ▸ hs
      rw [hb.eq_ofBool]
      cases c.isTrue <;> rfl
  | name n s =>
    show _ = leafValue m _
    rw [leafValue, if_neg (by simp), if_neg (by simp),
      if_pos (show (name n s).symbol.head? = some 'x' from rfl), symbol, List.tail_cons,
      Nat.ofDigitChars_ten_toDigits]
    rfl
  | not e =>
    rw [eval]
    show _ = (e.eval m).map Constant.not
    cases e.eval m <;> rfl
  | neg e =>
    rw [eval]
    show _ = (e.eval m).map Constant.neg
    cases e.eval m <;> rfl
  | ite c t e =>
    rw [eval]
    show _ = (c.eval m).bind _
    cases c.eval m <;> rfl
  | binary op l r =>
    show _ = match BinOp.ofSymbol? op.symbol.toList with | some op => _ | none => _
    rw [eval, BinOp.ofSymbol?_symbol h.2.2]
    cases l.eval m with
    | error err => rfl
    | ok a => cases r.eval m <;> rfl

/-! ## Reading a text -/

theorem Sorted.operands (h : e.Sorted D) : ∀ a ∈ e.operands, a.Sorted D := by
  cases e with
  | const c =>
    intro a ha
    rw [Expr.operands] at ha
    split at ha
    · obtain rfl := List.mem_singleton.mp ha
      exact sorted_int D _
    · cases ha
  | name n s => simp
  | not e | neg e => simpa using h.1
  | ite c t e => simpa using ⟨h.1, h.2.1, h.2.2.1⟩
  | binary op l r => simpa using ⟨h.1, h.2.1⟩

theorem length_lt_of_mem_operands {a : Expr} (h : a ∈ e.operands) :
    a.chars.length < e.chars.length := by
  have hspread : ∀ es, a ∈ es → a.chars.length < (spread es).length := by
    intro es ha
    obtain ⟨s, t, rfl⟩ := List.append_of_mem ha
    simp only [spread, List.flatMap_append, List.flatMap_cons, List.length_append, List.length_cons]
    omega
  have := hspread _ h
  rw [chars_of_operands (List.ne_nil_of_mem h)]
  simp only [List.length_cons, List.length_append]
  omega

theorem takeWhile_spread (es : List Expr) (r : List Char) :
    (spread es ++ ')' :: r).takeWhile isSymbolChar = [] := by
  cases es <;> rfl

/-- Operands can be read one after the other, up to the closing parenthesis, if each of them can be
read. -/
theorem spread_append_inj {es es' : List Expr} {r r' : List Char}
    (hread : ∀ a ∈ es, ∀ b ∈ es', ∀ t t', t.takeWhile isSymbolChar = [] →
      t'.takeWhile isSymbolChar = [] → a.chars ++ t = b.chars ++ t' →
        (∀ m, a.eval m = b.eval m) ∧ t = t')
    (h : spread es ++ ')' :: r = spread es' ++ ')' :: r') :
    (∀ m, es.map (eval m) = es'.map (eval m)) ∧ r = r' := by
  induction es generalizing es' with
  | nil =>
    cases es' with
    | nil => exact ⟨fun _ => rfl, List.tail_eq_of_cons_eq h⟩
    | cons b es' => cases h
  | cons a es ih =>
    cases es' with
    | nil => cases h
    | cons b es' =>
      simp only [spread_cons, List.cons_append, List.cons.injEq, true_and, List.append_assoc] at h
      obtain ⟨hab, hrest⟩ := hread a (by simp) b (by simp) _ _ (takeWhile_spread es r)
        (takeWhile_spread es' r') h
      obtain ⟨hes, hr⟩ := ih (fun x hx y hy => hread x (by simp [hx]) y (by simp [hy])) hrest
      exact ⟨fun m => by rw [List.map_cons, List.map_cons, hab m, hes m], hr⟩

/-- Two sorted terms whose texts begin one text have one value, and what follows them is the same.
What follows must not go on with the last symbol. -/
theorem Sorted.eval_of_chars_append (h : e.Sorted D) (h' : e'.Sorted D') {r r' : List Char}
    (hr : r.takeWhile isSymbolChar = []) (hr' : r'.takeWhile isSymbolChar = [])
    (heq : e.chars ++ r = e'.chars ++ r') : (∀ m, e.eval m = e'.eval m) ∧ r = r' := by
  -- operands have shorter texts than the term they belong to
  induction hn : e.chars.length using Nat.strongRecOn generalizing e e' r r' with
  | ind n ih =>
    subst hn
    by_cases ho : e.operands = []
    · rw [chars_of_operands_nil ho] at heq
      by_cases ho' : e'.operands = []
      · rw [chars_of_operands_nil ho'] at heq
        obtain ⟨hsymbol, hrest⟩ := symbol_append_inj h.symbol_all h'.symbol_all hr hr' heq
        refine ⟨fun m => ?_, hrest⟩
        rw [h.eval_eq_meaning, h'.eval_eq_meaning, ho, ho', hsymbol]
      · rw [chars_of_operands ho', List.cons_append] at heq
        exact absurd heq h.symbol_append_ne
    · rw [chars_of_operands ho, List.cons_append] at heq
      by_cases ho' : e'.operands = []
      · rw [chars_of_operands_nil ho'] at heq
        exact absurd heq.symm h'.symbol_append_ne
      · rw [chars_of_operands ho'] at heq
        simp only [List.cons_append, List.cons.injEq, true_and, List.append_assoc,
          List.nil_append] at heq
        obtain ⟨hsymbol, hspread⟩ := symbol_append_inj h.symbol_all h'.symbol_all
          (takeWhile_spread _ r) (takeWhile_spread _ r') heq
        obtain ⟨hvalues, hrest⟩ := spread_append_inj (fun a ha b hb t t' ht ht' hab =>
          ih _ (length_lt_of_mem_operands ha) (h.operands a ha) (h'.operands b hb) ht ht' hab rfl)
          hspread
        refine ⟨fun m => ?_, hrest⟩
        rw [h.eval_eq_meaning, h'.eval_eq_meaning, hsymbol, hvalues m]

/-- The text of a sorted term determines its value: terms with equal texts have, in every model, the
same value or fail to have one for the same reason. -/
theorem eval_eq_of_text_eq {D D' : Scope} {e e' : Expr} (h : e.Sorted D) (h' : e'.Sorted D')
    (htext : e.text = e'.text) (m : Model) : e.eval m = e'.eval m := by
  have hchars : e.chars ++ [] = e'.chars ++ [] := by rw [chars, chars, htext]
  exact (h.eval_of_chars_append h' rfl rfl hchars).1 m

/-- The literal -5, chosen if two numbers are equal. -/
def minusFive : Expr :=
  .ite (.binary .eq (.name ⟨0⟩ .int) (.name ⟨1⟩ .int)) (.int (-5)) (.int 1)

/-- The negation of 5, chosen if two truth values are equal. -/
def negatedFive : Expr :=
  .ite (.binary .eq (.name ⟨0⟩ .bool) (.name ⟨1⟩ .bool)) (.neg (.int 5)) (.int 1)

/-- Two terms that differ in the sorts of their names and in a folded literal have one text. -/
theorem minusFive_eval :
    minusFive ≠ negatedFive ∧ minusFive.text = "(ite (= x0 x1) (- 5) 1)" ∧
      ∀ m, minusFive.eval m = negatedFive.eval m := by
  have hminus : minusFive.Sorted (fun _ s => s = .int) := by
    simp [minusFive, Sorted, BinOp.Accepts, BinOp.isArithmetic, sort, int, Constant.ofInt,
      Constant.HasSort]
  have hnegated : negatedFive.Sorted (fun _ s => s = .bool) := by
    simp [negatedFive, Sorted, BinOp.Accepts, BinOp.isArithmetic, sort, int, Constant.ofInt,
      Constant.HasSort]
  exact ⟨by decide, by decide, eval_eq_of_text_eq hminus hnegated (by decide)⟩

end Expr
end NullPath
