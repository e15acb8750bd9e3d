/-!
# Sorts and operators of expressions

Expressions are terms of integer and boolean arithmetic.  Sorts and operators are numbered.  The
numbers fix an order on expressions, and a number outside the table still has a spelling, so
that malformed terms can be shown.

* `ExprSort`: the sorts, with `Int` as 0 and `Bool` as 1.
* `BinOp`: the binary operators, in three groups.
* `BinOp.isArithmetic`, `BinOp.isLogical`, `BinOp.isCompare`: the groups.
-/

namespace NullPath

/-- The sort of a value.  A number other than 0 and 1 names no sort of the language. -/
inductive ExprSort
  | int
  | bool
  | other (code : Int) (foreign : code ≠ 0 ∧ code ≠ 1)
  deriving DecidableEq, Repr

namespace ExprSort

/-- The number of a sort. -/
def code : ExprSort → Int
  | .int => 0
  | .bool => 1
  | .other c _ => c

/-- The sort with a number. -/
def ofCode (c : Int) : ExprSort :=
  if h₀ : c = 0 then .int
  else if h₁ : c = 1 then .bool
  else .other c ⟨h₀, h₁⟩

/-- The spelling of a sort in a script. -/
def text : ExprSort → String
  | .int => "Int"
  | .bool => "Bool"
  | .other c _ => s!"Sort<{c}>"

@[simp] theorem ofCode_code (s : ExprSort) : ofCode s.code = s := by
  cases s with
  | int => rfl
  | bool => rfl
  | other c h => simp [ofCode, code, h.1, h.2]

/-- Sorts with one number are equal. -/
theorem code_inj {a b : ExprSort} (h : a.code = b.code) : a = b := by
  rw [← ofCode_code a, ← ofCode_code b, h]

end ExprSort

/-- A number that belongs to none of the fourteen operators. -/
def ForeignOp (code : Int) : Prop :=
  ¬(1 ≤ code ∧ code ≤ 5) ∧ ¬(8 ≤ code ∧ code ≤ 10) ∧ ¬(13 ≤ code ∧ code ≤ 18)

/-- The binary operators: five of arithmetic, three connectives and six comparisons. -/
inductive BinOp
  | add | sub | mul | div | mod
  | and | or | implies
  | eq | ne | lt | le | gt | ge
  | other (code : Int) (foreign : ForeignOp code)
  deriving DecidableEq

namespace BinOp

/-- The number of an operator.  The groups are set apart by gaps. -/
def code : BinOp → Int
  | .add => 1 | .sub => 2 | .mul => 3 | .div => 4 | .mod => 5
  | .and => 8 | .or => 9 | .implies => 10
  | .eq => 13 | .ne => 14 | .lt => 15 | .le => 16 | .gt => 17 | .ge => 18
  | .other c _ => c

/-- The operator with a number. -/
def ofCode (c : Int) : BinOp :=
  if h₁ : c = 1 then .add
  else if h₂ : c = 2 then .sub
  else if h₃ : c = 3 then .mul
  else if h₄ : c = 4 then .div
  else if h₅ : c = 5 then .mod
  else if h₆ : c = 8 then .and
  else if h₇ : c = 9 then .or
  else if h₈ : c = 10 then .implies
  else if h₉ : c = 13 then .eq
  else if h₁₀ : c = 14 then .ne
  else if h₁₁ : c = 15 then .lt
  else if h₁₂ : c = 16 then .le
  else if h₁₃ : c = 17 then .gt
  else if h₁₄ : c = 18 then .ge
  else .other c (by unfold ForeignOp; omega)

/-- The function symbol of an operator in a script. -/
def symbol : BinOp → String
  | .add => "+" | .sub => "-" | .mul => "*" | .div => "div" | .mod => "mod"
  | .and => "and" | .or => "or" | .implies => "=>"
  | .eq => "=" | .ne => "distinct" | .lt => "<" | .le => "<=" | .gt => ">" | .ge => ">="
  | .other c _ => s!"ExprOp<{c}>"

/-- Whether the operator computes an integer from integers. -/
def isArithmetic : BinOp → Bool
  | .add | .sub | .mul | .div | .mod => true
  | _ => false

/-- Whether the operator is a boolean connective. -/
def isLogical : BinOp → Bool
  | .and | .or | .implies => true
  | _ => false

/-- Whether the operator compares two values. -/
def isCompare : BinOp → Bool
  | .eq | .ne | .lt | .le | .gt | .ge => true
  | _ => false

@[simp] theorem ofCode_code (op : BinOp) : ofCode op.code = op := by
  cases op with
  | other c h =>
    obtain ⟨h₁, h₂, h₃⟩ := h
    show ofCode c = _
    unfold ofCode
    rw [dif_neg (show ¬c = 1 by omega), dif_neg (show ¬c = 2 by omega),
      dif_neg (show ¬c = 3 by omega), dif_neg (show ¬c = 4 by omega),
      dif_neg (show ¬c = 5 by omega), dif_neg (show ¬c = 8 by omega),
      dif_neg (show ¬c = 9 by omega), dif_neg (show ¬c = 10 by omega),
      dif_neg (show ¬c = 13 by omega), dif_neg (show ¬c = 14 by omega),
      dif_neg (show ¬c = 15 by omega), dif_neg (show ¬c = 16 by omega),
      dif_neg (show ¬c = 17 by omega), dif_neg (show ¬c = 18 by omega)]
  | _ => rfl

/-- Operators with one number are equal. -/
theorem code_inj {a b : BinOp} (h : a.code = b.code) : a = b := by
  rw [← ofCode_code a, ← ofCode_code b, h]

end BinOp

end NullPath
