import NullPath.Text.Numeral

/-!
# Symbolic names

A name stands for one unknown value of an analysis.  Names are numbered in the order in which
they are declared and are never reused.

* `Name.label`: the spelling of a name for the solver, such as `x12`.
* `Name.parse?`: reads a label back; the number must fit into 64 bits.
-/

namespace NullPath

/-- An unknown value, identified by its place in the order of declaration. -/
@[ext] structure Name where
  index : Nat
  deriving DecidableEq, Repr, Inhabited

namespace Name

/-- The spelling of a name for the solver: the letter `x` and its number. -/
def label (n : Name) : String :=
  "x" ++ toString n.index

/-- Reads a label: the letter `x` followed by decimal digits of a number below `2 ^ 64`. -/
def parse? (s : String) : Option Name :=
  match s.toList with
  | 'x' :: digits =>
    match Text.digitsValue? 10 digits with
    | some n => if n < 0x10000000000000000 then some ⟨n⟩ else none
    | none => none
  | _ => none

end Name

end NullPath
