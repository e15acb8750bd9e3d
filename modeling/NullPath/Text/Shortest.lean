import NullPath.Text.Decimal

/-!
# Shortest decimals

A floating-point number is displayed with the fewest digits that are read back as the same number;
of several such decimals, the nearest one is taken.

* `Decimal.ofFloat`: the exact value of a number.
* `Decimal.shortest`: the shortest decimal that is read back as a number.
* `Decimal.floatText`: the display of a number.
-/

namespace NullPath.Decimal

/-- The exact value of a finite number. -/
def ofFloat (x : Float) : Decimal :=
  let bits := x.toBits.toNat
  let negative := 0x8000000000000000 ≤ bits
  let exponent := bits / 0x10000000000000 % 0x800
  let fraction := bits % 0x10000000000000
  let significand := if exponent = 0 then fraction else 0x10000000000000 + fraction
  let shift := max exponent 1
  if 1075 ≤ shift then
    let digits := digitsOf (toString (significand * Nat.pow 2 (shift - 1075))).toList
    normalize negative digits digits.length
  else
    let places := 1075 - shift
    let digits := digitsOf (toString (significand * Nat.pow 5 places)).toList
    normalize negative digits (digits.length - places)

/-- The number nearest to a decimal. -/
def toFloat (x : Decimal) : Float :=
  let exponent := x.point - x.digits.length
  let size := .ofScientific (number x.digits) (exponent < 0) exponent.natAbs
  if x.negative then -size else size

/-- The next decimal with at most the given number of digits towards zero. -/
def below (places : Nat) (x : Decimal) : Decimal :=
  normalize x.negative (x.digits.take places) x.point

/-- The next decimal with at most the given number of digits away from zero. -/
def above (places : Nat) (x : Decimal) : Decimal :=
  match increment (x.digits.take places) with
  | (true, ds) => normalize x.negative (1 :: ds) (x.point + 1)
  | (false, ds) => normalize x.negative ds x.point

/-- The shortest decimal that is read back as a finite number.  Seventeen digits always do. -/
def shortest (x : Float) : Decimal :=
  let exact := ofFloat x
  let candidates (places : Nat) := [exact.round places, exact.below places, exact.above places]
  let found := (List.range 17).findSome? fun i => (candidates (i + 1)).find? (·.toFloat == x)
  found.getD exact

/-- The display of a number, with an exponent from a million on. -/
def floatText (x : Float) : String :=
  if x.isNaN then "NaN"
  else if x.isInf then if x < 0.0 then "-Inf" else "+Inf"
  else (shortest x).plain 6

end NullPath.Decimal
