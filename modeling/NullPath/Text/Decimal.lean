/-!
# Decimal fractions

A decimal literal stands for a fraction with finitely many digits.  It is displayed with six
significant digits, unless that would make a fraction look like an integer.

* `Decimal`: a sign, digits, and the position of the point.
* `Decimal.ofLiteral`: the fraction that a literal such as `-1.50e3` stands for.
* `Decimal.text`: its display.
-/

namespace NullPath

/-- The fraction `0.d₁d₂… · 10 ^ point`.  There are no leading and no trailing zeros. -/
structure Decimal where
  negative : Bool
  digits : List Nat
  point : Int
  deriving DecidableEq, Repr

namespace Decimal

/-- The values of the digits in a text; other characters are passed over. -/
def digitsOf (cs : List Char) : List Nat :=
  cs.filterMap fun c => if c.isDigit then some (c.toNat - '0'.toNat) else none

/-- Removes the zeros at both ends. -/
def normalize (negative : Bool) (digits : List Nat) (point : Int) : Decimal :=
  let kept := digits.dropWhile (· == 0)
  let point := point - (digits.length - kept.length : Nat)
  let kept := (kept.reverse.dropWhile (· == 0)).reverse
  if kept.isEmpty then ⟨negative, [], 0⟩ else ⟨negative, kept, point⟩

/-- The number that a list of digits denotes. -/
def number (digits : List Nat) : Nat :=
  digits.foldl (fun n d => 10 * n + d) 0

/-- The fraction that a literal stands for: an optional sign, digits with at most one point, and
an optional exponent. -/
def ofLiteral (literal : List Char) : Decimal :=
  let negative := literal.head? == some '-'
  let isMark (c : Char) := c == 'e' || c == 'E'
  let mantissa := literal.takeWhile fun c => !isMark c
  let exponentText := (literal.dropWhile fun c => !isMark c).drop 1
  let exponent : Int := number (digitsOf exponentText)
  let exponent := if exponentText.head? == some '-' then -exponent else exponent
  let whole := digitsOf (mantissa.takeWhile (· != '.'))
  let fraction := digitsOf (mantissa.dropWhile (· != '.'))
  normalize negative (whole ++ fraction) (whole.length + exponent)

/-- Adds one to the last of a list of digits; the flag tells that a digit is to be put in
front. -/
def increment : List Nat → Bool × List Nat
  | [] => (true, [])
  | d :: ds =>
    match increment ds with
    | (false, ds) => (false, d :: ds)
    | (true, ds) => if d = 9 then (true, 0 :: ds) else (false, (d + 1) :: ds)

/-- The nearest fraction with at most the given number of digits; of two, the one whose last
digit is even. -/
def round (places : Nat) (x : Decimal) : Decimal :=
  let kept := x.digits.take places
  match x.digits.drop places with
  | [] => x
  | d :: rest =>
    let up := d > 5 || (d == 5 && (!rest.isEmpty || kept.getLast?.getD 0 % 2 == 1))
    if up then
      match increment kept with
      | (true, ds) => normalize x.negative (1 :: ds) (x.point + 1)
      | (false, ds) => normalize x.negative ds x.point
    else normalize x.negative kept x.point

/-- Whether the fraction is an integer. -/
def isInteger (x : Decimal) : Bool :=
  x.digits.length ≤ x.point

/-- A list of digits as text. -/
def digitText (digits : List Nat) : String :=
  String.join (digits.map toString)

/-- The fraction with all its digits, with an exponent if the point would be far from them.  The
exponent has at least two digits. -/
def plain (x : Decimal) (places : Nat) : String :=
  let sign := if x.negative then "-" else ""
  let exponent := x.point - 1
  match x.digits with
  | [] => sign ++ "0"
  | d :: rest =>
    if exponent < -4 || exponent ≥ places then
      let fraction := if rest.isEmpty then "" else "." ++ digitText rest
      let size := toString exponent.natAbs
      let size := if size.length < 2 then "0" ++ size else size
      s!"{sign}{d}{fraction}e" ++ (if exponent < 0 then "-" else "+") ++ size
    else if x.point ≤ 0 then
      sign ++ "0." ++ "".pushn '0' x.point.natAbs ++ digitText x.digits
    else
      let whole := x.digits.take x.point.toNat
      let fraction := x.digits.drop x.point.toNat
      let zeros := "".pushn '0' (x.point.toNat - x.digits.length)
      sign ++ digitText whole ++ zeros ++
        (if fraction.isEmpty then "" else "." ++ digitText fraction)

/-- The exponent from which on a number is displayed with it, if it has this many digits. -/
def places (digits : Nat) (x : Decimal) : Nat :=
  if x.digits.length < digits && x.point ≤ x.digits.length then x.digits.length else digits

/-- The display of a fraction: six significant digits, or all of them if six make it look like an
integer that it is not. -/
def text (x : Decimal) : String :=
  let short := x.round 6
  let shown := short.plain (short.places 6)
  if !x.isInteger && !shown.toList.contains '.' then x.plain 6 else shown

end Decimal

end NullPath
