/-!
# Numerals

Reading and writing of numbers as text.

* `digitsValue?`: the value of a non-empty list of decimal digits.
* `signed?`: an optional sign and decimal digits.
* `based?`: a numeral with an optional sign, an optional base mark (`0x`, `0b`, `0o` or a leading
  `0`) and underscores between digits, as in source code.
-/

namespace NullPath.Text

/-- The value of a digit in the bases up to thirty-six; letters of both cases continue the ten
decimal digits. -/
def anyDigit? (c : Char) : Option Nat :=
  if '0' ≤ c ∧ c ≤ '9' then some (c.toNat - '0'.toNat)
  else if 'a' ≤ c ∧ c ≤ 'z' then some (c.toNat - 'a'.toNat + 10)
  else if 'A' ≤ c ∧ c ≤ 'Z' then some (c.toNat - 'A'.toNat + 10)
  else none

/-- The value of digits in a base, read on from the value of the digits before them.  Fails at a
character that is no digit of the base. -/
def digitsFrom? (base : Nat) : Nat → List Char → Option Nat
  | acc, [] => some acc
  | acc, c :: cs =>
    match anyDigit? c with
    | some d => if d < base then digitsFrom? base (acc * base + d) cs else none
    | none => none

/-- The value of a non-empty list of digits in a base. -/
def digitsValue? (base : Nat) : List Char → Option Nat
  | [] => none
  | cs => digitsFrom? base 0 cs

/-- Splits an optional sign off a numeral; the flag tells a minus. -/
def splitSign : List Char → Bool × List Char
  | '+' :: cs => (false, cs)
  | '-' :: cs => (true, cs)
  | cs => (false, cs)

/-- A decimal integer: an optional sign followed by at least one digit. -/
def signed? (cs : List Char) : Option Int :=
  let (minus, digits) := splitSign cs
  (digitsValue? 10 digits).map fun n => if minus then -(n : Int) else n

/-- Why a numeral does not denote a number of the wanted width. -/
inductive NumeralError
  | malformed
  | outOfRange
  deriving DecidableEq, Repr

/-- Splits the base mark off a numeral: the base, whether a mark was present, and the digits. -/
def splitBase : List Char → Nat × Bool × List Char
  | '0' :: m :: c :: cs =>
    if m = 'x' ∨ m = 'X' then (16, true, c :: cs)
    else if m = 'b' ∨ m = 'B' then (2, true, c :: cs)
    else if m = 'o' ∨ m = 'O' then (8, true, c :: cs)
    else (8, true, m :: c :: cs)
  | ['0', c] => (8, true, [c])
  | cs => (10, false, cs)

/-- Whether every underscore stands between two digits, or between a base mark and a digit.  The
first argument tells whether a digit or a base mark has just been read. -/
def underscoresSeparate : Bool → List Char → Bool
  | afterDigit, [] => afterDigit
  | afterDigit, c :: cs =>
    if c = '_' then afterDigit && underscoresSeparate false cs else underscoresSeparate true cs

/-- The value of digits in a base that may be separated by underscores, read on from the value of
the digits before them.  The first digit that carries the value beyond 64 bits, or the first
character that is no digit, decides the failure. -/
def wordFrom (base : Nat) : Nat → List Char → Except NumeralError Nat
  | acc, [] => .ok acc
  | acc, c :: cs =>
    if c = '_' then wordFrom base acc cs
    else match anyDigit? c with
      | none => .error .malformed
      | some d =>
        if base ≤ d then .error .malformed
        else if 0x10000000000000000 ≤ acc * base + d then .error .outOfRange
        else wordFrom base (acc * base + d) cs

/-- A numeral of source code without its sign. -/
def unsignedBased? (cs : List Char) : Except NumeralError Nat :=
  let (base, marked, digits) := splitBase cs
  if digits.isEmpty then .error .malformed
  else match wordFrom base 0 digits with
    | .error e => .error e
    | .ok n =>
      if digits.contains '_' && !underscoresSeparate marked digits then .error .malformed
      else .ok n

/-- An integer of source code in the signed 64-bit range. -/
def based? (cs : List Char) : Except NumeralError Int :=
  let (minus, digits) := splitSign cs
  match unsignedBased? digits with
  | .error e => .error e
  | .ok n =>
    let value : Int := if minus then -(n : Int) else n
    if -0x8000000000000000 ≤ value ∧ value < 0x8000000000000000 then .ok value
    else .error .outOfRange

end NullPath.Text
