import NullPath.Text.Numeral

/-!
# Durations

* `Duration`: a span of time in nanoseconds.
* `Duration.text`: the span in hours, minutes and seconds, or in a smaller unit.
* `Duration.parse?`: reads numbers with units, such as `1h30m` or `1.5s`.
-/

namespace NullPath

/-- A span of time. -/
structure Duration where
  nanoseconds : Int
  deriving DecidableEq, Repr

namespace Duration

/-- A number of seconds. -/
def ofSeconds (n : Int) : Duration :=
  ⟨n * 1000000000⟩

/-- The digits of a number, filled up with zeros to a number of places. -/
def padded (places n : Nat) : List Char :=
  let digits := (toString n).toList
  List.replicate (places - digits.length) '0' ++ digits

/-- A number with the given number of decimal places, without zeros at the end. -/
def fraction (places n : Nat) : String :=
  let part := ((padded places (n % Nat.pow 10 places)).reverse.dropWhile (· == '0')).reverse
  toString (n / Nat.pow 10 places) ++
    if part.isEmpty || places = 0 then "" else "." ++ String.ofList part

/-- A span that is not negative. -/
def magnitude (n : Nat) : String :=
  if n = 0 then "0s"
  else if n < 1000 then fraction 0 n ++ "ns"
  else if n < 1000000 then fraction 3 n ++ "µs"
  else if n < 1000000000 then fraction 6 n ++ "ms"
  else
    let minutes := n / 60000000000
    let seconds := fraction 9 (n % 60000000000) ++ "s"
    if minutes = 0 then seconds
    else if minutes < 60 then s!"{minutes}m" ++ seconds
    else s!"{minutes / 60}h{minutes % 60}m" ++ seconds

/-- The span in the largest units that fit. -/
def text (d : Duration) : String :=
  if d.nanoseconds < 0 then "-" ++ magnitude d.nanoseconds.natAbs
  else magnitude d.nanoseconds.natAbs

/-- The number of nanoseconds in a unit.  The sign for a millionth has two code points. -/
def unit? : String → Option Nat
  | "ns" => some 1
  | "us" | "µs" | "μs" => some 1000
  | "ms" => some 1000000
  | "s" => some 1000000000
  | "m" => some 60000000000
  | "h" => some 3600000000000
  | _ => none

/-- The bound on all intermediate results. -/
def limit : Nat :=
  0x8000000000000000

/-- The digits of a fraction as a number and a scale.  Digits beyond 63 bits are dropped. -/
def scaled : Nat → Nat → List Char → Nat × Nat
  | n, scale, [] => (n, scale)
  | n, scale, c :: cs =>
    let next := 10 * n + (c.toNat - '0'.toNat)
    if n > (limit - 1) / 10 || next > limit then (n, scale) else scaled next (scale * 10) cs

/-- A fraction of a unit in whole nanoseconds, computed with floating-point numbers. -/
def fractionOf (digits : List Char) (unit : Nat) : Nat :=
  let (n, scale) := scaled 0 1 digits
  (Float.ofNat n * (Float.ofNat unit / Float.ofNat scale)).toUInt64.toNat

/-- The sum of numbers with units, added to a sum so far. -/
def parseFrom : Nat → Nat → List Char → Option Nat
  | _, total, [] => some total
  | 0, _, _ => none
  | fuel + 1, total, cs => do
    let whole := cs.takeWhile Char.isDigit
    let rest := cs.dropWhile Char.isDigit
    let (fraction, rest) := match rest with
      | '.' :: more => (more.takeWhile Char.isDigit, more.dropWhile Char.isDigit)
      | _ => ([], rest)
    if whole.isEmpty && fraction.isEmpty then failure
    let value := (Text.digitsValue? 10 whole).getD 0
    let isUnitChar (c : Char) : Bool := c != '.' && !c.isDigit
    let unit ← unit? (String.ofList (rest.takeWhile isUnitChar))
    if value > limit / unit then failure
    let value := value * unit + fractionOf fraction unit
    if value > limit || total + value > limit then failure
    parseFrom fuel (total + value) (rest.dropWhile isUnitChar)

/-- Reads an optional sign and numbers with units.  Zero needs no unit. -/
def parse? (s : String) : Option Duration :=
  let (minus, cs) := Text.splitSign s.toList
  if cs = ['0'] then some ⟨0⟩
  else if cs.isEmpty then none
  else
    match parseFrom (cs.length + 1) 0 cs with
    | none => none
    | some n => if minus then some ⟨-n⟩ else if n < limit then some ⟨n⟩ else none

end Duration

end NullPath
