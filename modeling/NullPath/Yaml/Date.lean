import NullPath.Text.Numeral

/-!
# Dates

A date has a year with four digits, a month and a day.  A time of day may follow, after blanks, or
after a `T` and with a zone.

* `Date`: a date with a time of day and a zone.
* `Date.parse?`: the date that a text stands for.
* `Date.text`: the display of a date.
-/

namespace NullPath.Yaml

/-- The zones of dates: that of the world, that of the place, whose time is the same, and those
whose time differs. -/
inductive Zone
  | world
  | here
  | away (minutes : Int)
  deriving DecidableEq, Repr

/-- A date with a time of day. -/
structure Date where
  year : Nat
  month : Nat
  day : Nat
  hour : Nat := 0
  minute : Nat := 0
  second : Nat := 0
  nanosecond : Nat := 0
  zone : Zone := .world
  deriving DecidableEq, Repr

/-- The number of days in a month. -/
def daysIn (year month : Nat) : Nat :=
  if month == 2 then
    if year % 4 == 0 && (year % 100 != 0 || year % 400 == 0) then 29 else 28
  else if month == 4 || month == 6 || month == 9 || month == 11 then 30
  else 31

/-- The number of one or two digits in front of a text, and the rest. -/
def shortNumber? (cs : List Char) : Option (Nat × List Char) :=
  let digits := (cs.take 2).takeWhile Char.isDigit
  (Text.digitsValue? 10 digits).map fun n => (n, cs.drop digits.length)

/-- A short number and the character after it, and the rest. -/
def shortNumberThen? (stop : Char) (cs : List Char) : Option (Nat × List Char) :=
  match shortNumber? cs with
  | some (n, c :: rest) => if c == stop then some (n, rest) else none
  | _ => none

/-- The fraction of a second in nanoseconds, and the rest.  Further digits do not count. -/
def secondFraction (cs : List Char) : Nat × List Char :=
  match cs with
  | mark :: digit :: rest =>
    if (mark == '.' || mark == ',') && digit.isDigit then
      let digits := (digit :: rest.takeWhile Char.isDigit).take 9
      let value := (Text.digitsValue? 10 digits).getD 0
      (value * Nat.pow 10 (9 - digits.length), rest.dropWhile Char.isDigit)
    else (0, cs)
  | _ => (0, cs)

/-- Reads a time of day: hours, minutes and seconds, which may have a fraction. -/
def Date.clock? (d : Date) (cs : List Char) : Option (Date × List Char) := do
  let (hour, cs) ← shortNumberThen? ':' cs
  let (minute, cs) ← shortNumberThen? ':' cs
  let (second, cs) ← shortNumber? cs
  if hour < 24 && minute < 60 && second < 60 then
    let (nanosecond, cs) := secondFraction cs
    some ({ d with hour, minute, second, nanosecond }, cs)
  else none

/-- A zone: `Z`, or a sign with hours and minutes. -/
def Zone.parse? : List Char → Option Zone
  | ['Z'] => some .world
  | [sign, h1, h2, ':', m1, m2] =>
    match Text.digitsValue? 10 [h1, h2], Text.digitsValue? 10 [m1, m2] with
    | some hours, some minutes =>
      if (sign == '+' || sign == '-') && hours ≤ 24 && minutes ≤ 60 then
        let offset := hours * 60 + minutes
        some (if offset = 0 then .here else .away (if sign == '-' then -offset else offset))
      else none
    | _, _ => none
  | _ => none

namespace Date

/-- The date that a text stands for. -/
def parse? (s : String) : Option Date :=
  let cs := s.toList
  match Text.digitsValue? 10 (cs.take 4), cs.drop 4 with
  | some year, '-' :: rest => do
    let (month, rest) ← shortNumberThen? '-' rest
    let (day, rest) ← shortNumber? rest
    let d : Date := { year, month, day }
    if 1 ≤ month && month ≤ 12 && 1 ≤ day && day ≤ daysIn year month then
      match rest with
      | [] => some d
      | c :: rest =>
        if c == ' ' then
          match d.clock? (rest.dropWhile (· == ' ')) with
          | some (d, []) => some d
          | _ => none
        else if c == 'T' || c == 't' then
          let (d, rest) ← d.clock? rest
          return { d with zone := ← Zone.parse? rest }
        else none
    else none
  | _, _ => none

/-- The names of the months. -/
def months : List String :=
  ["January", "February", "March", "April", "May", "June", "July", "August", "September",
    "October", "November", "December"]

/-- The display of a date. -/
def text (d : Date) : String :=
  let zone := match d.zone with
    | .world => "time.UTC"
    | .here => "time.Local"
    | .away _ => "time.Location(\"\")"
  let month := "time." ++ months.getD (d.month - 1) ""
  let numbers := [d.day, d.hour, d.minute, d.second, d.nanosecond].map toString
  let parts := toString d.year :: month :: numbers ++ [zone]
  "time.Date(" ++ ", ".intercalate parts ++ ")"

end Date

end NullPath.Yaml
