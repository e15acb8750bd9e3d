import NullPath.Text.Base64
import NullPath.Text.Numeral
import NullPath.Text.Utf8
import NullPath.Yaml.Date

/-!
# The values of YAML scalars

A scalar that is neither quoted nor tagged stands for the first of these that its text fits: a
truth value, nothing, a date, an integer, a fraction, and else for its text.

* `Value`: the values of scalars.
* `resolve`: what a text stands for.
* `scalarValue`: the value of a scalar with a tag.
-/

namespace NullPath.Yaml

/-- The value of a scalar. -/
inductive Value
  | null
  | bool (value : Bool)
  | int (value : Int)
  | float (value : Float)
  | date (value : Date)
  | text (value : String)
  deriving BEq

namespace Value

/-- The tag of a value. -/
def tag : Value → String
  | .null => "!!null"
  | .bool _ => "!!bool"
  | .int _ => "!!int"
  | .float _ => "!!float"
  | .date _ => "!!timestamp"
  | .text _ => "!!str"

end Value

/-- An unsigned number with a fraction and an exponent, both optional. -/
def unsignedFraction? (cs : List Char) : Option Float :=
  let whole := cs.takeWhile Char.isDigit
  let cs := cs.drop whole.length
  let (fraction, cs) := match cs with
    | '.' :: rest => (rest.takeWhile Char.isDigit, rest.dropWhile Char.isDigit)
    | _ => ([], cs)
  let exponent : Option Int := match cs with
    | [] => some 0
    | c :: rest => if c == 'e' || c == 'E' then Text.signed? rest else none
  match exponent, Text.digitsValue? 10 (whole ++ fraction) with
  | some e, some n =>
    -- Exponents beyond these bounds make no difference, because the number is 0 or infinite.
    let limit : Int := 400 + (whole ++ fraction).length
    let e := max (-limit) (min limit e) - fraction.length
    some (if e < 0 then .ofScientific n true e.natAbs else .ofScientific n false e.toNat)
  | _, _ => none

/-- A decimal number that is not too large. -/
def fraction? (cs : List Char) : Option Float :=
  let (minus, digits) := Text.splitSign cs
  match unsignedFraction? digits with
  | some x => if x.isInf then none else some (if minus then -x else x)
  | none => none

/-- Whether every underscore stands between two digits.  The flag tells whether a digit has just
been read. -/
def underscoresFit : Bool → List Char → Bool
  | _, [] => true
  | _, ['_'] => false
  | afterDigit, '_' :: c :: cs => afterDigit && c.isDigit && underscoresFit true cs
  | _, c :: cs => underscoresFit c.isDigit cs

/-- A fraction that starts with a point. -/
def pointFraction? (cs : List Char) : Option Float :=
  if underscoresFit false cs then fraction? (cs.filter (· != '_')) else none

/-- A numeral with an optional sign in a base, in the signed 64-bit range. -/
def signedIn? (base : Nat) (cs : List Char) : Option Int :=
  let (minus, digits) := Text.splitSign cs
  match Text.digitsValue? base digits with
  | some n =>
    let v : Int := if minus then -n else n
    if -0x8000000000000000 ≤ v ∧ v < 0x8000000000000000 then some v else none
  | none => none

/-- An integer with 64 bits, with or without sign. -/
def integer? (cs : List Char) : Option Int :=
  match Text.based? cs with
  | .ok v => some v
  | .error _ =>
    match Text.unsignedBased? cs with
    | .ok n => some n
    | .error _ => none

/-- An integer whose sign stands after the mark of its base. -/
def markedInteger? : List Char → Option Int
  | '0' :: 'b' :: cs => signedIn? 2 cs
  | '0' :: 'o' :: cs => signedIn? 8 cs
  | _ => none

/-- A number: an integer, or else a fraction.  Underscores between its characters do not count. -/
def number? (cs : List Char) : Option Value :=
  let cs := cs.filter (· != '_')
  match integer? cs with
  | some v => some (.int v)
  | none =>
    match fraction? cs with
    | some x => some (.float x)
    | none => (markedInteger? cs).map .int

/-- What a text stands for.  Dates are told apart from other texts only where `dates` says so. -/
def resolve (dates : Bool) (s : String) : Value :=
  if s ∈ ["true", "True", "TRUE"] then .bool true
  else if s ∈ ["false", "False", "FALSE"] then .bool false
  else if s ∈ ["", "~", "null", "Null", "NULL"] then .null
  else if s ∈ [".nan", ".NaN", ".NAN"] then .float (0.0 / 0.0)
  else if s ∈ [".inf", ".Inf", ".INF", "+.inf", "+.Inf", "+.INF"] then .float (1.0 / 0.0)
  else if s ∈ ["-.inf", "-.Inf", "-.INF"] then .float (-1.0 / 0.0)
  else
    match s.toList with
    | [] => .null
    | c :: cs =>
      if c == '.' then ((pointFraction? (c :: cs)).map .float).getD (.text s)
      else if c.isDigit || c == '+' || c == '-' then
        match if dates then Date.parse? s else none with
        | some d => .date d
        | none => (number? (c :: cs)).getD (.text s)
      else .text s

/-- The tag of a plain scalar that has none of its own.  Two angle brackets ask for a merge. -/
def impliedTag (s : String) : String :=
  if s == "<<" then "!!merge" else (resolve true s).tag

/-- The value of a scalar with a tag.  A fraction may be written as an integer with a sign bit,
encoded bytes are decoded, and what is written under an unknown tag is a text. -/
def scalarValue (tag s : String) : Except String Value :=
  match tag with
  | "!!str" => .ok (.text s)
  | "!!binary" =>
    match Text.base64? s.toList with
    | some bytes => .ok (.text (String.ofList (Text.decode bytes)))
    | none => .error "!!binary value contains invalid base64 data"
  | "!!bool" | "!!int" | "!!float" | "!!null" | "!!timestamp" =>
    let v := resolve (tag == "!!timestamp") s
    if tag == v.tag then .ok v
    else
      let mismatch := s!"cannot decode {v.tag} `{s}` as a {tag}"
      match tag, v with
      | "!!float", .int n =>
        if n < 0x8000000000000000 then .ok (.float (.ofInt n)) else .error mismatch
      | _, _ => .error mismatch
  | _ => .ok (.text s)

end NullPath.Yaml
