/-!
# Bytes written in base 64

Four characters stand for three bytes.  The last group may be filled up with equals signs; line
ends are passed over.

* `Text.base64?`: the bytes that a text stands for.
-/

namespace NullPath.Text

/-- The six bits that a character stands for. -/
def sextet? (c : Char) : Option Nat :=
  if 'A' ≤ c && c ≤ 'Z' then some (c.toNat - 'A'.toNat)
  else if 'a' ≤ c && c ≤ 'z' then some (c.toNat - 'a'.toNat + 26)
  else if c.isDigit then some (c.toNat - '0'.toNat + 52)
  else if c = '+' then some 62
  else if c = '/' then some 63
  else none

/-- The bytes of the groups of a text without line ends.  Bits that a filled group leaves over are
dropped. -/
def base64Groups? : List Char → Option (List Nat)
  | [] => some []
  | [a, b, '=', '='] => do
    let n := (← sextet? a) * 64 + (← sextet? b)
    return [n / 16]
  | [a, b, c, '='] => do
    let n := ((← sextet? a) * 64 + (← sextet? b)) * 64 + (← sextet? c)
    return [n / 1024, n / 4 % 256]
  | a :: b :: c :: d :: rest => do
    let n := (((← sextet? a) * 64 + (← sextet? b)) * 64 + (← sextet? c)) * 64 + (← sextet? d)
    return n / 65536 :: n / 256 % 256 :: n % 256 :: (← base64Groups? rest)
  | _ => none

/-- The bytes that a text stands for, if it is well formed. -/
def base64? (cs : List Char) : Option (List Nat) :=
  base64Groups? (cs.filter fun c => c != '\n' && c != '\r')

end NullPath.Text
