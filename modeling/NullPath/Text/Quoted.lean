import NullPath.Text.Printable

/-!
# Quoted text

Messages quote the names and values they complain about.  Inside double quotes a quotation mark
and a backslash are escaped by a backslash, the usual control characters have their letter
escapes, any other ASCII control character is written with two hexadecimal digits, and every
other character that is not printable is written by its code point with four or eight digits.

* `escapeChar`: the quoted form of one character.
* `quote`: the quoted form of a text.
-/

namespace NullPath.Text

/-- The lower case hexadecimal digits of a number, padded with zeros to the given width. -/
def hexDigits (width n : Nat) : String :=
  let digits := String.ofList (Nat.toDigits 16 n)
  "".pushn '0' (width - digits.length) ++ digits

/-- The form of one character inside double quotes. -/
def escapeChar (c : Char) : String :=
  match c with
  | '"' => "\\\""
  | '\\' => "\\\\"
  | '\n' => "\\n"
  | '\t' => "\\t"
  | '\r' => "\\r"
  | '\x07' => "\\a"
  | '\x08' => "\\b"
  | '\x0b' => "\\v"
  | '\x0c' => "\\f"
  | c =>
    if isPrintable c then String.singleton c
    else if c.toNat < 0x80 then "\\x" ++ hexDigits 2 c.toNat
    else if c.toNat < 0x10000 then "\\u" ++ hexDigits 4 c.toNat
    else "\\U" ++ hexDigits 8 c.toNat

/-- The text between double quotes, with everything escaped that could not be read back. -/
def quote (s : String) : String :=
  "\"" ++ String.join (s.toList.map escapeChar) ++ "\""

end NullPath.Text
