/-!
# Blank characters

* `isBlank`: the white space characters of Unicode, which separate the tokens of a script.
* `trimBlank`: a text without the blanks at its two ends.
-/

namespace NullPath.Text

/-- The white space characters: the six ASCII blanks, the next-line control, and the spaces and
separators of the other blocks. -/
def isBlank (c : Char) : Bool :=
  let n := c.toNat
  (9 ≤ n && n ≤ 13) || n == 32 || n == 0x85 || n == 0xA0 || n == 0x1680 ||
    (0x2000 ≤ n && n ≤ 0x200A) || n == 0x2028 || n == 0x2029 || n == 0x202F || n == 0x205F ||
    n == 0x3000

/-- The text without leading and trailing blanks. -/
def trimBlank (s : String) : String :=
  String.ofList ((s.toList.dropWhile isBlank).reverse.dropWhile isBlank).reverse

end NullPath.Text
