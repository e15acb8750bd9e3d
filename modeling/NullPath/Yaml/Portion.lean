/-!
# Portions of a text

A text is taken in by portions.  A portion has at most 512 bytes and as many whole characters as
fit.  Whether its characters are allowed is checked when it is taken in, so that a forbidden
character is noticed only by someone who reads that far.

* `isAllowed`: the characters that may stand in a text.
* `Portion`: the size of a portion, and whether all of its characters are allowed.
* `portions`: the portions of a text.
-/

namespace NullPath.Yaml

/-- Whether a character may stand in a text. -/
def isAllowed (c : Char) : Bool :=
  let n := c.toNat
  n == 0x09 || n == 0x0A || n == 0x0D || (0x20 ≤ n && n ≤ 0x7E) || n == 0x85 ||
    (0xA0 ≤ n && n ≤ 0xD7FF) || (0xE000 ≤ n && n ≤ 0xFFFD) || 0x10000 ≤ n

/-- The character that may open a text to tell the order of its bytes. -/
def byteOrderMark : Char :=
  Char.ofNat 0xFEFF

/-- How many characters a portion has, and whether all of them are allowed. -/
structure Portion where
  size : Nat := 0
  clean : Bool := true
  deriving DecidableEq, Repr

/-- The number of bytes that a portion may have. -/
def portionBytes : Nat :=
  512

/-- The portions of a text, when `p` is the portion that is being filled and `used` the bytes that
it has already. -/
def portionsFrom : Nat → Portion → List Char → List Portion
  | _, p, [] => if p.size = 0 then [] else [p]
  | used, p, c :: cs =>
    if used + c.utf8Size ≤ portionBytes then
      portionsFrom (used + c.utf8Size) ⟨p.size + 1, p.clean && isAllowed c⟩ cs
    else p :: portionsFrom c.utf8Size ⟨1, isAllowed c⟩ cs

/-- The portions of a text after a number of bytes that are dropped from the first of them. -/
def portions (dropped : Nat) (text : List Char) : List Portion :=
  portionsFrom dropped {} text

end NullPath.Yaml
