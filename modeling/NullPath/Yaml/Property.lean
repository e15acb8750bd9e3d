import NullPath.Text.Utf8
import NullPath.Yaml.ScalarText

/-!
# Names, tags and directives

A node may have a name and a tag in front of it, and a document may have directives.  A tag is a
handle and a suffix, or a whole address; in addresses, bytes may be written by their number.

* `Walk.anchorName`: the name of an anchor or a reference.
* `Walk.tag`: a tag.
* `Walk.directive`: a directive with its line.
-/

namespace NullPath.Yaml.Walk

/-- The name of an anchor or a reference, with its indicator. -/
def anchorName : Walk String := do
  let start := (← get).mark
  advance
  let name ← takeWhile Cursor.isNameChar
  let c ← get
  if name.isEmpty || !(c.spaced || c.atOneOf "?:,]\x7d%@`") then
    fail start "did not find expected alphabetic or numeric character"
  return String.ofList name

/-! ## Addresses -/

/-- Whether a character may stand in the address of a tag. -/
def isAddressChar (c : Char) : Bool :=
  Cursor.isNameChar c || ";/?:@&=+$,.!~*'()[]%".toList.contains c

/-- The number of bytes of a character whose first byte is given. -/
def sequenceLength (byte : Nat) : Nat :=
  if byte < 0x80 then 1
  else if byte < 0xC0 then 0
  else if byte < 0xE0 then 2
  else if byte < 0xF0 then 3
  else if byte < 0xF8 then 4
  else 0

/-- A byte that is written by its number. -/
def escapedByte (start : Mark) : Walk Nat := do
  need 3
  let c ← get
  match c.rest with
  | '%' :: a :: b :: _ =>
    match hexValue? a, hexValue? b with
    | some a, some b => return 16 * a + b
    | _, _ => fail start "did not find URI escaped octet"
  | _ => fail start "did not find URI escaped octet"

/-- The bytes that continue a character. -/
def escapedTail (start : Mark) : Nat → List Nat → Walk (List Nat)
  | 0, bytes => return bytes
  | n + 1, bytes => do
    let byte ← escapedByte start
    if byte < 0x80 || 0xC0 ≤ byte then fail start "found an incorrect trailing UTF-8 octet"
    advanceBy 3
    escapedTail start n (byte :: bytes)

/-- A character whose bytes are written by their numbers.  The bytes are in reverse. -/
def escapedChar (start : Mark) : Walk (List Nat) := do
  let byte ← escapedByte start
  let length := sequenceLength byte
  if length == 0 then fail start "found an incorrect leading UTF-8 octet"
  advanceBy 3
  escapedTail start (length - 1) [byte]

/-- Reads on in an address whose bytes so far are given in reverse. -/
def addressFrom (start : Mark) : Nat → List Nat → Walk (List Nat)
  | 0, bytes => return bytes
  | n + 1, bytes => do
    match (← get).peek with
    | some x =>
      if !isAddressChar x then return bytes
      let more ←
        if x == '%' then escapedChar start
        else
          advance
          pure [x.toNat]
      need 1
      addressFrom start n (more ++ bytes)
    | none => return bytes

/-- The address that starts with the given characters.  Unless there is something in front of it,
it must not be empty. -/
def address (start : Mark) (front : List Char) (optional : Bool) : Walk String := do
  need 1
  let c ← get
  let bytes ← addressFrom start c.size (front.map Char.toNat).reverse
  if !optional && (← get).mark == c.mark then fail start "did not find expected tag URI"
  return String.ofList (Text.decode bytes.reverse)

/-! ## Tags -/

/-- A handle, or the characters that could be the start of one.  The flag tells which. -/
def handle (start : Mark) : Walk (List Char × Bool) := do
  need 1
  if !(← get).at? '!' then fail start "did not find expected '!'"
  advance
  let name ← takeWhile Cursor.isNameChar
  if (← get).at? '!' then
    advance
    return (name, true)
  else return (name, false)

/-- A tag: a handle and a suffix.  A whole address has no handle, and the tag of a single
exclamation mark is written as a whole address, too. -/
def tag : Walk (String × String) := do
  let start := (← get).mark
  need 2
  let parts ←
    if (← get).at? '<' 1 then
      advanceBy 2
      let suffix ← address start [] false
      if !(← get).at? '>' then fail start "did not find the expected '>'"
      advance
      pure ("", suffix)
    else
      let (name, closed) ← handle start
      if closed then
        let suffix ← address start [] false
        pure ("!" ++ String.ofList name ++ "!", suffix)
      else
        let suffix ← address start name true
        pure (if suffix == "" then ("", "!") else ("!", suffix))
  need 1
  if !(← get).spaced then fail start "did not find expected whitespace or line break"
  return parts

/-! ## Directives -/

/-- The number of digits that a version may have. -/
def maxVersionDigits : Nat :=
  2

/-- Reads on in a number of a version whose digits so far are given. -/
def versionNumberFrom (start : Mark) : Nat → Nat → Nat → Walk Nat
  | 0, _, value => return value
  | n + 1, length, value => do
    match (← get).peek with
    | some x =>
      if x.isDigit then
        if maxVersionDigits ≤ length then fail start "found extremely long version number"
        advance
        need 1
        versionNumberFrom start n (length + 1) (10 * value + (x.toNat - '0'.toNat))
      else if length == 0 then fail start "did not find expected version number"
      else return value
    | none =>
      if length == 0 then fail start "did not find expected version number"
      return value

/-- A number of a version. -/
def versionNumber (start : Mark) : Walk Nat := do
  need 1
  versionNumberFrom start (← get).size 0 0

/-- The numbers of a version directive. -/
def version (start : Mark) : Walk TokenKind := do
  passBlanks
  let major ← versionNumber start
  if !(← get).at? '.' then fail start "did not find expected digit or '.' character"
  advance
  let minor ← versionNumber start
  return .version major minor

/-- The handle that a directive explains, and what it stands for. -/
def handleMeaning (start : Mark) : Walk TokenKind := do
  passBlanks
  let (name, closed) ← handle start
  if !closed && !name.isEmpty then fail start "did not find expected '!'"
  need 1
  if !(← get).atBlank then fail start "did not find expected whitespace"
  passBlanks
  let meaning ← address start [] false
  need 1
  if !(← get).spaced then fail start "did not find expected whitespace or line break"
  return .handle ("!" ++ String.ofList name ++ if closed then "!" else "") meaning

/-- A directive with its line. -/
def directive : Walk TokenKind := do
  let start := (← get).mark
  advance
  let name ← takeWhile Cursor.isNameChar
  if name.isEmpty then fail start "could not find expected directive name"
  if !(← get).spaced then fail start "found unexpected non-alphabetical character"
  let kind ← match String.ofList name with
    | "YAML" => version start
    | "TAG" => handleMeaning start
    | _ => fail start "found unknown directive name"
  finishLine start
  return kind

end NullPath.Yaml.Walk
