import NullPath.Yaml.Portion
import NullPath.Yaml.Token

/-!
# Walking through a text

A cursor stands between the characters of a text.  It looks ahead only as far as it has taken
the text in, and takes in more portions when it needs them.

* `Cursor`: a position, the text after it, and how much of that is in view.
* `Walk`: a computation that moves a cursor and may run into a problem.
* `Walk.need`: takes in what has to be in view.
* `Walk.lineComment`, `Walk.comments`: what is passed over as comments.
-/

namespace NullPath.Yaml

/-- A position in a text, and the text after it.  `view` counts the characters in view, with the
end of the text as often as it has been looked for.  `viewMarked` tells whether the view started
with a byte order mark when it was last extended, and `crossed` whether a line has ended since
the last character that is not blank.  `size` bounds the number of characters. -/
structure Cursor where
  rest : List Char
  mark : Mark := {}
  portions : List Portion := []
  view : Nat := 0
  viewMarked : Bool := false
  crossed : Bool := false
  size : Nat := 0

/-- A computation that moves a cursor and may run into a problem. -/
abbrev Walk := StateT Cursor (Except Problem)

namespace Cursor

/-- The cursor at the start of a text.  A byte order mark there does not belong to the text, and
a text without characters is read as an empty line. -/
def ofText (text : String) : Cursor :=
  let (dropped, chars) := match text.toList with
    | [] => (0, ['\n'])
    | c :: cs => if c == byteOrderMark then (byteOrderMark.utf8Size, cs) else (0, c :: cs)
  { rest := chars, portions := Yaml.portions dropped chars, size := chars.length + 2 }

/-! ## Characters -/

/-- Whether a character ends a line. -/
def isBreak (c : Char) : Bool :=
  c == '\n' || c == '\r' || c.toNat == 0x85 || c.toNat == 0x2028 || c.toNat == 0x2029

/-- Whether a character separates words on a line. -/
def isBlank (c : Char) : Bool :=
  c == ' ' || c == '\t'

/-- Whether a character may stand in a name. -/
def isNameChar (c : Char) : Bool :=
  c.isAlphanum || c == '_' || c == '-'

/-- The character at a distance. -/
def peek (c : Cursor) (k : Nat := 0) : Option Char :=
  c.rest[k]?

/-- Whether the character at a distance is the given one. -/
def at? (c : Cursor) (x : Char) (k : Nat := 0) : Bool :=
  c.peek k == some x

/-- Whether the character at the cursor is one of the given ones. -/
def atOneOf (c : Cursor) (xs : String) : Bool :=
  (c.peek.map fun x => xs.toList.contains x).getD false

/-- Whether the text is at its end. -/
def atEnd (c : Cursor) : Bool :=
  c.rest.isEmpty

/-- Whether a blank is at the cursor. -/
def atBlank (c : Cursor) : Bool :=
  (c.peek.map isBlank).getD false

/-- Whether a line end is at the cursor. -/
def atBreak (c : Cursor) : Bool :=
  (c.peek.map isBreak).getD false

/-- Whether a blank, a line end or the end of the text is at a distance. -/
def spaced (c : Cursor) (k : Nat := 0) : Bool :=
  ((c.peek k).map fun x => isBlank x || isBreak x).getD true

/-- Whether a line end or the end of the text is at the cursor. -/
def lineDone (c : Cursor) : Bool :=
  (c.peek.map isBreak).getD true

/-- Whether the cursor is at one of the marks between documents. -/
def atDocumentMark (c : Cursor) : Bool :=
  c.mark.column == 0 && c.spaced 3 &&
    (c.rest.take 3 == ['-', '-', '-'] || c.rest.take 3 == ['.', '.', '.'])

/-- The cursor after one character. -/
def next (c : Cursor) : Cursor :=
  { c with
    rest := c.rest.drop 1
    mark := { c.mark with index := c.mark.index + 1, column := c.mark.column + 1 }
    view := c.view - 1
    crossed := c.crossed && c.atBlank }

/-- The cursor after a line end of the given number of characters. -/
def nextLine (c : Cursor) (n : Nat) : Cursor :=
  { c with
    rest := c.rest.drop n
    mark := ⟨c.mark.index + n, c.mark.line + 1, 0⟩
    view := c.view - n
    crossed := true }

end Cursor

namespace Walk

/-- A problem inside a token that starts at a position. -/
def fail {α : Type} (start : Mark) (message : String) : Walk α := do
  throw ⟨message, start, (← get).mark, true⟩

/-- Takes portions in until a number of characters is in view.  At the end of the text the view
grows by one. -/
def takeIn (n : Nat) : List Portion → Nat → Except Problem (List Portion × Nat)
  | [], view => .ok ([], if n ≤ view then view else view + 1)
  | p :: ps, view =>
    if n ≤ view then .ok (p :: ps, view)
    else if p.clean then takeIn n ps (view + p.size)
    else .error { message := "control characters are not allowed" }

/-- Brings a number of characters into view. -/
def need (n : Nat) : Walk Unit := do
  let c ← get
  if c.view < n then
    let (portions, view) ← takeIn n c.portions c.view
    set { c with portions, view, viewMarked := c.at? byteOrderMark }

/-- Passes a character. -/
def advance : Walk Unit :=
  modify Cursor.next

/-- Passes a number of characters. -/
def advanceBy : Nat → Walk Unit
  | 0 => return
  | n + 1 => do
    advance
    advanceBy n

/-- Passes the line end at the cursor.  All but two special line ends are read as the same
one. -/
def passBreak : Walk (List Char) := do
  let c ← get
  match c.rest with
  | '\r' :: '\n' :: _ =>
    set (c.nextLine 2)
    return ['\n']
  | x :: _ =>
    if Cursor.isBreak x then
      set (c.nextLine 1)
      return if x.toNat == 0x2028 || x.toNat == 0x2029 then [x] else ['\n']
    else return []
  | [] => return []

/-- Passes characters of a class.  The characters before them are given in reverse. -/
def takeFrom (p : Char → Bool) : Nat → List Char → Walk (List Char)
  | 0, taken => return taken.reverse
  | n + 1, taken => do
    match (← get).peek with
    | some x =>
      if p x then
        advance
        need 1
        takeFrom p n (x :: taken)
      else return taken.reverse
    | none => return taken.reverse

/-- Passes characters of a class. -/
def takeWhile (p : Char → Bool) : Walk (List Char) := do
  need 1
  takeFrom p (← get).size []

/-- Passes blanks. -/
def passBlanks : Walk Unit := do
  let _ ← takeWhile Cursor.isBlank

/-- Passes the rest of a line. -/
def passLine : Walk Unit := do
  let _ ← takeWhile fun x => !Cursor.isBreak x

/-- Passes blanks and a comment, and then the line end. -/
def finishLine (start : Mark) : Walk Unit := do
  passBlanks
  if (← get).at? '#' then passLine
  if !(← get).lineDone then fail start "did not find expected comment or line break"
  if (← get).atBreak then
    need 2
    let _ ← passBreak

/-! ## Comments -/

/-- How far a comment is looked for. -/
def commentReach : Nat :=
  512

/-- Moves to an index, and from there to the end of the line. -/
def passLineAt (index : Nat) : Nat → Walk Unit
  | 0 => return
  | n + 1 => do
    need 1
    let c ← get
    if !c.lineDone then
      advance
      passLineAt index n
    else if c.mark.index < index then
      need 2
      let _ ← passBreak
      passLineAt index n

/-- Passes the comment after a token, up to the end of its line. -/
def lineCommentFrom : Nat → Nat → List Char → Walk Unit
  | 0, _, _ => return
  | n + 1, k, rest => do
    need (k + 1)
    match rest with
    | x :: rest =>
      if Cursor.isBlank x then lineCommentFrom n (k + 1) rest
      else if x == '#' then
        let c ← get
        passLineAt (c.mark.index + k) c.size
    | [] => return

/-- Passes the comment after a token, unless the line has ended. -/
def lineComment : Walk Unit := do
  let c ← get
  if !c.crossed then lineCommentFrom commentReach 0 c.rest

/-- The distance of the next comment, if only blanks and line ends are before it. -/
def commentAhead : Nat → Nat → List Char → Walk (Option Nat)
  | 0, _, _ => return none
  | n + 1, k, rest => do
    need (k + 1)
    match rest with
    | x :: rest =>
      if Cursor.isBlank x || x == '\n' || x == '\r' then commentAhead n (k + 1) rest
      else
        if Cursor.isBreak x && 0 < n then need (k + 2)
        return if x == '#' then some k else none
    | [] => return none

/-- Passes the comments that follow on the next lines. -/
def commentsFrom : Nat → Walk Unit
  | 0 => return
  | n + 1 => do
    let c ← get
    match c.rest with
    | x :: rest =>
      -- A line end of more than one byte ends the search.
      if x == '\n' || x == '\r' then
        match ← commentAhead (commentReach - 1) 1 rest with
        | some k =>
          passLineAt (c.mark.index + k) c.size
          commentsFrom n
        | none => return
      else need 2
    | [] => need 2

/-- Passes the comment at the cursor and the comments that follow on the next lines. -/
def comments : Walk Unit := do
  let c ← get
  need 1
  passLineAt c.mark.index c.size
  commentsFrom c.size

end Walk

end NullPath.Yaml
