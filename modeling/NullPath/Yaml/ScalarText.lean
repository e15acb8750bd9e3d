import NullPath.Yaml.Cursor

/-!
# The texts of scalars

A scalar is written plain, between quotes, or as a block of lines.  Its text is what is left when
line ends are folded, escapes are replaced and indentation is removed.  While a text is being
read, its characters are kept in reverse.

* `Walk.plain`, `Walk.quoted`, `Walk.block`: the three ways to write a scalar.
-/

namespace NullPath.Yaml

/-! ## Folding of lines -/

/-- Blanks and line ends inside a scalar, before it is known what they stand for.  The characters
are in reverse. -/
structure Gap where
  blanks : List Char := []
  firstBreak : List Char := []
  laterBreaks : List Char := []
  broken : Bool := false

/-- What a gap stands for, in reverse.  A single line end is a blank, and of several the first is
dropped. -/
def Gap.reversed (g : Gap) : List Char :=
  if !g.broken then g.blanks
  else if g.firstBreak.head? == some '\n' then
    if g.laterBreaks.isEmpty then [' '] else g.laterBreaks
  else g.laterBreaks ++ g.firstBreak

namespace Walk

/-- Reads on over blanks and line ends.  A tab must not stand for indentation that a plain
scalar needs. -/
def readGap (tabLimit : Int) (start : Mark) : Nat → Gap → Walk Gap
  | 0, g => return g
  | n + 1, g => do
    let c ← get
    if c.atBlank then
      if g.broken && (c.mark.column : Int) < tabLimit && c.at? '\t' then
        fail start "found a tab character that violates indentation"
      advance
      need 1
      readGap tabLimit start n
        (if g.broken then g else { g with blanks := c.rest.take 1 ++ g.blanks })
    else if c.atBreak then
      need 2
      let b ← passBreak
      need 1
      readGap tabLimit start n
        (if g.broken then { g with laterBreaks := b ++ g.laterBreaks }
        else { g with blanks := [], firstBreak := b, broken := true })
    else return g

/-! ## Plain scalars -/

/-- Whether a plain scalar ends before the character at the cursor. -/
def endsPlain (inFlow : Bool) (c : Cursor) : Bool :=
  c.spaced || (c.at? ':' && c.spaced 1) || (inFlow && c.atOneOf ",?[]\x7b\x7d")

/-- The characters of a plain scalar up to the next gap. -/
def plainRun (inFlow : Bool) : Nat → List Char → Walk (List Char)
  | 0, run => return run
  | n + 1, run => do
    let c ← get
    if endsPlain inFlow c then return run
    advance
    need 2
    plainRun inFlow n (c.rest.take 1 ++ run)

/-- Reads on in a plain scalar whose text so far and whose last gap are given. -/
def plainFrom (inFlow : Bool) (indent : Int) (start : Mark) :
    Nat → List Char → Gap → Walk (List Char × Gap)
  | 0, text, g => return (text, g)
  | n + 1, text, g => do
    need 4
    let c ← get
    if c.atDocumentMark || c.at? '#' then return (text, g)
    let run ← plainRun inFlow c.size []
    let (text, g) := if run.isEmpty then (text, g) else (run ++ (g.reversed ++ text), {})
    let c ← get
    if !(c.atBlank || c.atBreak) then return (text, g)
    need 1
    let g ← readGap indent start c.size g
    if !inFlow && ((← get).mark.column : Int) < indent then return (text, g)
    plainFrom inFlow indent start n text g

/-- A plain scalar.  The answer tells also whether a line end follows it. -/
def plain (inFlow : Bool) (indent : Int) : Walk (String × Bool) := do
  let c ← get
  let (text, g) ← plainFrom inFlow indent c.mark c.size [] {}
  return (String.ofList text.reverse, g.broken)

/-! ## Quoted scalars -/

/-- What a character stands for after a backslash. -/
def escape? (c : Char) : Option Char :=
  match c with
  | '0' => some (Char.ofNat 0)
  | 'a' => some '\x07'
  | 'b' => some '\x08'
  | 't' | '\t' => some '\t'
  | 'n' => some '\n'
  | 'v' => some '\x0b'
  | 'f' => some '\x0c'
  | 'r' => some '\r'
  | 'e' => some '\x1b'
  | ' ' | '"' | '\x27' | '\\' => some c
  | 'N' => some (Char.ofNat 0x85)
  | '_' => some (Char.ofNat 0xA0)
  | 'L' => some (Char.ofNat 0x2028)
  | 'P' => some (Char.ofNat 0x2029)
  | _ => none

/-- The number of hexadecimal digits after a backslash and a letter. -/
def codeLength (c : Char) : Nat :=
  match c with
  | 'x' => 2
  | 'u' => 4
  | 'U' => 8
  | _ => 0

/-- The value of a hexadecimal digit. -/
def hexValue? (c : Char) : Option Nat :=
  if c.isDigit then some (c.toNat - '0'.toNat)
  else if 'a' ≤ c ∧ c ≤ 'f' then some (c.toNat - 'a'.toNat + 10)
  else if 'A' ≤ c ∧ c ≤ 'F' then some (c.toNat - 'A'.toNat + 10)
  else none

/-- Reads an escape sequence. -/
def readEscape (start : Mark) : Walk Char := do
  let c ← get
  match c.peek 1 with
  | none => fail start "found unknown escape character"
  | some x =>
    match escape? x with
    | some y =>
      advanceBy 2
      return y
    | none =>
      let n := codeLength x
      if n == 0 then fail start "found unknown escape character"
      advanceBy 2
      need n
      let digits := ((← get).rest.take n).filterMap hexValue?
      if digits.length < n then fail start "did not find expected hexdecimal number"
      let code := digits.foldl (fun v d => 16 * v + d) 0
      if h : code.isValidChar then
        advanceBy n
        return Char.ofNatAux code h
      else fail start "found invalid Unicode character escape code"

/-- The quote of a style of quoting. -/
def quoteMark (single : Bool) : Char :=
  if single then '\x27' else '"'

/-- The characters of a quoted scalar up to the next gap or the closing quote.  The flag tells
that the line ended with a backslash. -/
def quotedRun (single : Bool) (start : Mark) : Nat → List Char → Walk (List Char × Bool)
  | 0, text => return (text, false)
  | n + 1, text => do
    let c ← get
    if c.spaced then return (text, false)
    let more ←
      if single && c.at? '\x27' && c.at? '\x27' 1 then
        advanceBy 2
        pure ['\x27']
      else if c.at? (quoteMark single) then return (text, false)
      else if !single && c.at? '\\' then
        if ((c.peek 1).map Cursor.isBreak).getD false then
          need 3
          advance
          let _ ← passBreak
          return (text, true)
        else pure [← readEscape start]
      else
        advance
        pure (c.rest.take 1)
    need 2
    quotedRun single start n (more ++ text)

/-- Reads on in a quoted scalar whose text so far is given. -/
def quotedFrom (single : Bool) (start : Mark) : Nat → List Char → Walk (List Char)
  | 0, text => return text
  | n + 1, text => do
    need 4
    let c ← get
    if c.atDocumentMark then fail start "found unexpected document indicator"
    if c.atEnd then fail start "found unexpected end of stream"
    let (text, broken) ← quotedRun single start c.size text
    need 1
    if (← get).at? (quoteMark single) then
      advance
      return text
    let g ← readGap (-1) start c.size { broken }
    quotedFrom single start n (g.reversed ++ text)

/-- A quoted scalar with its quotes. -/
def quoted (single : Bool) : Walk String := do
  let c ← get
  advance
  let text ← quotedFrom single c.mark c.size []
  return String.ofList text.reverse

/-! ## Block scalars -/

/-- Passes spaces, as long as an indentation is not reached.  An indentation of 0 is not known
yet. -/
def passIndent (indent : Nat) : Nat → Walk Unit
  | 0 => return
  | n + 1 => do
    let c ← get
    if (indent == 0 || c.mark.column < indent) && c.at? ' ' then
      advance
      need 1
      passIndent indent n

/-- Reads the indentation and the empty lines before a line of a block scalar.  `widest` is the
largest indentation so far. -/
def blockBreaks (start : Mark) (indent : Nat) : Nat → Nat → List Char → Walk (Nat × List Char)
  | 0, widest, breaks => return (widest, breaks)
  | n + 1, widest, breaks => do
    need 1
    passIndent indent (← get).size
    let c ← get
    let widest := max widest c.mark.column
    if (indent == 0 || c.mark.column < indent) && c.at? '\t' then
      fail start "found a tab character where an indentation space is expected"
    if c.atBreak then
      need 2
      let b ← passBreak
      blockBreaks start indent n widest (b ++ breaks)
    else return (widest, breaks)

/-- The state of reading a block scalar: its text, the line end after the last line, the empty
lines after that, and whether the last line started with a blank.  The characters are in
reverse. -/
structure BlockText where
  text : List Char := []
  lastBreak : List Char := []
  laterBreaks : List Char := []
  blankStart : Bool := false

/-- Reads the lines of a block scalar. -/
def blockLines (literal : Bool) (start : Mark) (indent : Nat) : Nat → BlockText → Walk BlockText
  | 0, b => return b
  | n + 1, b => do
    let c ← get
    if c.mark.column != indent || c.atEnd then return b
    let blank := c.atBlank
    let joint :=
      if !literal && !b.blankStart && !blank && b.lastBreak.head? == some '\n' then
        if b.laterBreaks.isEmpty then [' '] else []
      else b.lastBreak
    let line ← takeWhile fun x => !Cursor.isBreak x
    need 2
    let lastBreak ← passBreak
    let (_, laterBreaks) ← blockBreaks start indent c.size 0 []
    blockLines literal start indent n
      ⟨line.reverse ++ (b.laterBreaks ++ (joint ++ b.text)), lastBreak, laterBreaks, blank⟩

/-- The indicator for what happens to the line ends at the end of a block scalar: whether all of
them are kept or dropped. -/
def chompIndicator : Walk (Option Bool) := do
  need 1
  let c ← get
  if c.at? '+' then
    advance
    return some true
  else if c.at? '-' then
    advance
    return some false
  else return none

/-- The indicator for the indentation of a block scalar. -/
def indentIndicator (start : Mark) : Walk Nat := do
  need 1
  let c ← get
  match c.peek with
  | some x =>
    if x == '0' then fail start "found an indentation indicator equal to 0"
    else if x.isDigit then
      advance
      return x.toNat - '0'.toNat
    else return 0
  | none => return 0

/-- The indicators after the start of a block scalar, in any order. -/
def blockIndicators (start : Mark) : Walk (Option Bool × Nat) := do
  match ← chompIndicator with
  | some keep => return (some keep, ← indentIndicator start)
  | none =>
    let n ← indentIndicator start
    if n == 0 then return (none, 0)
    return (← chompIndicator, n)

/-- A block scalar, in a collection with the given indentation. -/
def block (literal : Bool) (outer : Int) : Walk String := do
  let c ← get
  let start := c.mark
  advance
  let (keep, increment) ← blockIndicators start
  finishLine start
  let given := if increment == 0 then 0 else (max outer 0).toNat + increment
  let (widest, breaks) ← blockBreaks start given c.size 0 []
  let indent := if given == 0 then max (max widest (outer + 1).toNat) 1 else given
  need 1
  let b ← blockLines literal start indent c.size { laterBreaks := breaks }
  let tail := match keep with
    | some false => []
    | none => b.lastBreak
    | some true => b.laterBreaks ++ b.lastBreak
  return String.ofList (tail ++ b.text).reverse

end Walk

end NullPath.Yaml
