/-!
# Aligned columns

Text is aligned in columns.  A tab or vertical tab ends a cell, a line end or form feed ends a
line.  What follows the last cell of a line is not aligned.  A column goes on as long as
consecutive lines have a cell for it; it is as wide as its widest cell and one blank.  A form
feed ends all columns.

* `Columns.sections`: the lines of a text, with their cells.
* `Columns.width`: the width of a cell.
* `Columns.align`: a text with its cells padded.
-/

namespace NullPath.Columns

/-- The cells of a line; the last one is what follows the last tab. -/
abbrev Line := List (List Char)

/-- The part of a text that has been read: its finished sections, the finished lines of the
present section, the finished cells of the present line, and the present cell, all reversed. -/
structure Reading where
  sections : List (List Line) := []
  lines : List Line := []
  cells : List (List Char) := []
  cell : List Char := []

namespace Reading

/-- Ends the present cell. -/
def endCell (r : Reading) : Reading :=
  { r with cells := r.cell.reverse :: r.cells, cell := [] }

/-- Ends the present line. -/
def endLine (r : Reading) : Reading :=
  let r := r.endCell
  { r with lines := r.cells.reverse :: r.lines, cells := [] }

/-- Ends the present section. -/
def endSection (r : Reading) : Reading :=
  { r with sections := r.lines.reverse :: r.sections, lines := [] }

/-- Reads one character. -/
def step (r : Reading) (c : Char) : Reading :=
  if c = '\t' || c = '\x0b' then r.endCell
  else if c = '\n' then r.endLine
  else if c = '\x0c' then r.endLine.endSection
  else { r with cell := c :: r.cell }

end Reading

/-- The sections of a text whose lines are all ended. -/
def sections (text : List Char) : List (List Line) :=
  (text.foldl Reading.step {}).endSection.sections.reverse

/-- Whether a line has an aligned cell in a column. -/
def hasColumn (column : Nat) (line : Line) : Bool :=
  column + 1 < line.length

/-- The width of what a line has in a column. -/
def cellWidth (column : Nat) (line : Line) : Nat :=
  (line.getD column []).length

/-- The width of a column on a line, given the lines before it, the nearest first, and the lines
after it. -/
def width (before : List Line) (line : Line) (after : List Line) (column : Nat) : Nat :=
  let block := line :: before.takeWhile (hasColumn column) ++ after.takeWhile (hasColumn column)
  (block.map (cellWidth column)).foldl max 0 + 1

/-- The cells of a line from a column on, padded. -/
def pad (before : List Line) (line : Line) (after : List Line) (column : Nat) :
    List (List Char) → List Char
  | [] => []
  | [last] => last
  | cell :: rest =>
    cell ++ List.replicate (width before line after column - cell.length) ' ' ++
      pad before line after (column + 1) rest

/-- The lines of a section, padded. -/
def alignLines (before : List Line) : List Line → List Char
  | [] => []
  | line :: after => pad before line after 0 line ++ '\n' :: alignLines (line :: before) after

/-- The text with its cells padded. -/
def align (text : String) : String :=
  String.ofList ((sections text.toList).flatMap (alignLines []))

end NullPath.Columns
