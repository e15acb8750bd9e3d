/-!
# Tokens of YAML texts

* `Mark`: a position in a text.
* `Token`: the parts of which documents are written.
* `Problem`: why a text could not be read, and where.
-/

namespace NullPath.Yaml

/-- A position: how many characters, lines and characters of the line come before it. -/
structure Mark where
  index : Nat := 0
  line : Nat := 0
  column : Nat := 0
  deriving DecidableEq, Repr

/-- How a scalar is written. -/
inductive Style
  | plain
  | singleQuoted
  | doubleQuoted
  | literal
  | folded
  deriving DecidableEq, Repr

/-- The kinds of tokens.  The starts and ends of block collections are read off the
indentation. -/
inductive TokenKind
  | streamStart
  | streamEnd
  | version (major minor : Nat)
  | handle (name expansion : String)
  | documentStart
  | documentEnd
  | blockSequenceStart
  | blockMappingStart
  | blockEnd
  | flowSequenceStart
  | flowSequenceEnd
  | flowMappingStart
  | flowMappingEnd
  | blockEntry
  | flowEntry
  | key
  | value
  | alias (name : String)
  | anchor (name : String)
  | tag (handle suffix : String)
  | scalar (text : String) (style : Style)
  deriving DecidableEq, Repr

/-- A token and where it starts. -/
structure Token where
  kind : TokenKind
  mark : Mark
  deriving DecidableEq, Repr

/-- Why a text could not be read.  The positions are those of the problem and of what was being
read.  A problem inside a token is told apart from a token in the wrong place. -/
structure Problem where
  message : String
  context : Mark := {}
  place : Mark := {}
  insideToken : Bool := false
  deriving DecidableEq, Repr

namespace Problem

/-- The number of the line that a problem is reported for: that of the context, or else that of
the problem.  Problems on the first line are reported without a number. -/
def line? (p : Problem) : Option Nat :=
  let shift := if p.insideToken then 1 else 0
  if p.context.line ≠ 0 then some (p.context.line + shift)
  else if p.place.line ≠ 0 then some (p.place.line + shift)
  else none

/-- The wording of a problem. -/
def text (p : Problem) : String :=
  match p.line? with
  | some n => s!"yaml: line {n}: {p.message}"
  | none => s!"yaml: {p.message}"

end Problem

end NullPath.Yaml
