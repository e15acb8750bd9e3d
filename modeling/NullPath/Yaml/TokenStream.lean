import NullPath.Yaml.Property

/-!
# The tokens of YAML texts

A stream turns a text into tokens.  Whether a scalar is a key is known only when the colon
after it is found, so the stream keeps a queue, remembers where a key may have started, and
puts the tokens that announce a key in front of it.

* `TokenStream`: the text that is left, the queue, the indentation and the possible keys.
* `TokenStream.fetch`: adds the next token to the queue.
* `TokenStream.peek`, `TokenStream.skip`: the token at the head of the queue.
-/

namespace NullPath.Yaml

/-- The place where a key may have started: the number of its first token, and its position.  A
required key cannot be anything else.  The place may have turned out to be none. -/
structure KeyPlace where
  number : Nat := 0
  mark : Mark := {}
  required : Bool := false
  possible : Bool := false

/-- The state of scanning.  `taken` counts the tokens that have left the queue, and `level` the
open flow collections.  There is a place for a key for each of these and one for the blocks around
them, the innermost first.  `awaited` tells which tokens have to wait for the key place of which
level. -/
structure TokenStream where
  cursor : Cursor
  queue : List Token := []
  taken : Nat := 0
  started : Bool := false
  indent : Int := -1
  outerIndents : List Int := []
  keyAllowed : Bool := true
  level : Nat := 0
  keys : List KeyPlace := [{}]
  awaited : List (Nat × Nat) := []

/-- A computation on a stream that may run into a problem. -/
abbrev Scan := StateT TokenStream (Except Problem)

namespace TokenStream

/-- Whether a flow collection is open. -/
def inFlow (s : TokenStream) : Bool :=
  0 < s.level

/-- The column of the cursor. -/
def column (s : TokenStream) : Int :=
  s.cursor.mark.column

/-- The innermost key place. -/
def key (s : TokenStream) : KeyPlace :=
  s.keys.headD {}

/-- The number of the next token. -/
def nextNumber (s : TokenStream) : Nat :=
  s.taken + s.queue.length

/-- Moves the cursor. -/
def walk {α : Type} (w : Walk α) : Scan α := do
  let s ← get
  let (a, cursor) ← w.run s.cursor
  set { s with cursor }
  return a

/-- A problem at the cursor. -/
def failHere {α : Type} (message : String) : Scan α := do
  let s ← get
  throw ⟨message, s.cursor.mark, s.cursor.mark, true⟩

/-- Adds a token to the queue. -/
def push (kind : TokenKind) (mark : Mark) : Scan Unit :=
  modify fun s => { s with queue := s.queue ++ [⟨kind, mark⟩] }

/-- Puts a token in front of the token with a number.  If that has left the queue already, the
token goes to the end. -/
def insert (number : Nat) (kind : TokenKind) (mark : Mark) : Scan Unit :=
  modify fun s =>
    let place := if number < s.taken then s.queue.length else number - s.taken
    { s with queue := s.queue.insertIdx place ⟨kind, mark⟩ }

/-- Allows or forbids a key at the cursor. -/
def allowKey (allowed : Bool) : Scan Unit :=
  modify fun s => { s with keyAllowed := allowed }

/-- Replaces the innermost key place. -/
def setKey (k : KeyPlace) : Scan Unit :=
  modify fun s => { s with keys := k :: s.keys.drop 1 }

/-- No longer lets a token wait. -/
def release (number : Nat) : Scan Unit :=
  modify fun s => { s with awaited := s.awaited.eraseP (·.1 == number) }

/-- The problem of a required key that turned out to be none. -/
def failMissingColon {α : Type} (k : KeyPlace) : Scan α := do
  throw ⟨"could not find expected ':'", k.mark, (← get).cursor.mark, true⟩

/-- Gives up the innermost key place. -/
def dropKey : Scan Unit := do
  let k := (← get).key
  if k.possible then
    if k.required then failMissingColon k
    setKey { k with possible := false }
    release k.number

/-- Remembers that a key may start at the cursor. -/
def saveKey : Scan Unit := do
  let s ← get
  if s.keyAllowed then
    dropKey
    setKey ⟨s.nextNumber, s.cursor.mark, !s.inFlow && s.indent == s.column, true⟩
    modify fun t => { t with awaited := (s.nextNumber, s.level) :: t.awaited }

/-- The length that a key must not exceed. -/
def maxKeyLength : Nat :=
  1024

/-- Whether a key place can still become a key: the key must be short and stand on one line. -/
def isFresh (s : TokenStream) (k : KeyPlace) : Bool :=
  !(k.mark.line < s.cursor.mark.line || k.mark.index + maxKeyLength < s.cursor.mark.index)

/-- Whether the key place of a level can still become a key.  If not, it is given up. -/
def keyStands (level : Nat) : Scan Bool := do
  let s ← get
  let i := s.level - level
  match s.keys[i]? with
  | none => return false
  | some k =>
    if !k.possible then return false
    else if s.isFresh k then return true
    else if k.required then failMissingColon k
    else
      set { s with keys := s.keys.set i { k with possible := false } }
      return false

/-! ## Indentation -/

/-- How deep collections may be nested. -/
def maxDepth : Nat :=
  10000

/-- The wording of the problem of too deep collections. -/
def tooDeep : String :=
  s!"exceeded max depth of {maxDepth}"

/-- Ends the block collections that are indented more than a column.  The fuel bounds their
number. -/
def unrollFrom (column : Int) (mark : Mark) : Nat → Scan Unit
  | 0 => return
  | n + 1 => do
    let s ← get
    if s.indent > column then
      push .blockEnd mark
      modify fun s => { s with
        indent := s.outerIndents.headD (-1), outerIndents := s.outerIndents.drop 1 }
      unrollFrom column mark n

/-- Ends the block collections that are indented more than a column. -/
def unroll (column : Int) (mark : Mark) : Scan Unit := do
  let s ← get
  if s.inFlow then return
  if s.indent > column then unrollFrom column mark (s.outerIndents.length + 1)

/-- Starts a block collection if a column is indented more than the present one.  The token goes
to the end of the queue or in front of a token with a number. -/
def roll (column : Int) (number : Option Nat) (kind : TokenKind) (mark : Mark) : Scan Unit := do
  let s ← get
  if !s.inFlow && s.indent < column then
    if maxDepth ≤ s.outerIndents.length then throw ⟨tooDeep, s.key.mark, s.cursor.mark, true⟩
    modify fun s => { s with indent := column, outerIndents := s.indent :: s.outerIndents }
    match number with
    | some n => insert n kind mark
    | none => push kind mark

/-! ## Tokens -/

/-- Passes blanks.  Tabs count as blanks only where no key can start. -/
def skipBlanks (tabs : Bool) : Walk Unit := do
  let _ ← Walk.takeWhile fun x => x == ' ' || (tabs && x == '\t')

/-- Blanks, comments and line ends before a token.  In a view that starts with a byte order mark,
the first character of a line is passed over. -/
def skipSpace : Nat → Scan Unit
  | 0 => return
  | n + 1 => do
    walk (Walk.need 1)
    let c := (← get).cursor
    if c.mark.column == 0 && c.viewMarked then walk Walk.advance
    let s ← get
    walk (skipBlanks (s.inFlow || !s.keyAllowed))
    if (← get).cursor.at? '#' then walk Walk.comments
    if (← get).cursor.atBreak then
      walk do
        Walk.need 2
        let _ ← Walk.passBreak
      if !s.inFlow then allowKey true
      skipSpace n

/-- The end of the text ends everything. -/
def fetchEnd : Scan Unit := do
  modify fun s =>
    if s.cursor.mark.column == 0 then s
    else { s with cursor.mark.column := 0, cursor.mark.line := s.cursor.mark.line + 1 }
  let s ← get
  unroll (-1) s.cursor.mark
  dropKey
  allowKey false
  push .streamEnd s.cursor.mark

/-- A mark between documents. -/
def fetchDocumentMark (kind : TokenKind) : Scan Unit := do
  let mark := (← get).cursor.mark
  unroll (-1) mark
  dropKey
  allowKey false
  push kind mark
  walk (Walk.advanceBy 3)

/-- A directive. -/
def fetchDirective : Scan Unit := do
  let mark := (← get).cursor.mark
  unroll (-1) mark
  dropKey
  allowKey false
  let kind ← walk Walk.directive
  push kind mark

/-- A token of one character. -/
def fetchIndicator (kind : TokenKind) : Scan Unit := do
  push kind (← get).cursor.mark
  walk Walk.advance

/-- The start of a flow collection. -/
def fetchFlowStart (kind : TokenKind) : Scan Unit := do
  saveKey
  let s ← get
  if maxDepth ≤ s.level then throw ⟨tooDeep, s.cursor.mark, s.cursor.mark, true⟩
  set { s with
    level := s.level + 1, keys := ⟨s.nextNumber, s.cursor.mark, false, false⟩ :: s.keys
    keyAllowed := true }
  fetchIndicator kind

/-- The end of a flow collection. -/
def fetchFlowEnd (kind : TokenKind) : Scan Unit := do
  dropKey
  let s ← get
  if s.inFlow then
    release s.key.number
    modify fun s => { s with level := s.level - 1, keys := s.keys.drop 1 }
  allowKey false
  fetchIndicator kind

/-- A comma in a flow collection. -/
def fetchFlowEntry : Scan Unit := do
  dropKey
  allowKey true
  fetchIndicator .flowEntry

/-- A dash before an item. -/
def fetchBlockEntry : Scan Unit := do
  let s ← get
  if !s.inFlow then
    if !s.keyAllowed then failHere "block sequence entries are not allowed in this context"
    roll s.column none .blockSequenceStart s.cursor.mark
  dropKey
  allowKey true
  fetchIndicator .blockEntry

/-- A question mark before a key. -/
def fetchKey : Scan Unit := do
  let s ← get
  if !s.inFlow then
    if !s.keyAllowed then failHere "mapping keys are not allowed in this context"
    roll s.column none .blockMappingStart s.cursor.mark
  dropKey
  allowKey !s.inFlow
  fetchIndicator .key

/-- A colon after a key.  If a key may have started before, it has. -/
def fetchValue : Scan Unit := do
  let s ← get
  if ← keyStands s.level then
    let k := s.key
    insert k.number .key k.mark
    roll k.mark.column (some k.number) .blockMappingStart k.mark
    setKey { k with possible := false }
    release k.number
    allowKey false
  else
    if !s.inFlow then
      if !s.keyAllowed then failHere "mapping values are not allowed in this context"
      roll s.column none .blockMappingStart s.cursor.mark
    allowKey !s.inFlow
  fetchIndicator .value

/-- A token that may be a key or the start of one. -/
def fetchContent (read : Walk TokenKind) : Scan Unit := do
  saveKey
  allowKey false
  let mark := (← get).cursor.mark
  let kind ← walk read
  push kind mark

/-- A plain scalar.  After a line end, a key may follow. -/
def fetchPlain : Scan Unit := do
  saveKey
  let s ← get
  let (text, broken) ← walk (Walk.plain s.inFlow (s.indent + 1))
  allowKey broken
  push (.scalar text .plain) s.cursor.mark

/-- A block scalar. -/
def fetchBlockScalar (literal : Bool) : Scan Unit := do
  dropKey
  allowKey true
  let s ← get
  let text ← walk (Walk.block literal s.indent)
  push (.scalar text (if literal then .literal else .folded)) s.cursor.mark

/-- Whether a plain scalar may start at the cursor. -/
def startsPlain (s : TokenStream) : Bool :=
  let c := s.cursor
  (!c.spaced && !c.atOneOf "-?:,[]\x7b\x7d#&*!|>'\"%@`") ||
    (c.at? '-' && !((c.peek 1).map Cursor.isBlank).getD false) ||
    (!s.inFlow && c.atOneOf "?:" && !c.spaced 1)

/-- A token with the given first character that is neither a dash before an item nor a mark of
the document. -/
def fetchInside (x : Char) : Scan Unit := do
  let s ← get
  let c := s.cursor
  if x == '[' then fetchFlowStart .flowSequenceStart
  else if x == '\x7b' then fetchFlowStart .flowMappingStart
  else if x == ']' then fetchFlowEnd .flowSequenceEnd
  else if x == '\x7d' then fetchFlowEnd .flowMappingEnd
  else if x == ',' then fetchFlowEntry
  else if x == '?' && (s.inFlow || c.spaced 1) then fetchKey
  else if x == ':' && (s.inFlow || c.spaced 1) then fetchValue
  else if x == '*' then fetchContent (TokenKind.alias <$> Walk.anchorName)
  else if x == '&' then fetchContent (TokenKind.anchor <$> Walk.anchorName)
  else if x == '!' then fetchContent ((fun (handle, suffix) => .tag handle suffix) <$> Walk.tag)
  else if x == '|' && !s.inFlow then fetchBlockScalar true
  else if x == '>' && !s.inFlow then fetchBlockScalar false
  else if x == '\x27' then fetchContent ((TokenKind.scalar · .singleQuoted) <$> Walk.quoted true)
  else if x == '"' then fetchContent ((TokenKind.scalar · .doubleQuoted) <$> Walk.quoted false)
  else if s.startsPlain then fetchPlain
  else failHere "found character that cannot start any token"

/-- Adds the next token to the queue, and passes the comment after it.  A comment after a dash
belongs to what follows. -/
def fetch : Scan Unit := do
  walk (Walk.need 1)
  let s ← get
  if !s.started then
    set { s with started := true }
    push .streamStart s.cursor.mark
  else
    skipSpace s.cursor.size
    unroll (← get).column s.cursor.mark
    walk (Walk.need 4)
    let c := (← get).cursor
    match c.peek with
    | none => fetchEnd
    | some x =>
      if c.mark.column == 0 && x == '%' then fetchDirective
      else if c.atDocumentMark then
        fetchDocumentMark (if x == '-' then .documentStart else .documentEnd)
      else if x == '-' && c.spaced 1 then fetchBlockEntry
      else
        fetchInside x
        walk Walk.lineComment

/-- The number of tokens that are looked at before the first of them is used. -/
def lookahead : Nat :=
  3

/-- Whether the token at the head of the queue may still turn out to be a key. -/
def headAwaited : Scan Bool := do
  let s ← get
  match s.awaited.lookup s.taken with
  | none => return false
  | some level => keyStands level

/-- Fills the queue as far as its head depends on it. -/
def fill : Nat → Scan Unit
  | 0 => return
  | n + 1 => do
    if (← get).queue.length < lookahead then
      fetch
      fill n
    else if ← headAwaited then
      fetch
      fill n

/-- The token at the head of the queue. -/
def peek : Scan Token := do
  fill ((← get).cursor.size + 8)
  let s ← get
  return s.queue.headD ⟨.streamEnd, s.cursor.mark⟩

/-- Takes the token at the head of the queue. -/
def skip : Scan Unit :=
  modify fun s => { s with queue := s.queue.drop 1, taken := s.taken + 1 }

end TokenStream

end NullPath.Yaml
