import NullPath.Yaml.Scalar
import NullPath.Yaml.TokenStream

/-!
# YAML documents

A node is a scalar, a sequence or a mapping, or refers to another node by its name.  A node may
refer to a node that contains it, so references hold a number, and the document has a table.

* `Node`: the parts of a document, each with its line and its tag.
* `Document`: a node, and the nodes that have names.
* `Document.ofText`: the first document of a text.
-/

namespace NullPath.Yaml

/-- A part of a document.  References are numbered, and so are the nodes they refer to. -/
inductive Node
  | scalar (line : Nat) (tag : String) (text : String)
  | sequence (line : Nat) (tag : String) (items : List Node)
  | mapping (line : Nat) (tag : String) (entries : List (Node × Node))
  | alias (line : Nat) (name : String) (number target : Nat)
  deriving Inhabited

namespace Node

/-- The line on which a node starts. -/
def line : Node → Nat
  | .scalar n _ _ | .sequence n _ _ | .mapping n _ _ | .alias n _ _ _ => n

/-- The tag of a node.  A reference has none. -/
def tag : Node → String
  | .scalar _ t _ | .sequence _ t _ | .mapping _ t _ => t
  | .alias _ _ _ _ => ""

/-- The text of a scalar or the name of a reference; a collection has the empty one. -/
def text : Node → String
  | .scalar _ _ s | .alias _ s _ _ => s
  | _ => ""

/-- A number for the kind of a node. -/
def kind : Node → Nat
  | .scalar _ _ _ => 0
  | .sequence _ _ _ => 1
  | .mapping _ _ _ => 2
  | .alias _ _ _ _ => 3

/-- Whether a node is a mapping. -/
def isMapping : Node → Bool
  | .mapping _ _ _ => true
  | _ => false

end Node

/-- A node, and the nodes that references in it refer to, by their numbers. -/
structure Document where
  root : Node
  targets : List (Nat × Node) := []

namespace Document

/-- The node with a number. -/
def target (d : Document) (number : Nat) : Node :=
  (d.targets.lookup number).getD (.scalar 0 "!!null" "")

/-- The node that a reference refers to; any other node stands for itself. -/
def resolved (d : Document) : Node → Node
  | .alias _ _ _ target => d.target target
  | n => n

end Document

/-! ## Tags -/

/-- What the tags of the language itself start with. -/
def standardTags : String :=
  "tag:yaml.org,2002:"

/-- The short form of a tag. -/
def shortTag (tag : String) : String :=
  if tag.startsWith standardTags then "!!" ++ (tag.drop standardTags.length).toString else tag

/-- The tag that a handle and a suffix stand for. -/
def resolveTag? (handles : List (String × String)) (handle suffix : String) : Option String :=
  if handle == "" then some suffix
  else ((handles ++ [("!", "!"), ("!!", standardTags)]).lookup handle).map (· ++ suffix)

/-- The tag of a node: its own in short form, or else the implied one.  A single exclamation mark
is no tag. -/
def tagOr (own implied : String) : String :=
  if own == "" || own == "!" then implied else shortTag own

/-- The state of reading a document: the tokens, the handles of tags, the numbers of the names
that nodes have been given, the nodes with numbers, and the number of references. -/
structure Reader where
  tokens : TokenStream
  handles : List (String × String) := []
  names : List (String × Nat) := []
  targets : List (Nat × Node) := []
  references : Nat := 0

/-- A computation on a reader that may run into a problem. -/
abbrev Read := StateT Reader (Except Problem)

namespace Reader

/-- The next token. -/
def peek : Read Token := do
  let r ← get
  let (t, s) ← TokenStream.peek.run r.tokens
  set { r with tokens := s }
  return t

/-- Takes the next token. -/
def skip : Read Unit := do
  let r ← get
  let ((), s) ← TokenStream.skip.run r.tokens
  set { r with tokens := s }

/-- Fails at a token inside something that started at a position. -/
def fail {α : Type} (start : Mark) (message : String) (t : Token) : Read α :=
  throw ⟨message, start, t.mark, false⟩

/-- The problem of a text that is too deep. -/
def failTooDeep {α : Type} : Read α :=
  throw { message := TokenStream.tooDeep }

/-- A scalar without text. -/
def emptyScalar (mark : Mark) : Node :=
  .scalar (mark.line + 1) (impliedTag "") ""

/-- Gives a name to the node that is going to be read, and tells its number. -/
def declare (name : String) : Read Nat := do
  let number := (← get).names.length
  modify fun r => { r with names := (name, number) :: r.names }
  return number

/-- A reference to the node with a name. -/
def reference (line : Nat) (name : String) : Read Node := do
  let r ← get
  match r.names.lookup name with
  | some target =>
    set { r with references := r.references + 1 }
    return .alias line name r.references target
  | none => throw { message := s!"unknown anchor '{name}' referenced" }

/-- The name and the tag in front of a node, in any order, and the token after them. -/
def properties : Read (Option String × Option Token × Token) := do
  let t ← peek
  match t.kind with
  | .anchor a =>
    skip
    let u ← peek
    match u.kind with
    | .tag _ _ =>
      skip
      return (some a, some u, ← peek)
    | _ => return (some a, none, u)
  | .tag _ _ =>
    skip
    let u ← peek
    match u.kind with
    | .anchor a =>
      skip
      return (some a, some t, ← peek)
    | _ => return (none, some t, u)
  | _ => return (none, none, t)

/-- The tag that a token gives to a node; without a token it is empty. -/
def tagOf (start : Mark) : Option Token → Read String
  | none => return ""
  | some t =>
    match t.kind with
    | .tag handle suffix => do
      match resolveTag? (← get).handles handle suffix with
      | some tag => return tag
      | none => fail start "found undefined tag handle" t
    | _ => return ""

/-- The scalar with a tag of its own, a text and a style. -/
def scalar (line : Nat) (own text : String) (style : Style) : Node :=
  .scalar line (tagOr own (if style == .plain then impliedTag text else "!!str")) text

mutual

/-- Reads a node.  In a block, `indentless` allows a sequence that is not indented. -/
def node : Nat → Bool → Bool → Read Node
  | 0, _, _ => failTooDeep
  | fuel + 1, block, indentless => do
    let first ← peek
    let start := first.mark
    let line := start.line + 1
    match first.kind with
    | .alias name =>
      skip
      reference line name
    | _ =>
      let (name, tagToken, t) ← properties
      let own ← tagOf start tagToken
      let number ← name.mapM declare
      let n ← content fuel block indentless start line own name.isSome t
      match number with
      | some k => modify fun r => { r with targets := (k, n) :: r.targets }
      | none => pure ()
      return n

/-- Reads what follows the properties of a node. -/
def content : Nat → Bool → Bool → Mark → Nat → String → Bool → Token → Read Node
  | 0, _, _, _, _, _, _, _ => failTooDeep
  | fuel + 1, block, indentless, start, line, own, named, t => do
    let empty : Read Node :=
      if named || own != "" then return scalar line own "" .plain
      else fail start "did not find expected node content" t
    match t.kind with
    | .scalar text style =>
      skip
      return scalar line own text style
    | .blockEntry =>
      if indentless then return .sequence line (tagOr own "!!seq") (← indentlessItems fuel [])
      else empty
    | .flowSequenceStart =>
      skip
      return .sequence line (tagOr own "!!seq") (← flowItems fuel t.mark true [])
    | .flowMappingStart =>
      skip
      return .mapping line (tagOr own "!!map") (← flowEntries fuel t.mark true [])
    | .blockSequenceStart =>
      if block then
        skip
        return .sequence line (tagOr own "!!seq") (← blockItems fuel t.mark [])
      else empty
    | .blockMappingStart =>
      if block then
        skip
        return .mapping line (tagOr own "!!map") (← blockEntries fuel t.mark [])
      else empty
    | _ => empty

/-- Reads the items of a block sequence. -/
def blockItems : Nat → Mark → List Node → Read (List Node)
  | 0, _, _ => failTooDeep
  | fuel + 1, start, items => do
    let t ← peek
    match t.kind with
    | .blockEntry =>
      skip
      let next ← peek
      let item ← match next.kind with
        | .blockEntry | .blockEnd => pure (emptyScalar t.mark)
        | _ => node fuel true false
      blockItems fuel start (item :: items)
    | .blockEnd =>
      skip
      return items.reverse
    | _ => fail start "did not find expected '-' indicator" t

/-- Reads the items of a sequence that is not indented. -/
def indentlessItems : Nat → List Node → Read (List Node)
  | 0, _ => failTooDeep
  | fuel + 1, items => do
    let t ← peek
    match t.kind with
    | .blockEntry =>
      skip
      let next ← peek
      let item ← match next.kind with
        | .blockEntry | .key | .value | .blockEnd => pure (emptyScalar t.mark)
        | _ => node fuel true false
      indentlessItems fuel (item :: items)
    | _ => return items.reverse

/-- Reads the entries of a block mapping. -/
def blockEntries : Nat → Mark → List (Node × Node) → Read (List (Node × Node))
  | 0, _, _ => failTooDeep
  | fuel + 1, start, entries => do
    let t ← peek
    match t.kind with
    | .key =>
      skip
      let next ← peek
      let key ← match next.kind with
        | .key | .value | .blockEnd => pure (emptyScalar t.mark)
        | _ => node fuel true true
      let colon ← peek
      let value ← match colon.kind with
        | .value =>
          skip
          let next ← peek
          match next.kind with
          | .key | .value | .blockEnd => pure (emptyScalar colon.mark)
          | _ => node fuel true true
        | _ => pure (emptyScalar colon.mark)
      blockEntries fuel start ((key, value) :: entries)
    | .blockEnd =>
      skip
      return entries.reverse
    | _ => fail start "did not find expected key" t

/-- Reads the items of a flow sequence.  An item that starts like a key is a mapping with one
entry; if such a key is empty, the token after it is passed over. -/
def flowItems : Nat → Mark → Bool → List Node → Read (List Node)
  | 0, _, _, _ => failTooDeep
  | fuel + 1, start, first, items => do
    let t ← peek
    match t.kind with
    | .flowSequenceEnd =>
      skip
      return items.reverse
    | _ =>
      if !first then
        match t.kind with
        | .flowEntry => skip
        | _ => fail start "did not find expected ',' or ']'" t
      let t ← peek
      match t.kind with
      | .flowSequenceEnd =>
        skip
        return items.reverse
      | .key =>
        skip
        let next ← peek
        let key ← match next.kind with
          | .value | .flowEntry | .flowSequenceEnd =>
            skip
            pure (emptyScalar next.mark)
          | _ => node fuel false false
        let value ← flowValue fuel .flowSequenceEnd
        let _ ← peek
        flowItems fuel start false (.mapping (t.mark.line + 1) "!!map" [(key, value)] :: items)
      | _ =>
        let item ← node fuel false false
        flowItems fuel start false (item :: items)

/-- Reads a value in a flow collection with the given end, if there is one. -/
def flowValue : Nat → TokenKind → Read Node
  | 0, _ => failTooDeep
  | fuel + 1, last => do
    let colon ← peek
    if colon.kind == .value then
      skip
      let next ← peek
      if next.kind == .flowEntry || next.kind == last then return emptyScalar next.mark
      else node fuel false false
    else return emptyScalar colon.mark

/-- Reads the entries of a flow mapping. -/
def flowEntries : Nat → Mark → Bool → List (Node × Node) → Read (List (Node × Node))
  | 0, _, _, _ => failTooDeep
  | fuel + 1, start, first, entries => do
    let t ← peek
    match t.kind with
    | .flowMappingEnd =>
      skip
      return entries.reverse
    | _ =>
      if !first then
        match t.kind with
        | .flowEntry => skip
        | _ => fail start "did not find expected ',' or '\x7d'" t
      let t ← peek
      match t.kind with
      | .flowMappingEnd =>
        skip
        return entries.reverse
      | .key =>
        skip
        let next ← peek
        let key ← match next.kind with
          | .value | .flowEntry | .flowMappingEnd => pure (emptyScalar next.mark)
          | _ => node fuel false false
        let value ← flowValue fuel .flowMappingEnd
        flowEntries fuel start false ((key, value) :: entries)
      | _ =>
        let key ← node fuel false false
        flowEntries fuel start false ((key, emptyScalar (← peek).mark) :: entries)

end

/-- Reads the directives before a document. -/
def directives : Nat → Bool → Read Unit
  | 0, _ => return
  | n + 1, seen => do
    let t ← peek
    match t.kind with
    | .version major minor =>
      if seen then throw ⟨"found duplicate %YAML directive", {}, t.mark, false⟩
      if major != 1 || minor != 1 then
        throw ⟨"found incompatible YAML document", {}, t.mark, false⟩
      skip
      directives n true
    | .handle name expansion =>
      if ((← get).handles.lookup name).isSome then
        throw ⟨"found duplicate %TAG directive", {}, t.mark, false⟩
      modify fun r => { r with handles := r.handles ++ [(name, expansion)] }
      skip
      directives n seen
    | _ => return

/-- Reads the first document.  A text without tokens has none. -/
def document (fuel : Nat) : Read (Option Node) := do
  let _ ← peek
  skip
  let t ← peek
  match t.kind with
  | .streamEnd => return none
  | .version _ _ | .handle _ _ | .documentStart =>
    directives fuel false
    let t ← peek
    match t.kind with
    | .documentStart =>
      skip
      let next ← peek
      let n ← match next.kind with
        | .version _ _ | .handle _ _ | .documentStart | .documentEnd | .streamEnd =>
          pure (emptyScalar next.mark)
        | _ => node fuel true false
      let _ ← peek
      return some n
    | _ => throw ⟨"did not find expected <document start>", {}, t.mark, false⟩
  | _ =>
    let n ← node fuel true false
    let _ ← peek
    return some n

end Reader

/-- The first document of a text, if it has one. -/
def Document.ofText (text : String) : Except Problem (Option Document) :=
  let cursor := Cursor.ofText text
  match (Reader.document (4 * cursor.size + 16)).run { tokens := { cursor } } with
  | .ok (root, r) => .ok (root.map fun root => { root, targets := r.targets })
  | .error e => .error e

end NullPath.Yaml
