import NullPath.Text.Quoted
import NullPath.Text.Shortest
import NullPath.Yaml.Scalar

/-!
# Contents

What a node holds when all of its references have been followed.  The keys of a table are scalars
that all differ.

* `Content`: a scalar, a list or a table.
* `Content.put`: sets an entry of a table.
* `Content.text`: the display of a content; the entries of a table are in the order of their keys.
-/

namespace NullPath.Yaml

/-! ## Scalars -/

namespace Value

/-- The display of a value.  Integers beyond the signed range are hexadecimal. -/
def shown : Value → String
  | .null => "interface \x7b\x7d(nil)"
  | .bool b => if b then "true" else "false"
  | .int n => if n < 0x8000000000000000 then toString n else "0x" ++ Text.hexDigits 0 n.toNat
  | .float x => Decimal.floatText x
  | .date d => d.text
  | .text s => Text.quote s

/-- The place of a kind of values among the kinds. -/
def rank : Value → Nat
  | .null => 0
  | .bool _ => 1
  | .int n => if n < 0x8000000000000000 then 2 else 3
  | .float _ => 4
  | .text _ => 5
  | .date _ => 6

/-- Whether a value comes before or with another in the order of keys: values of one kind are
ordered by size, and what is not a number comes before the numbers. -/
def before : Value → Value → Bool
  | .bool a, .bool b => !a || b
  | .int a, .int b => a ≤ b
  | .float a, .float b => a.isNaN || a ≤ b
  | .text a, .text b => a ≤ b
  | a, b => a.rank ≤ b.rank

end Value

/-! ## Collections -/

/-- What a node holds.  The flag of a table tells whether all its keys are texts. -/
inductive Content
  | scalar (value : Value)
  | list (items : List Content)
  | table (texts : Bool) (entries : List (Value × Content))

namespace Content

/-- The entries of a table with another entry in the place of that with the same key. -/
def put (entries : List (Value × Content)) (key : Value) (c : Content) : List (Value × Content) :=
  entries.filter (fun e => e.1 != key) ++ [(key, c)]

/-- The display of an entry. -/
def entryText (e : Value × String) : String :=
  e.1.shown ++ ":" ++ e.2

/-- The display of a collection with the name of its type. -/
def enclosed (type : String) (parts : List String) : String :=
  type ++ "\x7b" ++ ", ".intercalate parts ++ "\x7d"

/-- The name of the type of a table. -/
def tableType (texts : Bool) : String :=
  if texts then "map[string]interface \x7b\x7d" else "map[interface \x7b\x7d]interface \x7b\x7d"

mutual

/-- The display of a content. -/
def text : Content → String
  | .scalar v => v.shown
  | .list items => enclosed "[]interface \x7b\x7d" (itemTexts items)
  | .table texts entries =>
    let ordered := (entryTexts entries).mergeSort fun a b => a.1.before b.1
    enclosed (tableType texts) (ordered.map entryText)

/-- The displays of the items of a list. -/
def itemTexts : List Content → List String
  | [] => []
  | c :: cs => c.text :: itemTexts cs

/-- The displays of the contents of a table. -/
def entryTexts : List (Value × Content) → List (Value × String)
  | [] => []
  | (k, c) :: es => (k, c.text) :: entryTexts es

end

end Content

end NullPath.Yaml
