import NullPath.Text.Quoted

/-!
# JSON texts

* `JsonValue`: JSON values; the fields of an object keep their order.
* `JsonValue.compact`: the text without blanks.
* `JsonValue.indented`: the text with one field or item a line.

The characters that mean something in HTML are escaped in strings, and so are the two line
separators that some readers of JSON do not accept.
-/

namespace NullPath

/-- A JSON value. -/
inductive JsonValue
  | null
  | number (value : Int)
  | string (value : String)
  | array (items : List JsonValue)
  | object (fields : List (String × JsonValue))

namespace JsonValue

/-- A character inside a string. -/
def escapeChar (c : Char) : String :=
  if c = '"' then "\\\""
  else if c = '\\' then "\\\\"
  else if c = '\n' then "\\n"
  else if c = '\r' then "\\r"
  else if c = '\t' then "\\t"
  else if c = '\x08' then "\\b"
  else if c = '\x0c' then "\\f"
  else if c.toNat < 0x20 || c = '<' || c = '>' || c = '&' || c.toNat = 0x2028 ||
      c.toNat = 0x2029 then "\\u" ++ Text.hexDigits 4 c.toNat
  else c.toString

/-- A string with its quotes. -/
def quoted (s : String) : String :=
  "\"" ++ String.join (s.toList.map escapeChar) ++ "\""

mutual

/-- The text without blanks. -/
def compact : JsonValue → String
  | .null => "null"
  | .number n => toString n
  | .string s => quoted s
  | .array items => "[" ++ compactItems items ++ "]"
  | .object fields => "\x7b" ++ compactFields fields ++ "\x7d"

/-- Items, separated by commas. -/
def compactItems : List JsonValue → String
  | [] => ""
  | [v] => compact v
  | v :: rest => compact v ++ "," ++ compactItems rest

/-- Fields, separated by commas. -/
def compactFields : List (String × JsonValue) → String
  | [] => ""
  | [(k, v)] => quoted k ++ ":" ++ compact v
  | (k, v) :: rest => quoted k ++ ":" ++ compact v ++ "," ++ compactFields rest

end

/-- The start of a line at a depth. -/
def newLine (depth : Nat) : String :=
  "\n" ++ "".pushn ' ' (2 * depth)

mutual

/-- The text with one item or field a line, at a depth. -/
def indentedAt (depth : Nat) : JsonValue → String
  | .null => "null"
  | .number n => toString n
  | .string s => quoted s
  | .array [] => "[]"
  | .array items => "[" ++ indentedItems (depth + 1) items ++ newLine depth ++ "]"
  | .object [] => "\x7b\x7d"
  | .object fields => "\x7b" ++ indentedFields (depth + 1) fields ++ newLine depth ++ "\x7d"

/-- Items, each on a line of its own. -/
def indentedItems (depth : Nat) : List JsonValue → String
  | [] => ""
  | [v] => newLine depth ++ indentedAt depth v
  | v :: rest => newLine depth ++ indentedAt depth v ++ "," ++ indentedItems depth rest

/-- Fields, each on a line of its own. -/
def indentedFields (depth : Nat) : List (String × JsonValue) → String
  | [] => ""
  | [(k, v)] => newLine depth ++ quoted k ++ ": " ++ indentedAt depth v
  | (k, v) :: rest =>
    newLine depth ++ quoted k ++ ": " ++ indentedAt depth v ++ "," ++ indentedFields depth rest

end

/-- The text with one item or field a line. -/
def indented (v : JsonValue) : String :=
  v.indentedAt 0

end JsonValue

end NullPath
