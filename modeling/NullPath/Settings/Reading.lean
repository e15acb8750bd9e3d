import NullPath.Error
import NullPath.Settings.Field
import NullPath.Yaml.Node

/-!
# Reading documents

A document is read step by step, one step for each node that is looked at.  What does not fit is
reported, and reading goes on.  References are followed, but a document must not consist almost
only of what references repeat, and a reference must not lead back to itself.

* `Settings.mismatch`, `Settings.duplicates`: the wording of reports.
* `Settings.Reading`, `Settings.Decode`: what has been read, and the computations that read.
* `Settings.follow`: looks at a node or at the node that it refers to.
* `Settings.readKey`: the text of a key.
-/

namespace NullPath.Settings

open Yaml (Value)

/-! ## Reports -/

/-- The beginning of a long value.  The cut is made between bytes. -/
def shorten (s : String) : String :=
  let bytes := s.toUTF8.toList.map UInt8.toNat
  if bytes.length > 10 then String.ofList (Text.decode (bytes.take 7)) ++ "..." else s

/-- The report of a node that does not give a value of a type. -/
def mismatch (n : Yaml.Node) (typeName : String) : String :=
  let shown := if n.tag == "!!seq" || n.tag == "!!map" then n.text else s!" `{shorten n.text}`"
  s!"line {n.line}: cannot unmarshal {n.tag}{shown} into {typeName}"

/-- The reports of keys that are given twice. -/
def duplicates : List (Yaml.Node × Yaml.Node) → List String
  | [] => []
  | (a, _) :: rest =>
    (rest.filterMap fun (b, _) =>
      if a.kind == b.kind && a.text == b.text then
        some (s!"line {b.line}: mapping key {Text.quote b.text} already " ++
          s!"defined at line {a.line}")
      else none) ++ duplicates rest

/-- The name of the settings in messages. -/
def typeName : String :=
  "main.Config"

/-! ## Steps -/

/-- What has been read: the settings, and the reports of what did not fit.  Every node that is
looked at is a step; `borrowed` counts the steps inside references, and `following` are the
references that are being followed.  While mappings are merged, `merged` are the keys that count
already. -/
structure Reading where
  settings : Settings
  reports : List String := []
  steps : Nat := 0
  borrowed : Nat := 0
  following : List Nat := []
  merged : Option (List Value) := none

/-- A computation that reads a document and may fail. -/
abbrev Decode := StateT Reading (Except Failure)

/-- Gives up with a message. -/
def giveUp {α : Type} (message : String) : Decode α :=
  throw (.error (.ofText ("yaml: " ++ message)))

/-- Adds reports. -/
def report (messages : List String) : Decode Unit :=
  modify fun r => { r with reports := r.reports ++ messages }

/-- The part of the steps that may be inside references.  It falls from 99 to 10 percent as
documents grow. -/
def borrowedShare (steps : Nat) : Float :=
  if steps ≤ 400000 then 0.99
  else if 4000000 ≤ steps then 0.10
  else 0.99 - 0.89 * (Float.ofNat (steps - 400000) / 3600000.0)

/-- Whether a few references have grown into a large document. -/
def Reading.overgrown (r : Reading) : Bool :=
  100 < r.borrowed && 1000 < r.steps &&
    Float.ofNat r.borrowed / Float.ofNat r.steps > borrowedShare r.steps

/-- Counts a step. -/
def step : Decode Unit := do
  modify fun r => { r with
    steps := r.steps + 1
    borrowed := if r.following.isEmpty then r.borrowed else r.borrowed + 1 }
  if (← get).overgrown then giveUp "document contains excessive aliasing"

/-- Looks at a node.  A reference is followed, unless it is being followed already. -/
def follow {α : Type} (d : Yaml.Document) (n : Yaml.Node) (body : Yaml.Node → Decode α) :
    Decode α := do
  step
  match n with
  | .alias _ name number target =>
    let outer := (← get).following
    if outer.contains number then giveUp s!"anchor '{name}' value contains itself"
    modify fun r => { r with following := number :: outer }
    step
    let a ← body (d.target target)
    modify fun r => { r with following := outer }
    return a
  | n => body n

/-- The value of a scalar. -/
def valueOf (tag text : String) : Decode Value :=
  match Yaml.scalarValue tag text with
  | .ok v => return v
  | .error message => giveUp message

/-- Reports a collection where a scalar of a type is asked for. -/
def reportCollection (n : Yaml.Node) (typeName : String) : Decode Unit :=
  match n with
  | .mapping _ _ entries =>
    match duplicates entries with
    | [] => report [mismatch n typeName]
    | reports => report reports
  | n => report [mismatch n typeName]

/-- The text of a key.  A key that is nothing is passed over, and one that is a collection is
reported. -/
def readKey (d : Yaml.Document) (n : Yaml.Node) : Decode (Option String) :=
  follow d n fun n => do
    match n with
    | .scalar _ tag s =>
      match ← valueOf tag s with
      | .null => return none
      | .text key => return some key
      | _ => return some s
    | n =>
      reportCollection n Kind.text.name
      return none

end NullPath.Settings
