import NullPath.Settings.Reading
import NullPath.Yaml.Content

/-!
# Merges

A mapping may ask for the entries of other mappings, which count where it has no entry of its own
with the same key.  To tell, all of its keys are read as they are; a key that is a collection
cannot be compared with others.

* `Settings.isMerge`, `Settings.mergeSource?`: where a mapping asks for a merge.
* `Settings.mergeInto`: goes through the mappings that are asked for.
* `Settings.survey`: reads a node as it is, whatever it holds.
-/

namespace NullPath.Settings

open Yaml (Value Content)

/-- Whether a key asks for the entries of another mapping. -/
def isMerge : Yaml.Node → Bool
  | .scalar _ tag s => s == "<<" && tag == "!!merge"
  | _ => false

/-- The node whose entries a mapping asks for. -/
def mergeSource? (entries : List (Yaml.Node × Yaml.Node)) : Option Yaml.Node :=
  (entries.reverse.find? fun (k, _) => isMerge k).map (·.2)

/-! ## Keys that count already -/

/-- Whether a key counts already. -/
def counts (merged : Option (List Value)) (key : Value) : Bool :=
  (merged.getD []).contains key

/-- Sets the keys that count already. -/
def setMerged (merged : Option (List Value)) : Decode Unit :=
  modify fun r => { r with merged }

/-- The keys that count already.  They are set aside until the entries of a mapping have been
read. -/
def takeMerged : Decode (Option (List Value)) := do
  let merged := (← get).merged
  setMerged none
  return merged

/-- The fault of a comparison with a collection. -/
def failIncomparable {α : Type} : Decode α :=
  throw (.fault .missingData)

/-- Notes the keys of a mapping. -/
def noteKeys (survey : Yaml.Node → Decode (Option Content)) : List Yaml.Node → Decode Unit
  | [] => return
  | k :: ks => do
    match ← survey k with
    | none => pure ()
    | some (.scalar key) => modify fun r => { r with merged := r.merged.map (key :: ·) }
    | some _ => failIncomparable
    noteKeys survey ks

/-! ## The mappings that are asked for -/

/-- The failure of a merge with something that is no mapping. -/
def failNoMapping {α : Type} : Decode α :=
  giveUp "map merge requires map or sequence of maps as the value"

/-- Merges a node, which has to be a mapping or a sequence of mappings. -/
def mergeFrom {α : Type} (d : Yaml.Document)
    (body : α → List (Yaml.Node × Yaml.Node) → Decode α) (source : Yaml.Node) (start : α) :
    Decode α :=
  let one (a : α) (n : Yaml.Node) : Decode α := do
    if !(d.resolved n).isMapping then failNoMapping
    follow d n fun n =>
      match n with
      | .mapping _ _ entries => body a entries
      | _ => return a
  match source with
  | .sequence _ _ items => items.foldlM one start
  | n => one start n

/-- Merges what a mapping asks for.  Its own keys count first, unless it is itself merged into
another mapping. -/
def mergeInto {α : Type} (d : Yaml.Document) (survey : Yaml.Node → Decode (Option Content))
    (body : α → List (Yaml.Node × Yaml.Node) → Decode α)
    (entries : List (Yaml.Node × Yaml.Node)) (start : α) : Decode α := do
  match mergeSource? entries with
  | none => return start
  | some source =>
    if (← get).merged.isSome then mergeFrom d body source start
    else
      setMerged (some [])
      noteKeys survey (entries.map (·.1))
      let a ← mergeFrom d body source start
      setMerged none
      return a

/-! ## Nodes as they are -/

/-- Whether all keys of a mapping are texts. -/
def hasTextKeys (d : Yaml.Document) (entries : List (Yaml.Node × Yaml.Node)) : Bool :=
  entries.all fun (k, _) =>
    let tag := (d.resolved k).tag
    tag == "!!str" || tag == "!!merge"

/-- Reads the entries of a mapping into a table.  A collection cannot be a key. -/
def surveyEntries (d : Yaml.Document) (texts : Bool)
    (survey : Yaml.Node → Decode (Option Content)) :
    List (Yaml.Node × Yaml.Node) → List (Value × Content) → Option (List Value) →
      Decode (List (Value × Content))
  | [], table, merged => do
    setMerged merged
    return table
  | (k, v) :: rest, table, merged => do
    if isMerge k then surveyEntries d texts survey rest table merged
    else
      let key ←
        if texts then pure ((← readKey d k).map fun s => .scalar (.text s)) else survey k
      match key with
      | none => surveyEntries d texts survey rest table merged
      | some (.scalar key) =>
        if counts merged key then surveyEntries d texts survey rest table merged
        else
          let table ← match ← survey v with
            | some c => pure (Content.put table key c)
            | none => pure table
          surveyEntries d texts survey rest table (merged.map (key :: ·))
      | some c =>
        if merged.isSome then failIncomparable else giveUp ("invalid map key: " ++ c.text)

mutual

/-- Reads a node as it is.  A mapping with a key twice is reported and holds nothing. -/
def survey (d : Yaml.Document) : Nat → Yaml.Node → Decode (Option Content)
  | 0, _ => return none
  | fuel + 1, n =>
    follow d n fun n => do
      match n with
      | .scalar _ tag s => return some (.scalar (← valueOf tag s))
      | .sequence _ _ items =>
        let contents ← items.mapM (survey d fuel)
        return some (.list (contents.filterMap id))
      | .mapping _ _ entries =>
        match duplicates entries with
        | [] =>
          let texts := hasTextKeys d entries
          return some (.table texts (← surveyTable d texts fuel [] entries))
        | reports =>
          report reports
          return none
      | .alias _ _ _ _ => return none

/-- Reads a mapping, and then what it merges into itself, into a table. -/
def surveyTable (d : Yaml.Document) (texts : Bool) :
    Nat → List (Value × Content) → List (Yaml.Node × Yaml.Node) →
      Decode (List (Value × Content))
  | 0, table, _ => return table
  | fuel + 1, table, entries => do
    let table ← surveyEntries d texts (survey d fuel) entries table (← takeMerged)
    let nested (table : List (Value × Content)) (entries : List (Yaml.Node × Yaml.Node)) :=
      match duplicates entries with
      | [] => surveyTable d texts fuel table entries
      | reports => do
        report reports
        return table
    mergeInto d (survey d fuel) nested entries table

end

end NullPath.Settings
