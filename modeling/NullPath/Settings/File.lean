import NullPath.Settings.Merge

/-!
# Settings files

A settings file is a YAML mapping.  Keys that are not known are ignored, and values that do not
fit are all reported together.

* `Settings.readEntries`, `Settings.readMapping`: the entries of a mapping, and of those that it
  asks for.
* `Settings.read`: the settings with the changes that a file makes.
-/

namespace NullPath.Settings

/-- Reads the value of a setting.  A value that is nothing leaves the setting as it is. -/
def readValue (d : Yaml.Document) (key : String) (k : Kind) (n : Yaml.Node) : Decode Unit :=
  follow d n fun n => do
    match n with
    | .scalar _ tag s =>
      match ← valueOf tag s with
      | .null => return
      | v =>
        match choice? k s v with
        | some c => modify fun r => { r with settings := r.settings.set key c }
        | none => report [mismatch n k.name]
    | n => reportCollection n k.name

/-- Reads the entries of a mapping.  `done` are the settings that the mapping has given so far.
In a mapping that is merged into others, `merged` are the keys that count already. -/
def readEntries (d : Yaml.Document) : List (Yaml.Node × Yaml.Node) → List String →
    Option (List Yaml.Value) → Decode (Option (List Yaml.Value))
  | [], _, merged => return merged
  | (k, v) :: rest, done, merged => do
    if isMerge k then readEntries d rest done merged
    else
      match ← readKey d k with
      | none => readEntries d rest done merged
      | some key =>
        if counts merged (.text key) then readEntries d rest done merged
        else
          let merged := merged.map (.text key :: ·)
          match kind? key with
          | none => readEntries d rest done merged
          | some kind =>
            if done.contains key then
              report [s!"line {k.line}: field {key} already set in type {typeName}"]
              readEntries d rest done merged
            else
              readValue d key kind v
              readEntries d rest (key :: done) merged

/-- Reads a mapping, and then what it merges into itself.  Keys that are given twice are reported,
and then nothing of the mapping is read.  Merges may be nested to the given depth. -/
def readMapping (d : Yaml.Document) : Nat → List (Yaml.Node × Yaml.Node) → Decode Unit
  | 0, _ => return
  | depth + 1, entries =>
    match duplicates entries with
    | [] => do
      setMerged (← readEntries d entries [] (← takeMerged))
      mergeInto d (survey d depth) (fun () nested => readMapping d depth nested) entries ()
    | reports => report reports

/-- Reads a document.  The depth of its merges is bounded. -/
def readDocument (depth : Nat) (d : Yaml.Document) : Decode Unit := do
  step
  follow d d.root fun n => do
    match n with
    | .mapping _ _ entries => readMapping d depth entries
    | .scalar _ tag s =>
      match ← valueOf tag s with
      | .null => return
      | _ => report [mismatch n typeName]
    | n => report [mismatch n typeName]

/-- The settings with the changes that a text makes.  Merges are nested inside each other and
inside references, and no reference is followed twice at a time. -/
def readText (s : Settings) (text : String) : Except Failure Settings :=
  match Yaml.Document.ofText text with
  | .error p => .error (.error (.ofText p.text))
  | .ok none => .ok s
  | .ok (some d) =>
    let size := text.length + 1
    match (readDocument (size * size) d).run { settings := s } with
    | .error f => .error f
    | .ok ((), r) =>
      if r.reports.isEmpty then .ok r.settings
      else
        .error (.error (.ofText ("yaml: unmarshal errors:\n  " ++ "\n  ".intercalate r.reports)))

/-- The settings with the changes that a file makes; a file that does not exist has no text. -/
def read (s : Settings) (name : String) (text : Option String) : Except Failure Settings :=
  match text with
  | none => .error (.error (.ofText s!"open {name}: no such file or directory"))
  | some text => (s.readText text).mapError (Failure.within s!"parse config {name}")

end NullPath.Settings
