import NullPath.Settings.Basic
import NullPath.Yaml.Scalar

/-!
# The settings of a file

Every setting has a key and a type, and a scalar gives a value of a type or none.

* `Settings.Kind`, `Settings.kind?`: the types of settings, and the keys that have them.
* `Settings.Choice`, `Settings.set`: a value for a setting.
* `Settings.choice?`: the value of a type that a scalar gives.
-/

namespace NullPath.Settings

open Yaml (Value)

/-- The types of settings, as they are called in messages. -/
inductive Kind
  | text
  | flag
  | number
  | seed
  | duration

/-- The name of a type. -/
def Kind.name : Kind → String
  | .text => "string"
  | .flag => "bool"
  | .number => "int"
  | .seed => "int64"
  | .duration => "time.Duration"

/-- A value for a setting. -/
inductive Choice
  | text (value : String)
  | flag (value : Bool)
  | number (value : Int)
  | duration (value : Duration)

/-- The type of the setting with a key. -/
def kind? : String → Option Kind
  | "dir" | "search" | "solver" | "solverPath" | "format" => some .text
  | "tests" | "unsafeOnly" | "inline" => some .flag
  | "unroll" | "maxCallDepth" | "concurrency" => some .number
  | "seed" => some .seed
  | "timeout" => some .duration
  | _ => none

/-- The settings with another value for a key. -/
def set (s : Settings) (key : String) (c : Choice) : Settings :=
  match key, c with
  | "dir", .text v => { s with dir := v }
  | "search", .text v => { s with search := v }
  | "solver", .text v => { s with solver := v }
  | "solverPath", .text v => { s with solverPath := v }
  | "format", .text v => { s with format := v }
  | "tests", .flag v => { s with tests := v }
  | "unsafeOnly", .flag v => { s with unsafeOnly := v }
  | "inline", .flag v => { s with inline := v }
  | "unroll", .number v => { s with unroll := v }
  | "maxCallDepth", .number v => { s with maxCallDepth := v }
  | "concurrency", .number v => { s with concurrency := v }
  | "seed", .number v => { s with seed := v }
  | "timeout", .duration v => { s with timeout := v }
  | _, _ => s

/-- The truth values that are written as words; only a setting that is a truth value takes
them. -/
def flagWord? : String → Option Bool
  | "y" | "Y" | "yes" | "Yes" | "YES" | "on" | "On" | "ON" => some true
  | "n" | "N" | "no" | "No" | "NO" | "off" | "Off" | "OFF" => some false
  | _ => none

/-- The integer part of a fraction, if the fraction does not exceed the largest number with 64
bits.  What does not fit below becomes the least number. -/
def truncate? (x : Float) : Option Int :=
  let bound := Float.ofNat 0x8000000000000000
  if x ≤ bound then
    if x < bound && -bound ≤ x then some x.toInt64.toInt else some (-0x8000000000000000)
  else none

/-- The value of a type that a scalar gives. -/
def choice? (k : Kind) (text : String) (v : Value) : Option Choice :=
  match k, v with
  | .text, .text value => some (.text value)
  | .text, _ => some (.text text)
  | .flag, .bool b => some (.flag b)
  | .flag, .text s => (flagWord? s).map .flag
  | .number, .int n | .seed, .int n => if n < 0x8000000000000000 then some (.number n) else none
  | .number, .float x | .seed, .float x => (truncate? x).map .number
  | .duration, .text s => (Duration.parse? s).map .duration
  | _, _ => none

end NullPath.Settings
