import NullPath.Error
import NullPath.Settings.Duration
import NullPath.Text.Quoted

/-!
# Command-line flags

A flag starts with one or two dashes and has its value after an equals sign or in the next
argument.  A switch needs no value.  Two dashes alone, and the first argument that is no flag,
end the flags.

* `Flag.Kind`, `Flag.Value`: the types of flags and their values.
* `Flag.parse`: the flags and the other arguments of a command line.
-/

namespace NullPath.Flag

/-- The type of a flag. -/
inductive Kind
  | switch
  | number
  | text
  | duration
  deriving DecidableEq, Repr

/-- The value of a flag. -/
inductive Value
  | switch (on : Bool)
  | number (value : Int)
  | text (value : String)
  | duration (value : Duration)
  deriving DecidableEq, Repr

/-- Why the flags could not be read. -/
inductive Failure
  | help
  | message (text : String)
  deriving DecidableEq, Repr

/-- The truth values of switches. -/
def truthValue? (s : String) : Option Bool :=
  if s ∈ ["1", "t", "T", "true", "TRUE", "True"] then some true
  else if s ∈ ["0", "f", "F", "false", "FALSE", "False"] then some false
  else none

/-- The value that a text gives a flag, or what is wrong with the text. -/
def Kind.read (k : Kind) (s : String) : Except String Value :=
  match k with
  | .text => .ok (.text s)
  | .switch =>
    match truthValue? s with
    | some b => .ok (.switch b)
    | none => .error "parse error"
  | .number =>
    match Text.based? s.toList with
    | .ok n => .ok (.number n)
    | .error .malformed => .error "parse error"
    | .error .outOfRange => .error "value out of range"
  | .duration =>
    match Duration.parse? s with
    | some d => .ok (.duration d)
    | none => .error "parse error"

/-- Splits an argument into the name of a flag and a value; an equals sign in front belongs to
the name. -/
def splitValue (cs : List Char) : String × Option String :=
  match cs with
  | [] => ("", none)
  | c :: rest =>
    let name := String.ofList (c :: rest.takeWhile (· != '='))
    match rest.dropWhile (· != '=') with
    | [] => (name, none)
    | _ :: value => (name, some (String.ofList value))

/-- The text of an argument after its dashes, if it is a flag. -/
def afterDashes? (s : String) : Option (List Char) :=
  match s.toList with
  | '-' :: '-' :: cs => some cs
  | '-' :: c :: cs => some (c :: cs)
  | _ => none

/-- What an argument is: a flag with its value, a flag whose value is in the next argument, the end
of the flags, or an argument that is no flag. -/
inductive Form
  | complete (name : String) (value : Value)
  | pending (name : String) (kind : Kind)
  | terminator
  | argument

/-- The value that a text gives a flag, or the report of what is wrong with it. -/
def readValue (k : Kind) (name text : String) : Except Failure Value :=
  match k.read text with
  | .ok v => .ok v
  | .error e =>
    .error (.message (if k = .switch
      then s!"invalid boolean value {Text.quote text} for -{name}: {e}"
      else s!"invalid value {Text.quote text} for flag -{name}: {e}"))

/-- What an argument is. -/
def form (kinds : String → Option Kind) (arg : String) : Except Failure Form :=
  match afterDashes? arg with
  | none => .ok .argument
  | some [] => .ok .terminator
  | some (c :: cs) =>
    if c = '-' || c = '=' then .error (.message s!"bad flag syntax: {arg}")
    else
      let (name, text) := splitValue (c :: cs)
      match kinds name, text with
      | none, _ =>
        if name = "help" || name = "h" then .error .help
        else .error (.message s!"flag provided but not defined: -{name}")
      | some .switch, none => .ok (.complete name (.switch true))
      | some k, none => .ok (.pending name k)
      | some k, some text => do return .complete name (← readValue k name text)

/-- The flags of a command line in their order, and the other arguments. -/
def parse (kinds : String → Option Kind) :
    List String → Except Failure (List (String × Value) × List String)
  | [] => .ok ([], [])
  | arg :: rest => do
    match ← form kinds arg with
    | .argument => return ([], arg :: rest)
    | .terminator => return ([], rest)
    | .complete name value =>
      let (flags, others) ← parse kinds rest
      return ((name, value) :: flags, others)
    | .pending name k =>
      match rest with
      | [] => throw (.message s!"flag needs an argument: -{name}")
      | text :: rest =>
        let value ← readValue k name text
        let (flags, others) ← parse kinds rest
        return ((name, value) :: flags, others)

end NullPath.Flag
