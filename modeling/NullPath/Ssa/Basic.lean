import NullPath.Cfg.Basic
import NullPath.Text.Decimal

/-!
# Functions in single-assignment form

A Go function comes in single-assignment form: every value is computed by one instruction and
kept in a register of its own.  A block starts with its phi nodes, each of which takes one value
per predecessor.

* `GoType`: types, with their names and underlying types.
* `Ssa.Value`, `Ssa.Instr`, `Ssa.Block`, `Ssa.Function`: code.
* `Ssa.Function.registers`: the registers of a function in the order of their definitions.
* `Ssa.Function.valueText`: the display of a value.
* `Ssa.Function.isCandidate`: whether a function is worth analysing.
-/

namespace NullPath

/-- A Go type. -/
inductive GoType
  | basic (name : String)
  | pointer (elem : GoType)
  | slice (elem : GoType)
  | named (package name : String) (definition : GoType)
  | tuple (items : List GoType)
  deriving Repr, Inhabited

namespace GoType

mutual

/-- The name of a type. -/
def text : GoType → String
  | .basic name => name
  | .pointer elem => "*" ++ text elem
  | .slice elem => "[]" ++ text elem
  | .named package name _ => if package = "" then name else package ++ "." ++ name
  | .tuple items => "(" ++ textItems items ++ ")"

/-- The names of types, separated by commas. -/
def textItems : List GoType → String
  | [] => ""
  | [t] => text t
  | t :: ts => text t ++ ", " ++ textItems ts

end

/-- The type that a named type stands for. -/
def underlying : GoType → GoType
  | .named _ _ t => underlying t
  | t => t

/-- The names of the integer types. -/
def integerNames : List String :=
  ["int", "int8", "int16", "int32", "int64", "uint", "uint8", "uint16", "uint32", "uint64",
    "uintptr", "byte", "rune", "untyped int", "untyped rune"]

/-- The names of the other numeric types. -/
def fractionNames : List String :=
  ["float32", "float64", "complex64", "complex128", "untyped float", "untyped complex"]

/-- The names of the boolean types. -/
def booleanNames : List String :=
  ["bool", "untyped bool"]

/-- The names of the string types. -/
def stringNames : List String :=
  ["string", "untyped string"]

/-- Whether the type is the type of pointers to anything. -/
def isUnsafePointer (t : GoType) : Bool :=
  match t.underlying with
  | .basic name => name == "unsafe.Pointer"
  | _ => false

/-- The analysed form of a type that goes by the given name. -/
def lowerAs (name : String) : GoType → Ty
  | .named _ _ t => lowerAs name t
  | .basic b =>
    if b ∈ booleanNames then .bool name
    else if b ∈ integerNames then .int name
    else if b = "unsafe.Pointer" then .pointer name (.other "byte")
    else .other name
  | .pointer elem => .pointer name (lowerAs elem.text elem)
  | .slice _ => .other name
  | .tuple _ => .other name

/-- The analysed form of a type. -/
def lower (t : GoType) : Ty :=
  t.lowerAs t.text

mutual

/-- The zero value of a type as text. -/
def zeroText : GoType → String
  | .basic b =>
    if b ∈ booleanNames then "false"
    else if b ∈ integerNames || b ∈ fractionNames then "0"
    else if b ∈ stringNames then "\"\""
    else "nil"
  | .named _ _ t => zeroText t
  | .pointer _ => "nil"
  | .slice _ => "nil"
  | .tuple items => "(" ++ zeroTextItems items ++ ")"

/-- The zero values of types, separated by commas. -/
def zeroTextItems : List GoType → String
  | [] => ""
  | [t] => zeroText t
  | t :: ts => zeroText t ++ ", " ++ zeroTextItems ts

end

end GoType

namespace Ssa

/-- The value of a constant; `zero` is the zero value of the constant's type. -/
inductive Literal
  | int (value : Int)
  | bool (value : Bool)
  | float (literal : String)
  | zero
  deriving DecidableEq, Repr

/-- The value of a constant as text. -/
def Literal.text (type : GoType) : Literal → String
  | .int v => toString v
  | .bool b => if b then "true" else "false"
  | .float s => (Decimal.ofLiteral s.toList).text
  | .zero => type.zeroText

/-- What an instruction computes with. -/
inductive Value
  | register (number : Nat)
  | parameter (index : Nat)
  | global (name : String) (type : GoType)
  | const (value : Literal) (type : GoType)
  deriving Repr

/-- The register that holds the result of an instruction. -/
structure Register where
  number : Nat
  type : GoType
  span : Span := {}
  deriving Repr

/-- The name of a register. -/
def Register.name (r : Register) : String :=
  s!"t{r.number}"

/-- What a call refers to. -/
inductive Callee
  /-- A function that is known by its name. -/
  | static (name : String)
  /-- A method, found by the dynamic type of a receiver. -/
  | method (receiver : Value) (name : String)
  /-- A function of the language itself. -/
  | builtin (name : String)
  deriving Repr

/-- An instruction.  Branches go to the successors of their block. -/
inductive Instr
  | debug
  | runDefers
  | phi (result : Register) (edges : List Value)
  | alloc (result : Register) (comment : String)
  | binary (result : Register) (op : String) (x y : Value)
  | unary (result : Register) (op : String) (x : Value) (commaOk : Bool)
  | convert (result : Register) (x : Value)
  | changeType (result : Register) (x : Value)
  | slice (result : Register) (x : Value)
  | call (result : Register) (callee : Callee) (args : List Value)
  | store (address value : Value) (span : Span)
  | send (channel value : Value) (span : Span)
  | branch (condition : Value)
  | jump
  | return (results : List Value) (span : Span)
  | panic (span : Span)
  deriving Repr

namespace Instr

/-- The register that an instruction defines. -/
def result? : Instr → Option Register
  | .phi r _ | .alloc r _ | .binary r _ _ _ | .unary r _ _ _ | .convert r _ | .changeType r _
  | .slice r _ | .call r _ _ => some r
  | _ => none

/-- The position of an instruction. -/
def span (i : Instr) : Span :=
  match i with
  | .store _ _ s | .send _ _ s | .return _ s | .panic s => s
  | i =>
    match i.result? with
    | some r => r.span
    | none => {}

end Instr

/-- Instructions in a row, and the blocks before and after them. -/
structure Block where
  instrs : List Instr
  preds : List Nat
  succs : List Nat
  deriving Repr

/-- The registers and values of the phi nodes at the start of a list of instructions. -/
def phisOf : List Instr → List (Register × List Value)
  | .phi r edges :: rest => (r, edges) :: phisOf rest
  | .debug :: rest => phisOf rest
  | _ => []

/-- The phi nodes at the start of a block. -/
def Block.phis (b : Block) : List (Register × List Value) :=
  phisOf b.instrs

/-- A parameter. -/
structure Parameter where
  name : String
  type : GoType
  deriving Repr

/-- A function.  A closure has free variables. -/
structure Function where
  name : String
  span : Span := {}
  freeVars : Nat := 0
  results : List GoType
  params : List Parameter
  blocks : List Block
  deriving Repr

namespace Function

/-- The registers of a function in the order of their definitions. -/
def registers (f : Function) : List Register :=
  f.blocks.flatMap fun b => b.instrs.filterMap Instr.result?

/-- The type of a value; an unknown register or parameter has none. -/
def valueType? (f : Function) : Value → Option GoType
  | .register n => (f.registers.find? fun r => r.number == n).map Register.type
  | .parameter i => f.params[i]?.map Parameter.type
  | .global _ t => some t
  | .const _ t => some t

/-- The display of a value: a name, or a constant with its type. -/
def valueText (f : Function) : Value → String
  | .register n => s!"t{n}"
  | .parameter i => (f.params[i]?.map Parameter.name).getD ""
  | .global name _ => name
  | .const c t => s!"{c.text t}:{t.text}"

/-- The display of a call. -/
def callText (f : Function) (callee : Callee) (args : List Value) : String :=
  let target := match callee with
    | .static name => name
    | .builtin name => name
    | .method receiver name => s!"invoke {f.valueText receiver}.{name}"
  target ++ "(" ++ ", ".intercalate (args.map f.valueText) ++ ")"

/-- Whether an instruction goes through a pointer. -/
def dereferences : Instr → Bool
  | .unary _ op _ _ => op == "*"
  | .store _ _ _ => true
  | _ => false

/-- Whether an instruction converts to or from the type of pointers to anything. -/
def convertsUnsafe (f : Function) : Instr → Bool
  | .convert r x =>
    r.type.isUnsafePointer || ((f.valueType? x).map GoType.isUnsafePointer).getD false
  | _ => false

/-- Whether a function goes through a pointer, and, on demand, also converts to or from the type
of pointers to anything. -/
def isCandidate (f : Function) (unsafeOnly : Bool) : Bool :=
  let instrs := f.blocks.flatMap Block.instrs
  instrs.any dereferences && (!unsafeOnly || instrs.any f.convertsUnsafe)

end Function

end Ssa

end NullPath
