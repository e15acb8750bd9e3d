/-!
# Programs as control-flow graphs

A program is a list of functions.  A function has typed locals and basic blocks; local 0 holds
the result, the next locals are the parameters, and execution starts at block 0.  A block is a
list of statements and one terminator.

The data may be malformed: indices may lie outside their tables, types may not fit, and a
statement, terminator, operand or right-hand side may be missing altogether.  Nothing in this
module rejects such data.  Execution reports it.

* `Span`, `Ty`, `Place`: positions, static types and storage locations.
* `Operand`, `Rvalue`, `Statement`, `Terminator`, `Block`: code.
* `Function`, `Program`: code with names.
-/

namespace NullPath

/-- A source position.  Line 0 stands for an unknown position. -/
structure Span where
  file : String := ""
  line : Int := 0
  column : Int := 0
  deriving DecidableEq, Repr, Inhabited

namespace Span

/-- Whether the position is known. -/
def isValid (s : Span) : Bool :=
  0 < s.line

/-- The position as `file:line:column`, as far as it is known. -/
def text (s : Span) : String :=
  if !s.isValid then (if s.file = "" then "-" else s.file)
  else if s.column = 0 then s!"{s.file}:{s.line}"
  else s!"{s.file}:{s.line}:{s.column}"

end Span

/-- A static type.  Only booleans, integers and pointers have values that can be reasoned about;
every other type is known by its name alone. -/
inductive Ty
  | untyped
  | other (name : String)
  | bool (name : String)
  | int (name : String)
  | pointer (name : String) (elem : Ty)
  deriving DecidableEq, Repr, Inhabited

namespace Ty

/-- The integers. -/
def integer : Ty :=
  .int "int"

/-- The truth values. -/
def boolean : Ty :=
  .bool "bool"

/-- The pointers to values of a type. -/
def pointerTo (elem : Ty) : Ty :=
  .pointer "" elem

/-- The display name of a type. -/
def text : Ty → String
  | .untyped => "<nil>"
  | .other n | .bool n | .int n => if n = "" then "?" else n
  | .pointer n elem => if n = "" then "*" ++ text elem else n

/-- Whether the type is a pointer type. -/
def isPointer : Ty → Bool
  | .pointer _ _ => true
  | _ => false

/-- The type behind a pointer, unless it is unknown. -/
def elem? : Ty → Option Ty
  | .pointer _ .untyped => none
  | .pointer _ elem => some elem
  | _ => none

end Ty

/-- A storage location: a local variable, dereferenced some number of times. -/
structure Place where
  base : Int
  derefs : Nat := 0
  deriving DecidableEq, Repr, Inhabited

namespace Place

/-- The location that the value of a location points to. -/
def deref (p : Place) : Place :=
  ⟨p.base, p.derefs + 1⟩

/-- Whether the location is a local variable itself. -/
def isLocal (p : Place) : Bool :=
  p.derefs == 0

/-- The location whose value is dereferenced last. -/
def pointer? (p : Place) : Option Place :=
  match p.derefs with
  | 0 => none
  | k + 1 => some ⟨p.base, k⟩

/-- The location with one pair of parentheses for each dereference. -/
def text (p : Place) : String :=
  String.join (List.replicate p.derefs "(*") ++ s!"_{p.base}" ++ "".pushn ')' p.derefs

end Place

/-- A value that an instruction consumes. -/
inductive Operand
  | copy (place : Place)
  | move (place : Place)
  | const (value : Int) (type : Ty)
  | missing
  deriving DecidableEq, Repr

/-- The binary operators of source code. -/
inductive SourceBinOp
  | add | sub | mul | div | rem
  | eq | ne | lt | le | gt | ge
  | bitAnd | bitOr | bitXor | shl | shr | offset
  | other (code : Int)
  deriving DecidableEq, Repr

namespace SourceBinOp

/-- The operators in the order of their numbers. -/
def all : List SourceBinOp :=
  [.add, .sub, .mul, .div, .rem, .eq, .ne, .lt, .le, .gt, .ge, .bitAnd, .bitOr, .bitXor, .shl,
    .shr, .offset]

/-- The operator with a number. -/
def ofCode (c : Int) : SourceBinOp :=
  if c < 0 then .other c else all.getD c.toNat (.other c)

/-- The name of an operator. -/
def text : SourceBinOp → String
  | .add => "Add" | .sub => "Sub" | .mul => "Mul" | .div => "Div" | .rem => "Rem"
  | .eq => "Eq" | .ne => "Ne" | .lt => "Lt" | .le => "Le" | .gt => "Gt" | .ge => "Ge"
  | .bitAnd => "BitAnd" | .bitOr => "BitOr" | .bitXor => "BitXor"
  | .shl => "Shl" | .shr => "Shr" | .offset => "Offset"
  | .other c => s!"BinOp<{c}>"

end SourceBinOp

/-- The unary operators of source code. -/
inductive SourceUnOp
  | not | neg
  | other (code : Int)
  deriving DecidableEq, Repr

namespace SourceUnOp

/-- The operator with a number. -/
def ofCode (c : Int) : SourceUnOp :=
  if c = 0 then .not else if c = 1 then .neg else .other c

/-- The name of an operator. -/
def text : SourceUnOp → String
  | .not => "Not"
  | .neg => "Neg"
  | .other c => s!"UnOp<{c}>"

end SourceUnOp

/-- The right-hand side of an assignment. -/
inductive Rvalue
  | use (operand : Operand)
  | binary (op : SourceBinOp) (lhs rhs : Operand)
  | unary (op : SourceUnOp) (operand : Operand)
  | cast (operand : Operand) (type : Ty)
  | ref (place : Place)
  | missing
  deriving DecidableEq, Repr

/-- An instruction inside a block. -/
inductive Statement
  | assign (place : Place) (value : Rvalue) (span : Span)
  | storageLive (base : Int)
  | storageDead (base : Int)
  | nop
  | missing
  deriving DecidableEq, Repr

/-- The instruction that ends a block.  A switch goes to the target at the position of the first
value that equals its operand, and to the last target if there is none.  A call without a
destination does not return. -/
inductive Terminator
  | goto (target : Int)
  | switch (operand : Operand) (values : List Int) (targets : List Int) (span : Span)
  | assert (operand : Operand) (expected : Bool) (target : Int) (span : Span)
  | call (callee : String) (args : List Operand) (dest : Option Place) (next : Int) (span : Span)
  | return
  | unreachable
  | missing
  deriving DecidableEq, Repr

/-- Statements that run in a row, and where to go from there. -/
structure Block where
  statements : List Statement
  terminator : Terminator
  deriving DecidableEq, Repr

/-- A local variable. -/
structure LocalVar where
  name : String := ""
  type : Ty
  deriving DecidableEq, Repr

/-- A function with its locals and blocks. -/
structure Function where
  name : String
  span : Span := {}
  locals : List LocalVar
  argCount : Int
  blocks : List Block
  deriving DecidableEq, Repr

/-- The entry of a list at an integer index, if the index is in range. -/
def nth? {α : Type} (xs : List α) (i : Int) : Option α :=
  if i < 0 then none else xs[i.toNat]?

namespace Function

/-- The local with an index. -/
def localVar? (f : Function) (i : Int) : Option LocalVar :=
  nth? f.locals i

/-- The block with an index. -/
def block? (f : Function) (i : Int) : Option Block :=
  nth? f.blocks i

end Function

/-- The functions whose code is known. -/
structure Program where
  functions : List Function
  deriving DecidableEq, Repr

namespace Program

/-- The program without functions. -/
def empty : Program :=
  ⟨[]⟩

/-- The first function with a name. -/
def function? (p : Program) (name : String) : Option Function :=
  p.functions.find? fun f => f.name == name

end Program

end NullPath
