import NullPath.Error

/-!
# Static types of places

* `Ty.sort`: the sort of the values of a type.
* `Function.placeType`: the type of what a place stores.
* `Function.placeSort`: the sort of what a place stores.
-/

namespace NullPath

namespace Ty

/-- The sort of the values of a type.  A pointer is an integer, the address. -/
def sort : Ty → Except Error ExprSort
  | .untyped => .error (.unsupported "type" "untyped value")
  | .bool _ => .ok .bool
  | .int _ | .pointer _ _ => .ok .int
  | .other n => .error (.unsupported "type" (Ty.other n).text)

/-- The type reached from a type by a number of dereferences, or the type where this fails. -/
def derefTimes : Nat → Ty → Except Ty Ty
  | 0, t => .ok t
  | k + 1, t =>
    match t.elem? with
    | some elem => derefTimes k elem
    | none => .error t

end Ty

namespace Function

/-- The type of what a place stores. -/
def placeType (f : Function) (p : Place) : Except Error Ty :=
  match f.localVar? p.base with
  | none => .error (.of (.localOutOfRange p (some f.name)))
  | some l =>
    match l.type.derefTimes p.derefs with
    | .ok t => .ok t
    | .error t =>
      .error (.unsupported "place" s!"cannot dereference {p.text} of type {t.text}")

/-- The sort of what a place stores. -/
def placeSort (f : Function) (p : Place) : Except Error ExprSort :=
  match f.placeType p with
  | .ok t => t.sort
  | .error e => .error e

end Function

end NullPath
