import NullPath.Solver.Basic

/-!
# Exhaustive search

A query with few names over a small domain is decided by trying all assignments.  The first
declared name varies slowest, and the values are tried in the order of the domain.

An assertion is looked at as soon as all its names have values, so that a partial assignment
that already violates one is not extended.

* `Exhaustive.conjuncts`: the parts of an assertion that must hold by themselves.
* `Exhaustive.search`: the first assignment that satisfies all assertions.
* `Exhaustive.decide`: the search behind the checks on the query.
-/

namespace NullPath.Exhaustive

/-- The parts of an assertion that must all be true for it to be true. -/
def conjuncts : Expr → List Expr
  | .binary .and l r => conjuncts l ++ conjuncts r
  | e => [e]

/-- Whether a part of an assertion is true. -/
def holds (m : Model) (e : Expr) : Bool :=
  match e.eval m with
  | .ok c => c.isTrue
  | .error _ => false

/-- The values of a declaration.  A boolean one takes the values 0 and 1 only. -/
def values (domain : List Int) (d : Declaration) : List Constant :=
  if d.sort = .bool then
    domain.filterMap fun v =>
      if v = 0 then some (.ofBool false) else if v = 1 then some (.ofBool true) else none
  else domain.map .ofInt

/-- A declaration with its values and with the parts of assertions that can be decided once it
has one. -/
structure Stage where
  name : Name
  values : List Constant
  parts : List Expr

/-- Lays out the search: a part belongs to the last declaration of its names. -/
def stages (domain : List Int) (parts : List Expr) : List Declaration → List Stage
  | [] => []
  | d :: ds =>
    let ready := parts.filter fun e =>
      let names := Expr.names [e]
      names.contains d.name && names.all fun n => ds.all fun d' => d'.name ≠ n
    let later := parts.filter fun e =>
      let names := Expr.names [e]
      !(names.contains d.name && names.all fun n => ds.all fun d' => d'.name ≠ n)
    ⟨d.name, values domain d, ready⟩ :: stages domain later ds

mutual

/-- The first assignment of the remaining stages that keeps all their parts true. -/
def search (m : Model) : List Stage → Option Model
  | [] => some m
  | s :: rest => searchValues m s.name s.parts rest s.values
termination_by rest => (rest.length, 0)

/-- Tries the values of one stage in turn. -/
def searchValues (m : Model) (n : Name) (parts : List Expr) (rest : List Stage) :
    List Constant → Option Model
  | [] => none
  | c :: cs =>
    let m' := m.insert n c
    if parts.all (holds m') then
      match search m' rest with
      | some found => some found
      | none => searchValues m n parts rest cs
    else searchValues m n parts rest cs
termination_by cs => (rest.length, cs.length + 1)

end

/-- The number of names up to which the search is undertaken. -/
def maxNames : Nat := 12

/-- Decides a query over a domain. -/
def decide (domain : List Int) (q : Query) : Except Error (Option Model) := do
  q.validate
  if q.declarations.length > maxNames then throw (.of .solverResourceLimit)
  let parts := q.assertions.flatMap conjuncts
  let closed := parts.filter fun e => (Expr.names [e]).isEmpty
  let opened := parts.filter fun e => !(Expr.names [e]).isEmpty
  if closed.all (holds .empty) then
    return search .empty (stages domain opened q.declarations)
  else return none

end NullPath.Exhaustive
