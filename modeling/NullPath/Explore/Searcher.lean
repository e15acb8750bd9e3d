import NullPath.Error

/-!
# Searchers

A searcher keeps the frames that wait to be explored and chooses the next one.  The choice
changes only the order of exploration.

* `Strategy`: latest first, earliest first, or by given draws.
* `Pool`: waiting items in the order in which they came, with a strategy.
* `Searcher`: pools that take turns.  Each item goes to one pool.
* `Searcher.ofName`: a strategy, or several joined by `+`.
-/

namespace NullPath

/-- How a pool chooses.  A random choice follows draws that are given beforehand. -/
inductive Strategy
  | depthFirst
  | breadthFirst
  | random (draws : Nat → Nat)

/-- Waiting items in the order in which they came. -/
structure Pool (φ : Type) where
  strategy : Strategy
  items : List φ := []
  drawn : Nat := 0

namespace Pool

variable {φ : Type}

/-- The pool with one more item. -/
def add (p : Pool φ) (x : φ) : Pool φ :=
  { p with items := p.items ++ [x] }

/-- The position of the item that a pool chooses, if it has any. -/
def choice (p : Pool φ) : Nat :=
  match p.strategy with
  | .depthFirst => p.items.length - 1
  | .breadthFirst => 0
  | .random draws => draws p.drawn % p.items.length

/-- The chosen item and the pool without it. -/
def select (p : Pool φ) : Option (φ × Pool φ) :=
  match p.items[p.choice]? with
  | some x => some (x, { p with items := p.items.eraseIdx p.choice, drawn := p.drawn + 1 })
  | none => none

end Pool

/-- Pools that take turns, both in receiving and in giving items. -/
structure Searcher (φ : Type) where
  pools : List (Pool φ)
  addTurn : Nat := 0
  selectTurn : Nat := 0

namespace Searcher

variable {φ : Type}

/-- The searcher with one pool. -/
def single (strategy : Strategy) : Searcher φ :=
  { pools := [{ strategy }] }

/-- The turn after a turn. -/
def nextTurn (s : Searcher φ) (turn : Nat) : Nat :=
  if s.pools.length ≤ turn + 1 then 0 else turn + 1

/-- Gives an item to the pool whose turn it is. -/
def add (s : Searcher φ) (x : φ) : Searcher φ :=
  { s with
    pools := s.pools.modify s.addTurn fun p => p.add x
    addTurn := s.nextTurn s.addTurn }

/-- Asks a number of pools in turn for an item, until one has an item to give. -/
def selectWithin : Nat → Searcher φ → Option φ × Searcher φ
  | 0, s => (none, s)
  | tries + 1, s =>
    let turned := { s with selectTurn := s.nextTurn s.selectTurn }
    match s.pools[s.selectTurn]?.bind Pool.select with
    | some (x, p) => (some x, { turned with pools := s.pools.set s.selectTurn p })
    | none => selectWithin tries turned

/-- The next item, if any pool has one. -/
def select (s : Searcher φ) : Option φ × Searcher φ :=
  selectWithin s.pools.length s

/-- The items that wait. -/
def pending (s : Searcher φ) : List φ :=
  s.pools.flatMap Pool.items

end Searcher

namespace Strategy

/-- Draws that are spread by a linear congruence from a seed. -/
def draws (seed : Int) (k : Nat) : Nat :=
  ((seed.toNat + k + 1) * 6364136223846793005 + 1442695040888963407) %
    0x10000000000000000 / 0x200000000

/-- The strategy with a name. -/
def ofName? (seed : Int) : String → Option Strategy
  | "" | "dfs" => some .depthFirst
  | "bfs" => some .breadthFirst
  | "random" => some (.random (draws seed))
  | _ => none

/-- The strategies of the parts of a joined name.  An empty part makes the whole name unknown. -/
def ofParts (seed : Int) (whole : String) : List String → Except Error (List Strategy)
  | [] => .ok []
  | "" :: _ => .error (.of (.unknownStrategy whole))
  | part :: parts =>
    match ofName? seed part with
    | none => .error (.of (.unknownStrategy part))
    | some s =>
      match ofParts seed whole parts with
      | .ok ss => .ok (s :: ss)
      | .error e => .error e

/-- The strategies that a name stands for: one, or several joined by `+`. -/
def all (seed : Int) (name : String) : Except Error (List Strategy) :=
  if name.toList.contains '+' then ofParts seed name (name.splitOn "+")
  else match ofName? seed name with
    | some s => .ok [s]
    | none => .error (.of (.unknownStrategy name))

end Strategy

namespace Searcher

/-- The searcher with a name. -/
def ofName {φ : Type} (name : String) (seed : Int) : Except Error (Searcher φ) :=
  match Strategy.all seed name with
  | .ok strategies => .ok { pools := strategies.map fun strategy => { strategy } }
  | .error e => .error e

end Searcher

end NullPath
