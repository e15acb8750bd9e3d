import NullPath.Error

/-!
# Constraint graphs

Execution records what it learns in a graph.  A node holds the assertions made while one block
was executed on one path; an edge leads to a node of the next block and may carry a guard.  The
graph also owns the table of declared names.  A declaration remembers the parameter that it came
from and the nodes at which its value was dereferenced.

* `Declaration`, `Node`, `Edge`, `Graph`: the data.
* `Graph.addNode`, `Graph.addExpr`, `Graph.close`, `Graph.addEdge`: growing the graph.
* `Graph.declare`, `Graph.declaration`, `Graph.addTag`: the table of names.
-/

namespace NullPath

/-- Records that a value was used as an address while a node was built. -/
structure DerefTag where
  node : Int
  span : Span
  deriving DecidableEq, Repr

/-- The parameter of the entry function that a name stands for. -/
structure Origin where
  function : String
  index : Int
  label : String
  deriving DecidableEq, Repr

/-- A declared name, its sort, and what is known about it. -/
structure Declaration where
  name : Name
  sort : ExprSort
  derefs : List DerefTag := []
  origin : Option Origin := none
  deriving DecidableEq

namespace Declaration

/-- The declared name as a term. -/
def expr (d : Declaration) : Expr :=
  .name d.name d.sort

/-- Whether the name is tagged as dereferenced at a node. -/
def isDerefedAt (d : Declaration) (node : Int) : Bool :=
  d.derefs.any fun tag => tag.node == node

end Declaration

/-- A transition to a node, taken if the guard holds.  In the list of predecessors, the target is
the node that the transition comes from. -/
structure Edge where
  guard : Option Expr
  target : Int
  deriving DecidableEq

/-- The assertions of one block on one path, and the transitions out of it and into it. -/
structure Node where
  exprs : List Expr := []
  closed : Bool := false
  out : List Edge := []
  into : List Edge := []
  deriving DecidableEq

/-- The constraints of an analysis, with the names they speak about. -/
structure Graph where
  nodes : List Node := []
  decls : List Declaration := []
  deriving DecidableEq

namespace Graph

/-- The graph without nodes and names. -/
def empty : Graph :=
  {}

/-- The node with a number, if there is one. -/
def node? (g : Graph) (id : Int) : Option Node :=
  nth? g.nodes id

/-- The node with a number, which must exist. -/
def node (g : Graph) (id : Int) : Except Fault Node :=
  match g.node? id with
  | some n => .ok n
  | none => .error (.nodeOutOfRange id)

/-- The graph with one more node, which is open, and its number. -/
def addNode (g : Graph) : Int × Graph :=
  (g.nodes.length, { g with nodes := g.nodes ++ [{}] })

/-- The graph with the node of a number changed. -/
def modifyNode (g : Graph) (id : Int) (f : Node → Node) : Graph :=
  { g with nodes := g.nodes.modify id.toNat f }

/-- Adds an assertion to an open node. -/
def addExpr (g : Graph) (id : Int) (e : Expr) : Except Fault Graph := do
  let n ← g.node id
  if n.closed then throw (.closedNode id)
  if e.sort ≠ .bool then throw (.nonBoolean e)
  return g.modifyNode id fun n => { n with exprs := n.exprs ++ [e] }

/-- Marks a node as complete. -/
def close (g : Graph) (id : Int) : Except Fault Graph := do
  let _ ← g.node id
  return g.modifyNode id fun n => { n with closed := true }

/-- Adds a transition to the successors of its source and to the predecessors of its target. -/
def addEdge (g : Graph) (source : Int) (e : Edge) : Except Fault Graph := do
  let _ ← g.node source
  let _ ← g.node e.target
  let linked := g.modifyNode source fun n => { n with out := n.out ++ [e] }
  return linked.modifyNode e.target fun n => { n with into := n.into ++ [⟨e.guard, source⟩] }

/-- Declares a new name. -/
def declare (g : Graph) (sort : ExprSort) (origin : Option Origin) : Name × Graph :=
  let name : Name := ⟨g.decls.length⟩
  (name, { g with decls := g.decls ++ [{ name, sort, origin }] })

/-- The declaration of a name, if there is one. -/
def declaration? (g : Graph) (n : Name) : Option Declaration :=
  g.decls[n.index]?

/-- The declaration of a name, which must exist. -/
def declaration (g : Graph) (n : Name) : Except Fault Declaration :=
  match g.declaration? n with
  | some d => .ok d
  | none => .error (.undeclared n)

/-- Tags a name as dereferenced. -/
def addTag (g : Graph) (n : Name) (tag : DerefTag) : Except Fault Graph := do
  let _ ← g.declaration n
  return { g with decls := g.decls.modify n.index fun d => { d with derefs := d.derefs ++ [tag] } }

end Graph

end NullPath
