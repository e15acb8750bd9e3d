import NullPath.Graph.Basic

/-!
# Graph text

* `Graph.dump`: the declarations, then the nodes with their assertions and successors.
-/

namespace NullPath

namespace Declaration

/-- A line for a declaration: sort, origin, and the nodes at which it was dereferenced. -/
def line (d : Declaration) : String :=
  let origin := match d.origin with
    | some o => s!" origin={o.label}"
    | none => ""
  let derefs := String.join (d.derefs.map fun tag => s!" deref@{tag.node}")
  s!"{d.name.label}: {d.sort.text}{origin}{derefs}\n"

end Declaration

namespace Edge

/-- A line for a successor. -/
def line (e : Edge) : String :=
  match e.guard with
  | none => s!"  -> {e.target}\n"
  | some g => s!"  -> {e.target} if {g.text}\n"

end Edge

namespace Graph

/-- The graph as text. -/
def dump (g : Graph) : String :=
  let nodes := g.nodes.zipIdx.map fun (n, i) =>
    s!"node {i}:\n" ++ String.join (n.exprs.map fun e => s!"  {e.text}\n") ++
      String.join (n.out.map Edge.line)
  "== DECLARATIONS\n" ++ String.join (g.decls.map Declaration.line) ++ "== NODES\n" ++
    String.join nodes

end Graph

end NullPath
