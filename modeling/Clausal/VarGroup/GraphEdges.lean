import Clausal.Graph.Undirected
import Clausal.VarGroup.BipartiteEdges

/-!
# Edges of simple graphs

One variable for each edge of a simple graph. The edges are laid out as those of the bipartite graph
that joins the smaller end on the left to the larger end on the right; an edge can be asked for in
either orientation.
-/

namespace Clausal

/-- The variables of the edges of a simple graph. -/
structure GraphEdges where
  layout : BipartiteEdges
deriving DecidableEq

namespace GraphEdges

def create (start : Nat) (graph : UndirectedGraph) (label : Option String) :
    Except Error GraphEdges := do
  let upper ← BipartiteGraph.ofEdges graph.order graph.order graph.edges
  return ⟨← BipartiteEdges.create start upper (label.getD BipartiteEdges.defaultLabel)⟩

def order (g : GraphEdges) : Nat := g.layout.graph.leftOrder

/-- The edges that match a pair of fixed or open vertices. One fixed vertex asks for all of its
edges, those to smaller vertices first. -/
def edgesAt (g : GraphEdges) : Option Nat → Option Nat → Except Error (List (Nat × Nat))
  | none, none => g.layout.edgesAt none none
  | some u, some v => g.layout.edgesAt (some (min u v)) (some (max u v))
  | some w, none | none, some w =>
    (g.layout.graph.checkLeft w).map fun _ =>
      (g.layout.graph.leftNeighbors w).map (·, w) ++ (g.layout.graph.rightNeighbors w).map (w, ·)

def matching (g : GraphEdges) (p : Pattern) : Except Error (List (Nat × Nat)) := do
  let (u, v) ← BipartiteEdges.sides p
  g.edgesAt u v

/-- The indices that match a pattern, smaller vertex first. -/
def indices (g : GraphEdges) (p : Pattern) : Except Error (List Index) :=
  (g.matching p).map fun es => es.map fun (u, v) => [u, v]

/-- The literal of an index, in either orientation. -/
def evaluate (g : GraphEdges) (index : Index) : Except Error Lit :=
  match index with
  | [u, v] => g.layout.edgeLit (min u v) (max u v)
  | _ => .error (.indexLength index.length 2)

/-- The literals of the edges that match a pair of fixed or open vertices, in the order of
`edgesAt`. -/
def litsAt (g : GraphEdges) : Option Nat → Option Nat → Except Error (List Lit)
  | none, none => g.layout.litsAt none none
  | some u, some v => g.layout.litsAt (some (min u v)) (some (max u v))
  | some w, none | none, some w =>
    (g.layout.graph.checkLeft w).map fun _ =>
      (g.layout.columnIds w ++ g.layout.rowIds w).map .positive

def lits (g : GraphEdges) (p : Pattern) : Except Error (List Lit) := do
  let (u, v) ← BipartiteEdges.sides p
  g.litsAt u v

/-- The index of a literal, smaller vertex first. -/
def toIndex (g : GraphEdges) (l : Lit) : Except Error Index := g.layout.toIndex l

def renderLabel (g : GraphEdges) (index : Index) : String := g.layout.renderLabel index

end GraphEdges

end Clausal
