import Clausal.Graph.Directed
import Clausal.VarGroup.BipartiteEdges

/-!
# Edges of directed graphs

One variable for each edge `u → v` of a directed graph, grouped by source or by target. The edges
are laid out as those of a bipartite graph with the grouping vertices on the left.
-/

namespace Clausal

/-- How edges are grouped. -/
inductive EdgeOrder where
  /-- By source. -/
  | pred
  /-- By target. -/
  | succ
deriving DecidableEq

def EdgeOrder.name : EdgeOrder → String
  | pred => "Pred"
  | succ => "Succ"

/-- Turns source and target into left and right, and back. -/
def EdgeOrder.orient {α : Type} (order : EdgeOrder) (pair : α × α) : α × α :=
  match order with
  | pred => pair
  | succ => (pair.2, pair.1)

/-- The variables of the edges of a directed graph. -/
structure DigraphEdges where
  layout : BipartiteEdges
  order : EdgeOrder
deriving DecidableEq

namespace DigraphEdges

def create (start : Nat) (graph : DirectedGraph) (order : EdgeOrder) (label : Option String) :
    Except Error DigraphEdges := do
  let layout ← BipartiteGraph.ofEdges graph.order graph.order (graph.edges.map order.orient)
  return ⟨← BipartiteEdges.create start layout (label.getD BipartiteEdges.defaultLabel), order⟩

/-- The components of a pattern for the left and the right vertex. -/
def sides (g : DigraphEdges) (p : Pattern) : Except Error (Option Nat × Option Nat) :=
  (BipartiteEdges.sides p).map g.order.orient

/-- The edges that match a pattern, as left and right vertices. -/
def matching (g : DigraphEdges) (p : Pattern) : Except Error (List (Nat × Nat)) := do
  let (left, right) ← g.sides p
  g.layout.edgesAt left right

/-- The indices that match a pattern, source first. -/
def indices (g : DigraphEdges) (p : Pattern) : Except Error (List Index) :=
  (g.matching p).map fun es => es.map fun e =>
    let (u, v) := g.order.orient e
    [u, v]

def evaluate (g : DigraphEdges) (index : Index) : Except Error Lit :=
  match index with
  | [u, v] =>
    let (left, right) := g.order.orient (u, v)
    g.layout.edgeLit left right
  | _ => .error (.indexLength index.length 2)

def lits (g : DigraphEdges) (p : Pattern) : Except Error (List Lit) := do
  let (left, right) ← g.sides p
  g.layout.litsAt left right

/-- The index of a literal, source first. -/
def toIndex (g : DigraphEdges) (l : Lit) : Except Error Index :=
  (g.layout.toEdge l).map fun e =>
    let (u, v) := g.order.orient e
    [u, v]

def renderLabel (g : DigraphEdges) (index : Index) : String := g.layout.renderLabel index

end DigraphEdges

end Clausal
