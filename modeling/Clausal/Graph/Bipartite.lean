import Clausal.Graph.Adjacency

/-!
# Bipartite graphs

A bipartite graph has left vertices `1, …, L` and right vertices `1, …, R`. It keeps the neighbors
of both sides and counts its edges.
-/

namespace Clausal

structure BipartiteGraph where
  leftTable : Adjacency
  rightTable : Adjacency
  edgeCount : Nat
deriving DecidableEq

namespace BipartiteGraph

def empty (left right : Nat) : BipartiteGraph :=
  ⟨Adjacency.isolated left, Adjacency.isolated right, 0⟩

def complete (left right : Nat) : BipartiteGraph :=
  ⟨Array.replicate left (List.range' 1 right), Array.replicate right (List.range' 1 left),
    left * right⟩

def leftOrder (g : BipartiteGraph) : Nat := g.leftTable.size

def rightOrder (g : BipartiteGraph) : Nat := g.rightTable.size

def rightNeighbors (g : BipartiteGraph) (u : Nat) : List Nat := g.leftTable.neighbors u

def leftNeighbors (g : BipartiteGraph) (v : Nat) : List Nat := g.rightTable.neighbors v

def hasEdge (g : BipartiteGraph) (u v : Nat) : Bool := (g.rightNeighbors u).contains v

/-- The edges, ordered by left vertex, then right vertex. -/
def edges (g : BipartiteGraph) : List (Nat × Nat) := g.leftTable.pairs

def checkLeft (g : BipartiteGraph) (u : Nat) : Except Error Unit :=
  if u = 0 ∨ g.leftOrder < u then .error (.leftVertex u g.leftOrder) else .ok ()

def checkRight (g : BipartiteGraph) (v : Nat) : Except Error Unit :=
  if v = 0 ∨ g.rightOrder < v then .error (.rightVertex v g.rightOrder) else .ok ()

def checkEdge (g : BipartiteGraph) (u v : Nat) : Except Error Unit := do
  g.checkLeft u
  g.checkRight v

def insertEdge (g : BipartiteGraph) (u v : Nat) : BipartiteGraph :=
  if g.hasEdge u v then g
  else ⟨g.leftTable.link u v, g.rightTable.link v u, g.edgeCount + 1⟩

/-- Adds an edge and says whether it is new. -/
def addEdge (g : BipartiteGraph) (u v : Nat) : Except Error (Bool × BipartiteGraph) :=
  (g.checkEdge u v).map fun _ => (!g.hasEdge u v, g.insertEdge u v)

/-- Adds edges up to the first one that is refused. -/
def addEdges (g : BipartiteGraph) (edges : List (Nat × Nat)) : Except Error Unit × BipartiteGraph :=
  changeEach (fun g (u, v) => g.checkEdge u v) (fun g (u, v) => g.insertEdge u v) g edges

/-- The graph with the given edges, if all of them are accepted. -/
def ofEdges (left right : Nat) (edges : List (Nat × Nat)) : Except Error BipartiteGraph :=
  match (empty left right).addEdges edges with
  | (.ok (), g) => .ok g
  | (.error e, _) => .error e

end BipartiteGraph

end Clausal
