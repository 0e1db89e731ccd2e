import Clausal.Graph.Adjacency

/-!
# Directed graphs

A directed graph with vertices `1, …, n`. Loops are allowed, parallel edges are not.
-/

namespace Clausal

structure DirectedGraph where
  succTable : Adjacency
  predTable : Adjacency
  edgeCount : Nat
deriving DecidableEq

namespace DirectedGraph

def empty (n : Nat) : DirectedGraph := ⟨Adjacency.isolated n, Adjacency.isolated n, 0⟩

def order (g : DirectedGraph) : Nat := g.succTable.size

def successors (g : DirectedGraph) (u : Nat) : List Nat := g.succTable.neighbors u

def predecessors (g : DirectedGraph) (v : Nat) : List Nat := g.predTable.neighbors v

def hasEdge (g : DirectedGraph) (u v : Nat) : Bool := (g.successors u).contains v

/-- The edges, ordered by source, then target. -/
def edges (g : DirectedGraph) : List (Nat × Nat) := g.succTable.pairs

def checkVertex (g : DirectedGraph) (v : Nat) : Except Error Unit :=
  if v = 0 ∨ g.order < v then .error (.vertex v g.order) else .ok ()

def checkEdge (g : DirectedGraph) (u v : Nat) : Except Error Unit := do
  g.checkVertex u
  g.checkVertex v

/-- The graph with an edge from one of its vertices to another or the same. -/
def insertEdge (g : DirectedGraph) (u v : Nat) : DirectedGraph :=
  if g.hasEdge u v then g
  else ⟨g.succTable.link u v, g.predTable.link v u, g.edgeCount + 1⟩

def addEdge (g : DirectedGraph) (u v : Nat) : Except Error (Bool × DirectedGraph) :=
  (g.checkEdge u v).map fun _ => (!g.hasEdge u v, g.insertEdge u v)

/-- Adds edges up to the first one that is refused. -/
def addEdges (g : DirectedGraph) (edges : List (Nat × Nat)) : Except Error Unit × DirectedGraph :=
  changeEach (fun g (u, v) => g.checkEdge u v) (fun g (u, v) => g.insertEdge u v) g edges

def ofEdges (n : Nat) (edges : List (Nat × Nat)) : Except Error DirectedGraph :=
  match (empty n).addEdges edges with
  | (.ok (), g) => .ok g
  | (.error e, _) => .error e

end DirectedGraph

end Clausal
