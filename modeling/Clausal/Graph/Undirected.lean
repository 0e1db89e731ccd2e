import Clausal.Graph.Adjacency

/-!
# Simple graphs

An undirected graph with vertices `1, …, n`, without loops. Each edge is listed at both of its ends.
-/

namespace Clausal

structure UndirectedGraph where
  table : Adjacency
  edgeCount : Nat
deriving DecidableEq

namespace UndirectedGraph

def empty (n : Nat) : UndirectedGraph := ⟨Adjacency.isolated n, 0⟩

def order (g : UndirectedGraph) : Nat := g.table.size

def neighbors (g : UndirectedGraph) (v : Nat) : List Nat := g.table.neighbors v

def hasEdge (g : UndirectedGraph) (u v : Nat) : Bool := (g.neighbors u).contains v

/-- The edges as `(u, v)` with `u < v`, in lexicographic order. -/
def edges (g : UndirectedGraph) : List (Nat × Nat) :=
  g.table.pairs.filter fun (u, v) => u < v

def checkVertex (g : UndirectedGraph) (v : Nat) : Except Error Unit :=
  if v = 0 ∨ g.order < v then .error (.vertex v g.order) else .ok ()

/-- Refuses what is not a pair of different vertices. -/
def checkEdge (g : UndirectedGraph) (u v : Nat) : Except Error Unit := do
  g.checkVertex u
  g.checkVertex v
  if u = v then throw (.selfLoop u)

def insertEdge (g : UndirectedGraph) (u v : Nat) : UndirectedGraph :=
  if g.hasEdge u v then g
  else ⟨(g.table.link u v).link v u, g.edgeCount + 1⟩

def addEdge (g : UndirectedGraph) (u v : Nat) : Except Error (Bool × UndirectedGraph) :=
  (g.checkEdge u v).map fun _ => (!g.hasEdge u v, g.insertEdge u v)

/-- Adds edges up to the first one that is refused. -/
def addEdges (g : UndirectedGraph) (edges : List (Nat × Nat)) :
    Except Error Unit × UndirectedGraph :=
  changeEach (fun g (u, v) => g.checkEdge u v) (fun g (u, v) => g.insertEdge u v) g edges

def ofEdges (n : Nat) (edges : List (Nat × Nat)) : Except Error UndirectedGraph :=
  match (empty n).addEdges edges with
  | (.ok (), g) => .ok g
  | (.error e, _) => .error e

end UndirectedGraph

end Clausal
