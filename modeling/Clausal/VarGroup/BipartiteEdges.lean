import Clausal.Graph.Bipartite
import Clausal.VarGroup.Index
import Clausal.Label

/-!
# Edges of bipartite graphs

One variable for each edge `(u, v)` of a bipartite graph, ordered by left vertex, then right vertex.
The edges of a left vertex have consecutive identifiers in the order of its neighbors, so the first
one says them all; those of a right vertex are listed.
-/

namespace Clausal

/-- The variables of the edges of a bipartite graph. -/
structure BipartiteEdges where
  ids : IdRange
  graph : BipartiteGraph
  /-- The first identifier of each left vertex. -/
  offsets : Array Nat
  /-- The identifiers of each right vertex, in the order of its neighbors. -/
  columns : Array (List Nat)
  format : LabelFormat
deriving DecidableEq

namespace BipartiteEdges

def defaultLabel : String := "e(\x7b\x7d,\x7b\x7d)"

/-- The first identifier of each row, where the first row starts at `next`. -/
def offsetsFrom (next : Nat) : List (List Nat) → List Nat
  | [] => []
  | row :: rows => next :: offsetsFrom (next + row.length) rows

/-- The identifiers of the edges of each right vertex, where the edges are numbered from `start`
on. -/
def columnsFrom (start : Nat) (graph : BipartiteGraph) : Array (List Nat) :=
  (graph.edges.zipIdx start).foldr
    (fun ((_, v), id) columns => columns.modify (v - 1) (id :: ·))
    (Array.replicate graph.rightOrder [])

/-- The edges of a graph, with a label for the default. -/
def create (start : Nat) (graph : BipartiteGraph) (label : String) :
    Except Error BipartiteEdges := do
  let ids ← IdRange.alloc start graph.edgeCount
  let format ← LabelFormat.parse label 2
  let offsets := (offsetsFrom start graph.leftTable.toList).toArray
  return ⟨ids, graph, offsets, columnsFrom start graph, format⟩

def offset (g : BipartiteEdges) (u : Nat) : Nat := g.offsets[u - 1]?.getD 0

/-- The identifiers of the edges of a left vertex. -/
def rowIds (g : BipartiteEdges) (u : Nat) : List Nat :=
  List.range' (g.offset u) (g.graph.rightNeighbors u).length

/-- The identifiers of the edges of a right vertex. -/
def columnIds (g : BipartiteEdges) (v : Nat) : List Nat := g.columns[v - 1]?.getD []

def edgeId? (g : BipartiteEdges) (u v : Nat) : Option Nat :=
  ((g.graph.rightNeighbors u).idxOf? v).map (g.offset u + ·)

/-- The literal of an edge, where `u` has to be a left vertex and `v` a right vertex. -/
def edgeLit (g : BipartiteEdges) (u v : Nat) : Except Error Lit := do
  g.graph.checkLeft u
  g.graph.checkRight v
  match g.edgeId? u v with
  | some id => return .positive id
  | none => throw (.notAnEdge u v)

/-- The edges that match a pair of fixed or open vertices. -/
def edgesAt (g : BipartiteEdges) : Option Nat → Option Nat → Except Error (List (Nat × Nat))
  | none, none => .ok g.graph.edges
  | some u, none => (g.graph.checkLeft u).map fun _ => (g.graph.rightNeighbors u).map (u, ·)
  | none, some v => (g.graph.checkRight v).map fun _ => (g.graph.leftNeighbors v).map (·, v)
  | some u, some v => (g.edgeLit u v).map fun _ => [(u, v)]

/-- The two components of a pattern. -/
def sides (p : Pattern) : Except Error (Option Nat × Option Nat) :=
  (p.expand 2).map fun p => (p[0]?.join, p[1]?.join)

def matching (g : BipartiteEdges) (p : Pattern) : Except Error (List (Nat × Nat)) := do
  let (u, v) ← sides p
  g.edgesAt u v

def indices (g : BipartiteEdges) (p : Pattern) : Except Error (List Index) :=
  (g.matching p).map fun es => es.map fun (u, v) => [u, v]

def evaluate (g : BipartiteEdges) (index : Index) : Except Error Lit :=
  match index with
  | [u, v] => g.edgeLit u v
  | _ => .error (.indexLength index.length 2)

/-- The literals of the edges that match a pair of fixed or open vertices, in the order of
`edgesAt`. -/
def litsAt (g : BipartiteEdges) : Option Nat → Option Nat → Except Error (List Lit)
  | none, none => .ok (g.ids.toList.map .positive)
  | some u, none => (g.graph.checkLeft u).map fun _ => (g.rowIds u).map .positive
  | none, some v => (g.graph.checkRight v).map fun _ => (g.columnIds v).map .positive
  | some u, some v => (g.edgeLit u v).map ([·])

def lits (g : BipartiteEdges) (p : Pattern) : Except Error (List Lit) := do
  let (u, v) ← sides p
  g.litsAt u v

/-- The edge of a literal. Its left vertex is the last one whose edges start at the identifier or
before. -/
def toEdge (g : BipartiteEdges) (l : Lit) : Except Error (Nat × Nat) :=
  if g.ids.contains l then
    let u := g.offsets.findIdx (l.var < ·)
    match (g.graph.rightNeighbors u)[l.var - g.offset u]? with
    | some v => .ok (u, v)
    | none => .error (g.ids.outside l)
  else .error (g.ids.outside l)

def toIndex (g : BipartiteEdges) (l : Lit) : Except Error Index :=
  (g.toEdge l).map fun (u, v) => [u, v]

def renderLabel (g : BipartiteEdges) (index : Index) : String :=
  g.format.render (index.map toString)

end BipartiteEdges

end Clausal
