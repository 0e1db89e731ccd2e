import Clausal.VarGroup.BipartiteEdges

/-!
# Mappings, one variable for each pair

A mapping from `1, …, n` to `1, …, m` has one variable for each element and possible image. The
possible images are given by a bipartite graph.
-/

namespace Clausal

/-- A mapping with one variable for each pair. -/
structure UnaryMapping where
  pairs : BipartiteEdges
deriving DecidableEq

namespace UnaryMapping

def defaultLabel : String := "f(\x7b\x7d)=\x7b\x7d"

/-- The mapping whose possible images are the right neighbors of its elements. -/
def create (start : Nat) (graph : BipartiteGraph) (label : Option String) :
    Except Error UnaryMapping :=
  (BipartiteEdges.create start graph (label.getD defaultLabel)).map (⟨·⟩)

def domainSize (f : UnaryMapping) : Nat := f.pairs.graph.leftOrder

def rangeSize (f : UnaryMapping) : Nat := f.pairs.graph.rightOrder

def domain (f : UnaryMapping) : List Nat := List.range' 1 f.domainSize

def range (f : UnaryMapping) : List Nat := List.range' 1 f.rangeSize

/-- The possible images of an element. -/
def rangeOf (f : UnaryMapping) (u : Nat) : List Nat := f.pairs.graph.rightNeighbors u

/-- The elements with a possible image. -/
def domainOf (f : UnaryMapping) (v : Nat) : List Nat := f.pairs.graph.leftNeighbors v

end UnaryMapping

end Clausal
