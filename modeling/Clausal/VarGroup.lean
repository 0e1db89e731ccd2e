import Clausal.VarGroup.SingleVar
import Clausal.VarGroup.Block
import Clausal.VarGroup.Words
import Clausal.VarGroup.GraphEdges
import Clausal.VarGroup.DigraphEdges
import Clausal.VarGroup.UnaryMapping
import Clausal.VarGroup.BinaryMapping

/-!
# Groups of variables

A group owns consecutive identifiers and names each of them by an index. This module collects the
kinds of groups under one interface: `indices`, `lits` and `labels` list what matches a pattern, in
one order; `evaluate` and `toIndex` go from an index to its literal and back.
-/

namespace Clausal

/-- A group of variables. -/
inductive VarGroup where
  | singleton (g : SingleVar)
  | block (g : Block)
  | words (g : Words)
  | bipartite (g : BipartiteEdges)
  | graph (g : GraphEdges)
  | digraph (g : DigraphEdges)
  | unary (f : UnaryMapping)
  | binary (f : BinaryMapping)
deriving DecidableEq

namespace VarGroup

def ids : VarGroup → IdRange
  | singleton g => g.ids
  | block g => g.ids
  | words g => g.ids
  | bipartite g => g.ids
  | graph g => g.layout.ids
  | digraph g => g.layout.ids
  | unary f => f.pairs.ids
  | binary f => f.ids

def size (g : VarGroup) : Nat := g.ids.size

def contains (g : VarGroup) (l : Lit) : Bool := g.ids.contains l

/-- The length of an index. -/
def arity : VarGroup → Nat
  | singleton _ => 0
  | block g => g.arity
  | words g => g.k
  | bipartite _ | graph _ | digraph _ | unary _ | binary _ => 2

/-- Whether the group leaves its label to the default format of variables. -/
def isAnonymous : VarGroup → Bool
  | singleton g => g.name.isNone
  | _ => false

def indices (g : VarGroup) (p : Pattern) : Except Error (List Index) :=
  match g with
  | singleton g => g.indices p
  | block g => g.indices p
  | words g => g.indices p
  | bipartite g => g.indices p
  | graph g => g.indices p
  | digraph g => g.indices p
  | unary f => f.pairs.indices p
  | binary f => f.indices p

/-- The literals of the indices that match a pattern, in the order of `indices`. -/
def lits (g : VarGroup) (p : Pattern) : Except Error (List Lit) :=
  match g with
  | singleton g => g.lits p
  | block g => g.lits p
  | words g => g.lits p
  | bipartite g => g.lits p
  | graph g => g.lits p
  | digraph g => g.lits p
  | unary f => f.pairs.lits p
  | binary f => f.lits p

def evaluate (g : VarGroup) (index : Index) : Except Error Lit :=
  match g with
  | singleton g => g.evaluate index
  | block g => g.evaluate index
  | words g => g.evaluate index
  | bipartite g => g.evaluate index
  | graph g => g.evaluate index
  | digraph g => g.evaluate index
  | unary f => f.pairs.evaluate index
  | binary f => f.evaluate index

def toIndex (g : VarGroup) (l : Lit) : Except Error Index :=
  match g with
  | singleton g => g.toIndex l
  | block g => g.toIndex l
  | words g => g.toIndex l
  | bipartite g => g.toIndex l
  | graph g => g.toIndex l
  | digraph g => g.toIndex l
  | unary f => f.pairs.toIndex l
  | binary f => f.toIndex l

/-- The label of an index, which is not checked. -/
def renderLabel (g : VarGroup) (index : Index) : String :=
  match g with
  | singleton g => g.renderLabel index
  | block g => g.renderLabel index
  | words g => g.renderLabel index
  | bipartite g => g.renderLabel index
  | graph g => g.renderLabel index
  | digraph g => g.renderLabel index
  | unary f => f.pairs.renderLabel index
  | binary f => f.renderLabel index

/-- The label of an index. It is rendered from the index in the form in which the group reports
it. -/
def label (g : VarGroup) (index : Index) : Except Error String := do
  let l ← g.evaluate index
  return g.renderLabel (← g.toIndex l)

/-- The labels of the indices that match a pattern, in the order of `indices`. -/
def labels (g : VarGroup) (p : Pattern) : Except Error (List String) :=
  (g.indices p).map fun is => is.map g.renderLabel

end VarGroup

/-! ## Descriptions -/

/-- What a group is to hold, without the identifiers. -/
inductive GroupSpec where
  | singleton (name : Option String)
  | block (ranges : List Nat) (label : Option String)
  | words (n k : Nat) (family : Family) (label : Option String)
  | bipartite (graph : BipartiteGraph) (label : Option String)
  | graph (graph : UndirectedGraph) (label : Option String)
  | digraph (graph : DirectedGraph) (order : EdgeOrder) (label : Option String)
  | mapping (graph : BipartiteGraph) (label : Option String)
  | binaryMapping (n m : Nat) (label : Option String)
deriving DecidableEq

/-- The group that fits a description and starts at a given identifier. -/
def GroupSpec.create (start : Nat) : GroupSpec → Except Error VarGroup
  | .singleton name => (SingleVar.create start name).map .singleton
  | .block ranges label => (Block.create start ranges label).map .block
  | .words n k family label => (Words.create start n k family label).map .words
  | .bipartite g label =>
    (BipartiteEdges.create start g (label.getD BipartiteEdges.defaultLabel)).map .bipartite
  | .graph g label => (GraphEdges.create start g label).map .graph
  | .digraph g order label => (DigraphEdges.create start g order label).map .digraph
  | .mapping g label => (UnaryMapping.create start g label).map .unary
  | .binaryMapping n m label => (BinaryMapping.create start n m label).map .binary

end Clausal
