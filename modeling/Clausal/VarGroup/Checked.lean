import Clausal.Checked
import Clausal.VarGroup

/-!
# Groups of variables, step by step

The calls of groups, with every step of arithmetic that they take: sums, products and differences in
words and counters, divisions, shifts, and places in lists. They are to give the same results as the
calls on numbers without limits, which leave these steps out.
-/

namespace Clausal

/-! ## Identifiers, indices and patterns -/

/-- The identifier some places after another one. -/
def checkedId (first place : Nat) : Option Nat := do
  let place ← checkedCounter place
  checkedCounter (first + place)

/-- The range of `size` identifiers from `start` on. The identifier before its end has to be a
variable. -/
def IdRange.checkedAlloc (start size : Nat) : Checked IdRange :=
  match checkedId start size with
  | none => throw (.tooManyVariables size start)
  | some stop => do
    let last ← Checked.step (checkedSub stop 1)
    if last ≤ maxVar then return ⟨start, size⟩ else throw (.tooManyVariables size start)

/-- The two components of an index. -/
def Index.checkedPair (index : Index) : Checked (Nat × Nat) := do
  Checked.of (index.checkLength 2)
  let u ← Checked.step index[0]?
  let v ← Checked.step index[1]?
  return (u, v)

/-- The two components of a pattern. -/
def Pattern.checkedSides (p : Pattern) : Checked (Option Nat × Option Nat) := do
  let p ← Checked.of (p.expand 2)
  let u ← Checked.step p[0]?
  let v ← Checked.step p[1]?
  return (u, v)

/-! ## Single variables -/

namespace SingleVar

def checkedIds (g : SingleVar) : Option IdRange := do
  let stop ← checkedCounter (g.var + 1)
  return ⟨g.var, stop - g.var⟩

def checkedToIndex (g : SingleVar) (l : Lit) : Checked Index :=
  if l.var = g.var then return []
  else do
    let ids ← Checked.step g.checkedIds
    throw (ids.outside l)

end SingleVar

/-! ## Blocks -/

namespace Block

/-- Fills in the weights before a position, from the last one to the first. A component weighs as
much as all values of the component after it. -/
def fillWeights (ranges : List Nat) : Nat → List Nat → Checked (List Nat)
  | 0, weights => return weights
  | d + 1, weights => do
    let weight ← Checked.step weights[d + 1]?
    let range ← Checked.step ranges[d + 1]?
    match checkedWord (weight * range) with
    | some product => fillWeights ranges d (weights.set d product)
    | none => throw .blockTooLarge

/-- The weights of the components, which are one before they are filled in, and the number of
tuples. -/
def checkedWeigh (ranges : List Nat) : Checked (List Nat × Nat) := do
  let last ← Checked.step (checkedSub ranges.length 1)
  let weights ← fillWeights ranges last (List.replicate ranges.length 1)
  let weight ← Checked.step weights[0]?
  let range ← Checked.step ranges[0]?
  match checkedWord (weight * range) with
  | some size => return (weights, size)
  | none => throw .blockTooLarge

def checkedCreate (start : Nat) (ranges : List Nat) (label : Option String) : Checked Block := do
  if ranges.isEmpty then throw .noDimension
  match ranges.findIdx? (· = 0) with
  | some i => throw (.emptyDimension (i + 1))
  | none =>
    let (weights, size) ← checkedWeigh ranges
    let format ← Checked.of (parseLabel label ranges.length)
    let ids ← IdRange.checkedAlloc start size
    return ⟨ids, ranges, weights, format⟩

/-- A number of tuples with those before an index added component by component. -/
def addTerms : Nat → List Nat → Index → Option Nat
  | sum, weight :: weights, i :: index => do
    let before ← checkedSub i 1
    let term ← checkedWord (before * weight)
    let sum ← checkedWord (sum + term)
    addTerms sum weights index
  | sum, _, _ => some sum

def checkedLit (g : Block) (index : Index) : Option Lit := do
  let offset ← addTerms 0 g.weights index
  let id ← checkedId g.ids.first offset
  return .positive id

def checkedEvaluate (g : Block) (index : Index) : Checked Lit := do
  Checked.of (index.checkLength g.arity)
  Checked.of (checkFrom 1 (index.map some) g.ranges)
  Checked.step (g.checkedLit index)

def checkedLits (g : Block) (p : Pattern) : Checked (List Lit) := do
  let is ← Checked.of (g.indices p)
  Checked.step (is.mapM g.checkedLit)

def checkedDigits : List Nat → Nat → Option Index
  | [], _ => some []
  | weight :: weights, residue => do
    let quotient ← checkedDiv residue weight
    let digit ← checkedWord (quotient + 1)
    let residue ← checkedMod residue weight
    let digits ← checkedDigits weights residue
    return digit :: digits

def checkedToIndex (g : Block) (l : Lit) : Checked Index :=
  if g.ids.contains l then Checked.step do
    let number ← checkedSub l.var g.ids.first
    checkedDigits g.weights number
  else throw (g.ids.outside l)

end Block

/-! ## Words -/

namespace Words

/-- Words with their identifiers. -/
def checkedTable (first : Nat) (sequences : List Index) : Option (List (Index × Nat)) :=
  sequences.zipIdx.mapM fun (word, place) => do
    let id ← checkedId first place
    return (word, id)

def checkedCreate (start n k : Nat) (family : Family) (label : Option String) : Checked Words := do
  let sequences := family.sequences n k
  let ids ← IdRange.checkedAlloc start sequences.length
  let _ ← Checked.step (checkedTable ids.first sequences)
  let format ← Checked.of (LabelFormat.parse (label.getD defaultLabel) 1)
  return ⟨ids, n, k, family, sequences, format⟩

def checkedIdOf (g : Words) (word : Index) : Checked Nat := do
  if g.family.accepts g.n word then
    let table ← Checked.step (checkedTable g.ids.first g.sequences)
    match table.lookup word with
    | some id => return id
    | none => throw (.notListed word)
  else throw (.notAWord word g.family g.k g.n)

def checkedPattern (g : Words) (p : Pattern) : Checked Pattern := do
  let p ← Checked.of (p.expand g.k)
  match p.reduceOption.find? fun i => i = 0 || g.n < i with
  | some i => throw (.letter i g.n)
  | none =>
    match p.fixed? with
    | some word =>
      let _ ← g.checkedIdOf word
      return p
    | none => return p

def checkedEvaluate (g : Words) (word : Index) : Checked Lit := do
  Checked.of (word.checkLength g.k)
  let id ← g.checkedIdOf word
  return .positive id

def checkedLits (g : Words) (p : Pattern) : Checked (List Lit) := do
  let p ← g.checkedPattern p
  let table ← Checked.step (checkedTable g.ids.first g.sequences)
  return (table.filter fun e => p.admits e.1).map fun e => .positive e.2

def checkedToIndex (g : Words) (l : Lit) : Checked Index :=
  if g.ids.contains l then Checked.step do
    let place ← checkedSub l.var g.ids.first
    g.sequences[place]?
  else throw (g.ids.outside l)

end Words

/-! ## Graphs -/

/-- All pairs of a vertex and a neighbor, where vertices are counted from 0 in the table and from 1
in the pairs. -/
def Adjacency.checkedPairs (table : Adjacency) : Option (List (Nat × Nat)) := do
  let rows ← table.toList.zipIdx.mapM fun (row, i) => do
    let v ← checkedWord (i + 1)
    return row.map (v, ·)
  return rows.flatten

def UndirectedGraph.checkedEdges (g : UndirectedGraph) : Option (List (Nat × Nat)) := do
  let pairs ← g.table.checkedPairs
  return pairs.filter fun (u, v) => u < v

namespace BipartiteGraph

/-- The graph with an edge between two of its vertices. -/
def checkedInsertEdge (g : BipartiteGraph) (u v : Nat) : Option BipartiteGraph := do
  let i ← checkedSub u 1
  let row ← g.leftTable[i]?
  if row.contains v then return g
  let j ← checkedSub v 1
  let _ ← g.rightTable[j]?
  let count ← checkedWord (g.edgeCount + 1)
  return ⟨g.leftTable.modify i (Adjacency.insertSorted v),
    g.rightTable.modify j (Adjacency.insertSorted u), count⟩

def checkedAddEdges : BipartiteGraph → List (Nat × Nat) → Checked BipartiteGraph
  | g, [] => return g
  | g, (u, v) :: edges => do
    Checked.of (g.checkEdge u v)
    let g ← Checked.step (g.checkedInsertEdge u v)
    checkedAddEdges g edges

end BipartiteGraph

/-! ## Edges -/

namespace BipartiteEdges

/-- The first identifier of each row, where the first row starts at `next`. The identifier after the
last row is computed too. -/
def runningOffsets (next : Nat) : List (List Nat) → Option (List Nat)
  | [] => some []
  | row :: rows => do
    let after ← checkedId next row.length
    let offsets ← runningOffsets after rows
    return next :: offsets

def checkedCreate (start : Nat) (graph : BipartiteGraph) (label : String) :
    Checked BipartiteEdges := do
  let ids ← IdRange.checkedAlloc start graph.edgeCount
  let offsets ← Checked.step (runningOffsets start graph.leftTable.toList)
  let format ← Checked.of (LabelFormat.parse label 2)
  return ⟨ids, graph, offsets.toArray, columnsFrom start graph, format⟩

/-- The identifier of an edge, if the vertices are joined by one. -/
def checkedEdgeId (g : BipartiteEdges) (u v : Nat) : Option (Option Nat) :=
  match (g.graph.rightNeighbors u).idxOf? v with
  | none => some none
  | some rank => do
    let i ← checkedSub u 1
    let first ← g.offsets[i]?
    let id ← checkedId first rank
    return some id

def checkedEdgeLit (g : BipartiteEdges) (u v : Nat) : Checked Lit := do
  Checked.of (g.graph.checkLeft u)
  Checked.of (g.graph.checkRight v)
  match ← Checked.step (g.checkedEdgeId u v) with
  | some id => return .positive id
  | none => throw (.notAnEdge u v)

def checkedEdgesAt (g : BipartiteEdges) : Option Nat → Option Nat → Checked (List (Nat × Nat))
  | none, none => Checked.step g.graph.leftTable.checkedPairs
  | some u, some v => do
    let _ ← g.checkedEdgeLit u v
    return [(u, v)]
  | u, v => Checked.of (g.edgesAt u v)

/-- The literals of those pairs that are edges. -/
def checkedLitsOf (g : BipartiteEdges) (pairs : List (Nat × Nat)) : Option (List Lit) := do
  let ids ← pairs.mapM fun e => g.checkedEdgeId e.1 e.2
  return ids.reduceOption.map .positive

def checkedEvaluate (g : BipartiteEdges) (index : Index) : Checked Lit := do
  let (u, v) ← index.checkedPair
  g.checkedEdgeLit u v

def checkedLits (g : BipartiteEdges) (p : Pattern) : Checked (List Lit) := do
  let (u, v) ← p.checkedSides
  let es ← g.checkedEdgesAt u v
  Checked.step (g.checkedLitsOf es)

def checkedToEdge (g : BipartiteEdges) (l : Lit) : Checked (Nat × Nat) :=
  if g.ids.contains l then do
    let u := g.offsets.findIdx (l.var < ·)
    let i ← Checked.step (checkedSub u 1)
    let first ← Checked.step g.offsets[i]?
    let rank ← Checked.step (checkedSub l.var first)
    match (g.graph.rightNeighbors u)[rank]? with
    | some v => return (u, v)
    | none => throw (g.ids.outside l)
  else throw (g.ids.outside l)

def checkedToIndex (g : BipartiteEdges) (l : Lit) : Checked Index := do
  let (u, v) ← g.checkedToEdge l
  return [u, v]

end BipartiteEdges

namespace GraphEdges

def checkedCreate (start : Nat) (graph : UndirectedGraph) (label : Option String) :
    Checked GraphEdges := do
  let edges ← Checked.step graph.checkedEdges
  let upper ← (BipartiteGraph.empty graph.order graph.order).checkedAddEdges edges
  let layout ← BipartiteEdges.checkedCreate start upper (label.getD BipartiteEdges.defaultLabel)
  return ⟨layout⟩

def checkedEdgesAt (g : GraphEdges) : Option Nat → Option Nat → Checked (List (Nat × Nat))
  | none, none => g.layout.checkedEdgesAt none none
  | some u, some v => g.layout.checkedEdgesAt (some (min u v)) (some (max u v))
  | u, v => Checked.of (g.edgesAt u v)

def checkedEvaluate (g : GraphEdges) (index : Index) : Checked Lit := do
  let (u, v) ← index.checkedPair
  g.layout.checkedEdgeLit (min u v) (max u v)

def checkedLits (g : GraphEdges) (p : Pattern) : Checked (List Lit) := do
  let (u, v) ← p.checkedSides
  let es ← g.checkedEdgesAt u v
  Checked.step (g.layout.checkedLitsOf es)

end GraphEdges

namespace DigraphEdges

def checkedCreate (start : Nat) (graph : DirectedGraph) (order : EdgeOrder)
    (label : Option String) : Checked DigraphEdges := do
  let edges ← Checked.step graph.succTable.checkedPairs
  let layout ← (BipartiteGraph.empty graph.order graph.order).checkedAddEdges
    (edges.map order.orient)
  let layout ← BipartiteEdges.checkedCreate start layout (label.getD BipartiteEdges.defaultLabel)
  return ⟨layout, order⟩

def checkedEvaluate (g : DigraphEdges) (index : Index) : Checked Lit := do
  let pair ← index.checkedPair
  let (left, right) := g.order.orient pair
  g.layout.checkedEdgeLit left right

def checkedLits (g : DigraphEdges) (p : Pattern) : Checked (List Lit) := do
  let sides ← p.checkedSides
  let (left, right) := g.order.orient sides
  let es ← g.layout.checkedEdgesAt left right
  Checked.step (g.layout.checkedLitsOf es)

def checkedToIndex (g : DigraphEdges) (l : Lit) : Checked Index := do
  let e ← g.layout.checkedToEdge l
  let (u, v) := g.order.orient e
  return [u, v]

end DigraphEdges

/-! ## Binary mappings -/

namespace BinaryMapping

/-- The number of bits of a word above its highest one bit. -/
def leadingZeros (word : Nat) : Nat :=
  ((List.range wordBits).reverse.takeWhile fun b => !word.testBit b).length

def checkedBitsFor (m : Nat) : Option Nat :=
  if m ≤ 1 then some 0
  else do
    let highest ← checkedSub m 1
    checkedSub wordBits (leadingZeros highest)

def checkedCreate (start n m : Nat) (label : Option String) : Checked BinaryMapping := do
  if n = 0 ∨ m = 0 then throw (.emptyMapping n m)
  let bits ← Checked.step (checkedBitsFor m)
  match checkedWord (n * bits) with
  | none => throw .mappingTooLarge
  | some size =>
    let ids ← IdRange.checkedAlloc start size
    let format ← Checked.of (LabelFormat.parse (label.getD defaultLabel) 2)
    return ⟨ids, n, m, bits, format⟩

def checkedLit (f : BinaryMapping) (i b : Nat) : Option Lit := do
  let before ← checkedSub f.ids.first 1
  let product ← checkedWord (i * f.bits)
  let sum ← checkedWord (before + product)
  let difference ← checkedSub sum b
  let id ← checkedCounter difference
  return .positive id

/-- The literal of bit `b` of element `i`, with its identifier computed in words that wrap around. -/
def wrappedLit (f : BinaryMapping) (i b : Nat) : Lit :=
  .positive (f.ids.first.toUInt64 - 1 + i.toUInt64 * f.bits.toUInt64 - b.toUInt64).toUInt32.toNat

/-- The clause that forbids a number, with checked shifts, of literals that come from elsewhere. -/
def forbidWith (f : BinaryMapping) (lit : Nat → Nat → Option Lit) (i j : Nat) :
    Checked Clause := do
  Checked.of (f.checkDomain i)
  if f.bits < wordBits then
    let rest ← Checked.step (checkedShift j f.bits)
    if rest ≠ 0 then throw (.tooFewBits j f.bits)
  Checked.step (f.bitPositions.mapM fun b => do
    let l ← lit i b
    let shifted ← checkedShift j b
    return l.flipIf (shifted &&& 1 == 1))

def checkedForbid (f : BinaryMapping) (i j : Nat) : Checked Clause :=
  f.forbidWith f.checkedLit i j

def checkedEvaluate (f : BinaryMapping) (index : Index) : Checked Lit := do
  let (i, b) ← index.checkedPair
  Checked.of (f.checkDomain i)
  Checked.of (f.checkBit b)
  Checked.step (f.checkedLit i b)

def checkedMatching (f : BinaryMapping) (p : Pattern) : Checked (List (Nat × Nat)) := do
  let (element, bit) ← p.checkedSides
  Checked.of (element.forM f.checkDomain)
  Checked.of (bit.forM f.checkBit)
  return f.pairsAt element bit

def checkedLits (f : BinaryMapping) (p : Pattern) : Checked (List Lit) := do
  let es ← f.checkedMatching p
  Checked.step (es.mapM fun (i, b) => f.checkedLit i b)

def checkedToIndex (f : BinaryMapping) (l : Lit) : Checked Index :=
  if f.ids.contains l then Checked.step do
    let number ← checkedSub l.var f.ids.first
    let quotient ← checkedDiv number f.bits
    let element ← checkedWord (quotient + 1)
    let top ← checkedSub f.bits 1
    let remainder ← checkedMod number f.bits
    let bit ← checkedSub top remainder
    return [element, bit]
  else throw (f.ids.outside l)

end BinaryMapping

/-! ## All groups -/

namespace VarGroup

def checkedIds : VarGroup → Option IdRange
  | singleton g => g.checkedIds
  | g => some g.ids

def checkedEvaluate (g : VarGroup) (index : Index) : Checked Lit :=
  match g with
  | singleton g => Checked.of (g.evaluate index)
  | block g => g.checkedEvaluate index
  | words g => g.checkedEvaluate index
  | bipartite g => g.checkedEvaluate index
  | graph g => g.checkedEvaluate index
  | digraph g => g.checkedEvaluate index
  | unary f => f.pairs.checkedEvaluate index
  | binary f => f.checkedEvaluate index

def checkedLits (g : VarGroup) (p : Pattern) : Checked (List Lit) :=
  match g with
  | singleton g => Checked.of (g.lits p)
  | block g => g.checkedLits p
  | words g => g.checkedLits p
  | bipartite g => g.checkedLits p
  | graph g => g.checkedLits p
  | digraph g => g.checkedLits p
  | unary f => f.pairs.checkedLits p
  | binary f => f.checkedLits p

def checkedToIndex (g : VarGroup) (l : Lit) : Checked Index :=
  match g with
  | singleton g => g.checkedToIndex l
  | block g => g.checkedToIndex l
  | words g => g.checkedToIndex l
  | bipartite g => g.checkedToIndex l
  | graph g => g.layout.checkedToIndex l
  | digraph g => g.checkedToIndex l
  | unary f => f.pairs.checkedToIndex l
  | binary f => f.checkedToIndex l

end VarGroup

def GroupSpec.checkedCreate (start : Nat) : GroupSpec → Checked VarGroup
  | .singleton name => do return .singleton (← Checked.of (SingleVar.create start name))
  | .block ranges label => do return .block (← Block.checkedCreate start ranges label)
  | .words n k family label => do return .words (← Words.checkedCreate start n k family label)
  | .bipartite g label => do
    return .bipartite
      (← BipartiteEdges.checkedCreate start g (label.getD BipartiteEdges.defaultLabel))
  | .graph g label => do return .graph (← GraphEdges.checkedCreate start g label)
  | .digraph g order label => do return .digraph (← DigraphEdges.checkedCreate start g order label)
  | .mapping g label => do
    return .unary
      ⟨← BipartiteEdges.checkedCreate start g (label.getD UnaryMapping.defaultLabel)⟩
  | .binaryMapping n m label => do return .binary (← BinaryMapping.checkedCreate start n m label)

end Clausal
