import Clausal.VarGroup.Checked
import Clausal.Proofs.Checked
import Clausal.Proofs.Graph.Bipartite

/-!
# Checked edges of graphs

A layout is a bipartite graph that takes the edges of a graph one after the other. Its edges are
counted in a word, so the count is exact as long as there are words for all of them.
-/

namespace Clausal

namespace Adjacency

variable {table : Adjacency}

theorem getElem?_eq_neighbors {v : Nat} (hv : 1 ≤ v ∧ v ≤ table.size) :
    table[v - 1]? = some (table.neighbors v) := by
  obtain ⟨i, rfl⟩ : ∃ i, v = i + 1 := ⟨v - 1, by omega⟩
  rw [neighbors, Nat.add_sub_cancel, Array.getElem?_eq_getElem (by omega), Option.getD_some]

theorem pairsFrom_eq_flatMap_zipIdx (first : Nat) (rows : List (List Nat)) :
    pairsFrom (first + 1) rows =
      (rows.zipIdx first).flatMap fun e => e.1.map (e.2 + 1, ·) := by
  induction rows generalizing first with
  | nil => rfl
  | cons row rows ih => rw [pairsFrom, ih, List.zipIdx_cons, List.flatMap_cons]

theorem checkedPairs_eq (h : table.size < wordSize) : table.checkedPairs = some table.pairs := by
  have hrows : ∀ e ∈ table.toList.zipIdx, checkedWord (e.2 + 1) = some (e.2 + 1) := by
    intro e he
    have hlt := List.snd_lt_add_of_mem_zipIdx he
    rw [Array.length_toList] at hlt
    exact checkedWord_of_lt (by omega)
  rw [checkedPairs, mapM_eq_some (g := fun e => e.1.map (e.2 + 1, ·)) fun e he => by
    dsimp only
    rw [hrows e he]
    rfl]
  rw [pairs_eq_pairsFrom, pairsFrom_eq_flatMap_zipIdx, List.flatMap_def]
  rfl

end Adjacency

theorem UndirectedGraph.checkedEdges_eq {g : UndirectedGraph} (h : g.order < wordSize) :
    g.checkedEdges = some g.edges := by
  rw [checkedEdges, Adjacency.checkedPairs_eq h]
  rfl

namespace BipartiteGraph

variable {g : BipartiteGraph}

theorem edgeCount_insertEdge_le (u v : Nat) : (g.insertEdge u v).edgeCount ≤ g.edgeCount + 1 := by
  rw [insertEdge]
  split_ifs
  · exact Nat.le_succ _
  · exact le_rfl

theorem checkedInsertEdge_eq {u v : Nat} (hu : 1 ≤ u ∧ u ≤ g.leftOrder)
    (hv : 1 ≤ v ∧ v ≤ g.rightOrder) (hcount : g.edgeCount + 1 < wordSize) :
    g.checkedInsertEdge u v = some (g.insertEdge u v) := by
  have hi : checkedSub u 1 = some (u - 1) := checkedSub_of_le hu.1
  have hj : checkedSub v 1 = some (v - 1) := checkedSub_of_le hv.1
  have hrow : g.leftTable[u - 1]? = some (g.rightNeighbors u) := Adjacency.getElem?_eq_neighbors hu
  have hcolumn : g.rightTable[v - 1]? = some (g.leftNeighbors v) :=
    Adjacency.getElem?_eq_neighbors hv
  have hedge : (g.rightNeighbors u).contains v = g.hasEdge u v := rfl
  simp only [checkedInsertEdge, insertEdge, hi, hrow, hedge, hj, hcolumn,
    checkedWord_of_lt hcount, Option.bind_eq_bind, Option.bind_some]
  split_ifs <;> rfl

theorem checkedAddEdges_eq {edges : List (Nat × Nat)}
    (hcount : g.edgeCount + edges.length < wordSize) :
    g.checkedAddEdges edges =
      .of ((g.addEdges edges).1.map fun _ => (g.addEdges edges).2) := by
  induction edges generalizing g with
  | nil => rfl
  | cons e edges ih =>
    obtain ⟨u, v⟩ := e
    rw [List.length_cons] at hcount
    rw [checkedAddEdges, addEdges, changeEach]
    dsimp only
    cases hcheck : g.checkEdge u v with
    | error e => rfl
    | ok =>
      obtain ⟨hu, hv⟩ := checkEdge_eq_ok_iff.mp hcheck
      have hle := edgeCount_insertEdge_le (g := g) u v
      rw [Checked.of_ok_bind, checkedInsertEdge_eq hu hv (by omega), Checked.step_some,
        Checked.of_ok_bind, ih (by omega)]
      rfl

theorem ofEdges_eq (left right : Nat) (edges : List (Nat × Nat)) :
    ofEdges left right edges = ((empty left right).addEdges edges).1.map fun _ =>
      ((empty left right).addEdges edges).2 := by
  rw [ofEdges]
  rcases (empty left right).addEdges edges with ⟨outcome, g⟩
  cases outcome <;> rfl

theorem checkedAddEdges_empty_eq (left right : Nat) {edges : List (Nat × Nat)}
    (hcount : edges.length < wordSize) :
    (empty left right).checkedAddEdges edges = .of (ofEdges left right edges) := by
  have hempty : (empty left right).edgeCount = 0 := rfl
  rw [checkedAddEdges_eq (by omega), ofEdges_eq]

end BipartiteGraph

end Clausal
