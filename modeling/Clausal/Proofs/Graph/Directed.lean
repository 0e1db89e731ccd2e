import Clausal.Graph.Directed
import Clausal.Proofs.Graph.Bipartite

/-!
# Directed graphs keep their tables in order

The sources and the targets of a directed graph are the two sides of a bipartite graph with the same
tables, and insertion is the same on both (`toBipartite_insertEdge`). As bipartite graphs keep their
tables in order, every directed graph that the operations can make is well-formed
(`wellFormed_of_reachable`).
-/

namespace Clausal.DirectedGraph

/-- The bipartite graph from sources to targets. -/
def toBipartite (g : DirectedGraph) : BipartiteGraph := ⟨g.succTable, g.predTable, g.edgeCount⟩

/-- The tables are in order, and both are for the same vertices. -/
structure WellFormed (g : DirectedGraph) : Prop where
  toBipartite : g.toBipartite.WellFormed
  size_eq : g.predTable.size = g.order

/-- The graphs that can be made. -/
inductive Reachable : DirectedGraph → Prop
  | empty (n : Nat) : Reachable (empty n)
  | addEdge {g g' : DirectedGraph} {u v : Nat} {isNew : Bool} :
      Reachable g → g.addEdge u v = .ok (isNew, g') → Reachable g'
  | addEdges {g : DirectedGraph} (edges : List (Nat × Nat)) :
      Reachable g → Reachable (g.addEdges edges).2

variable {g : DirectedGraph} {u v : Nat}

theorem checkVertex_eq_ok_iff : g.checkVertex v = .ok () ↔ 1 ≤ v ∧ v ≤ g.order :=
  vertexCheck_eq_ok_iff

theorem checkEdge_eq_ok_iff : g.checkEdge u v = .ok () ↔
    (1 ≤ u ∧ u ≤ g.order) ∧ 1 ≤ v ∧ v ≤ g.order := by
  rw [checkEdge, Except.check_bind_eq_ok_iff, checkVertex_eq_ok_iff, checkVertex_eq_ok_iff]

theorem toBipartite_insertEdge (u v : Nat) :
    (g.insertEdge u v).toBipartite = g.toBipartite.insertEdge u v := by
  rw [insertEdge, BipartiteGraph.insertEdge]
  exact apply_ite toBipartite _ _ _

theorem order_insertEdge (u v : Nat) : (g.insertEdge u v).order = g.order := by
  have h := g.toBipartite.leftOrder_insertEdge u v
  rwa [← toBipartite_insertEdge] at h

theorem wellFormed_empty (n : Nat) : (empty n).WellFormed :=
  ⟨BipartiteGraph.wellFormed_empty n n, rfl⟩

theorem hasEdge_empty (n u v : Nat) : (empty n).hasEdge u v = false :=
  BipartiteGraph.hasEdge_empty n n u v

namespace WellFormed

variable (h : g.WellFormed)

include h

theorem rightOrder_eq : g.toBipartite.rightOrder = g.order := h.size_eq

theorem insertEdge (hu : 1 ≤ u ∧ u ≤ g.order) (hv : 1 ≤ v ∧ v ≤ g.order) :
    (g.insertEdge u v).WellFormed := by
  refine ⟨?_, ?_⟩
  · rw [toBipartite_insertEdge]
    exact BipartiteGraph.wellFormed_insertEdge h.toBipartite hu (h.rightOrder_eq ▸ hv)
  · have hright := g.toBipartite.rightOrder_insertEdge u v
    rw [← toBipartite_insertEdge, h.rightOrder_eq] at hright
    rw [order_insertEdge]
    exact hright

theorem range_of_mem (hmem : v ∈ g.successors u) :
    (1 ≤ u ∧ u ≤ g.order) ∧ 1 ≤ v ∧ v ≤ g.order := by
  have hrange := h.toBipartite.range_of_mem hmem
  rwa [h.rightOrder_eq] at hrange

end WellFormed

theorem wellFormed_of_reachable (h : g.Reachable) : g.WellFormed := by
  induction h with
  | empty n => exact wellFormed_empty n
  | addEdge _ hadd ih =>
    obtain ⟨_, hcheck, heq⟩ := Except.map_eq_ok_iff.mp hadd
    obtain ⟨hu, hv⟩ := checkEdge_eq_ok_iff.mp hcheck
    cases heq
    exact ih.insertEdge hu hv
  | addEdges edges _ ih =>
    refine changeEach_preserves ih fun s e _ hs hcheck => ?_
    obtain ⟨hu, hv⟩ := checkEdge_eq_ok_iff.mp hcheck
    exact hs.insertEdge hu hv

theorem range_of_mem_edges (h : g.Reachable) {e : Nat × Nat} (he : e ∈ g.edges) :
    (1 ≤ e.1 ∧ e.1 ≤ g.order) ∧ 1 ≤ e.2 ∧ e.2 ≤ g.order :=
  (wellFormed_of_reachable h).range_of_mem (Adjacency.mem_pairs.mp he)

end Clausal.DirectedGraph
