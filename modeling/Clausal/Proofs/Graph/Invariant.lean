import Clausal.Proofs.Graph.Directed
import Clausal.Proofs.Graph.Kind
import Clausal.Proofs.Graph.Undirected

/-!
# Graphs keep their representation

The three kinds of graphs, with what is left to say about each: which pairs can be edges, when two
pairs are the same edge, and that one insertion keeps the tables in order. So after any calls on a
graph without edges, or on a complete bipartite one, the tables are in order, the edges are those
that were there or were added, and the next call adds what comes before its first refused edge
(`GraphKind.kept_of_made`).
-/

namespace Clausal

/-! ## Bipartite graphs -/

instance : GraphKind BipartiteGraph where
  forward := BipartiteGraph.rightNeighbors
  backward := BipartiteGraph.leftNeighbors
  hasEdge := BipartiteGraph.hasEdge
  edges := BipartiteGraph.edges
  edgeCount := BipartiteGraph.edgeCount
  joinable g e := (1 ≤ e.1 ∧ e.1 ≤ g.leftOrder) ∧ 1 ≤ e.2 ∧ e.2 ≤ g.rightOrder
  Same := Eq
  checkEdge := BipartiteGraph.checkEdge
  insertEdge := BipartiteGraph.insertEdge
  addEdge := BipartiteGraph.addEdge
  addEdges := BipartiteGraph.addEdges
  checkEdge_eq_ok_iff := by
    intro g u v
    rw [decide_eq_true_eq, BipartiteGraph.checkEdge_eq_ok_iff]
  joinable_insertEdge g u v := by
    rw [BipartiteGraph.leftOrder_insertEdge, BipartiteGraph.rightOrder_insertEdge]
  addEdge_eq _ _ _ := rfl
  addEdges_eq _ _ := rfl

theorem BipartiteGraph.invariant : GraphKind.Invariant BipartiteGraph.WellFormed where
  wellFormed h :=
    { forward_sorted := h.right_sorted
      backward_sorted := h.left_sorted
      joinable_of_mem := fun hmem => decide_eq_true (h.range_of_mem hmem)
      mem_iff := h.mem_iff
      hasEdge_iff_mem := fun _ _ => hasEdge_iff
      hasEdge_iff_edges := fun _ _ => hasEdge_iff_mem_edges.trans exists_eq_right.symm
      edges_sorted := h.pairwise_edges
      edgeCount_eq := h.edgeCount_eq }
  insertEdge h huv := by
    obtain ⟨hu, hv⟩ := of_decide_eq_true huv
    exact wellFormed_insertEdge h hu hv
  hasEdge_insertEdge _ huv := hasEdge_insertEdge (of_decide_eq_true huv).1

/-! ## Simple graphs -/

instance : GraphKind UndirectedGraph where
  forward := UndirectedGraph.neighbors
  backward := UndirectedGraph.neighbors
  hasEdge := UndirectedGraph.hasEdge
  edges := UndirectedGraph.edges
  edgeCount := UndirectedGraph.edgeCount
  joinable g e := (1 ≤ e.1 ∧ e.1 ≤ g.order) ∧ (1 ≤ e.2 ∧ e.2 ≤ g.order) ∧ e.1 ≠ e.2
  Same e e' := e = e' ∨ e = e'.swap
  checkEdge := UndirectedGraph.checkEdge
  insertEdge := UndirectedGraph.insertEdge
  addEdge := UndirectedGraph.addEdge
  addEdges := UndirectedGraph.addEdges
  checkEdge_eq_ok_iff := by
    intro g u v
    rw [decide_eq_true_eq, UndirectedGraph.checkEdge_eq_ok_iff]
  joinable_insertEdge g u v := by rw [UndirectedGraph.order_insertEdge]
  addEdge_eq _ _ _ := rfl
  addEdges_eq _ _ := rfl

theorem UndirectedGraph.invariant : GraphKind.Invariant UndirectedGraph.WellFormed where
  wellFormed {g} h :=
    { forward_sorted := h.sorted
      backward_sorted := h.sorted
      joinable_of_mem := fun hmem => decide_eq_true (h.range_of_mem hmem)
      mem_iff := h.mem_comm
      hasEdge_iff_mem := fun _ _ => hasEdge_iff
      hasEdge_iff_edges := fun u v => by
        refine (h.hasEdge_iff_edges u v).trans ?_
        simp only [GraphKind.Same, Prod.swap_prod_mk, and_or_left, exists_or, exists_eq_right]
        rfl
      edges_sorted := pairwise_edges h.sorted
      edgeCount_eq := h.edgeCount_eq }
  insertEdge h huv := by
    obtain ⟨hu, hv, hne⟩ := of_decide_eq_true huv
    exact h.insertEdge hu hv hne
  hasEdge_insertEdge h huv x y := by
    obtain ⟨hu, hv, hne⟩ := of_decide_eq_true huv
    exact hasEdge_iff.trans ((h.mem_neighbors_insertEdge hu hv hne x y).trans
      (or_congr_left hasEdge_iff.symm))

/-! ## Directed graphs -/

instance : GraphKind DirectedGraph where
  forward := DirectedGraph.successors
  backward := DirectedGraph.predecessors
  hasEdge := DirectedGraph.hasEdge
  edges := DirectedGraph.edges
  edgeCount := DirectedGraph.edgeCount
  joinable g e := (1 ≤ e.1 ∧ e.1 ≤ g.order) ∧ 1 ≤ e.2 ∧ e.2 ≤ g.order
  Same := Eq
  checkEdge := DirectedGraph.checkEdge
  insertEdge := DirectedGraph.insertEdge
  addEdge := DirectedGraph.addEdge
  addEdges := DirectedGraph.addEdges
  checkEdge_eq_ok_iff := by
    intro g u v
    rw [decide_eq_true_eq, DirectedGraph.checkEdge_eq_ok_iff]
  joinable_insertEdge g u v := by rw [DirectedGraph.order_insertEdge]
  addEdge_eq _ _ _ := rfl
  addEdges_eq _ _ := rfl

theorem DirectedGraph.invariant : GraphKind.Invariant DirectedGraph.WellFormed where
  wellFormed {g} h :=
    { forward_sorted := h.toBipartite.right_sorted
      backward_sorted := h.toBipartite.left_sorted
      joinable_of_mem := fun hmem => decide_eq_true (h.range_of_mem hmem)
      mem_iff := h.toBipartite.mem_iff
      hasEdge_iff_mem := fun _ _ => BipartiteGraph.hasEdge_iff (g := g.toBipartite)
      hasEdge_iff_edges := fun _ _ =>
        (BipartiteGraph.hasEdge_iff_mem_edges (g := g.toBipartite)).trans exists_eq_right.symm
      edges_sorted := h.toBipartite.pairwise_edges
      edgeCount_eq := h.toBipartite.edgeCount_eq }
  insertEdge h huv := by
    obtain ⟨hu, hv⟩ := of_decide_eq_true huv
    exact h.insertEdge hu hv
  hasEdge_insertEdge {g u v} _ huv x y := by
    have hedge := g.toBipartite.hasEdge_insertEdge (v := v) (of_decide_eq_true huv).1 x y
    rwa [← toBipartite_insertEdge] at hedge

/-! ## Graphs that are made and then changed -/

namespace GraphKind

/-- **Graphs keep their representation.** The graphs that are made without edges, or with all edges
between two sides, and then changed by any calls, failing ones included. -/
theorem kept_of_made (calls : List EdgeCall) :
    (∀ left right, Kept (fun _ => False) (BipartiteGraph.empty left right) calls) ∧
    (∀ left right, Kept (fun e => e.1 ∈ List.range' 1 left ∧ e.2 ∈ List.range' 1 right)
      (BipartiteGraph.complete left right) calls) ∧
    (∀ n, Kept (fun _ => False) (UndirectedGraph.empty n) calls) ∧
    ∀ n, Kept (fun _ => False) (DirectedGraph.empty n) calls := by
  refine ⟨fun left right => ?_, fun left right => ?_, fun n => ?_, fun n => ?_⟩
  · refine BipartiteGraph.invariant.kept (BipartiteGraph.wellFormed_empty left right) ?_ calls
    exact fun u v => iff_false_intro (ne_true_of_eq_false (BipartiteGraph.hasEdge_empty _ _ u v))
  · refine BipartiteGraph.invariant.kept (BipartiteGraph.wellFormed_complete left right) ?_ calls
    exact fun u v => BipartiteGraph.hasEdge_iff_mem_edges.trans BipartiteGraph.mem_edges_complete
  · refine UndirectedGraph.invariant.kept (UndirectedGraph.wellFormed_empty n) ?_ calls
    exact fun u v => iff_false_intro (ne_true_of_eq_false (UndirectedGraph.hasEdge_empty n u v))
  · refine DirectedGraph.invariant.kept (DirectedGraph.wellFormed_empty n) ?_ calls
    exact fun u v => iff_false_intro (ne_true_of_eq_false (DirectedGraph.hasEdge_empty n u v))

/-- The same edge twice, a vertex that does not exist, and an edge that is not looked at. -/
example : ((UndirectedGraph.empty 3).addEdges [(2, 1), (1, 2), (3, 4), (1, 3)]).2 =
    ⟨#[[2], [1], []], 1⟩ := by
  decide

end GraphKind

end Clausal
