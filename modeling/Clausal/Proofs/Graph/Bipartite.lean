import Clausal.Graph.Bipartite
import Clausal.Proofs.Graph.Adjacency
import Clausal.Proofs.Outcome

/-!
# Bipartite graphs keep their tables in order

Every graph that the operations can make is well-formed: rows are increasing, the two tables list
the same edges, and the edges are counted (`wellFormed_of_reachable`). The edges of a well-formed
graph at one of its vertices are the row of that vertex, on either side. A graph with enough
vertices takes any edges (`exists_ofEdges`).
-/

namespace Clausal.BipartiteGraph

/-- Increasing rows, the same edges in both tables, and a count of them. -/
structure WellFormed (g : BipartiteGraph) : Prop where
  right_sorted (u : Nat) : (g.rightNeighbors u).Pairwise (· < ·)
  left_sorted (v : Nat) : (g.leftNeighbors v).Pairwise (· < ·)
  mem_iff (u v : Nat) : v ∈ g.rightNeighbors u ↔ u ∈ g.leftNeighbors v
  edgeCount_eq : g.edgeCount = g.edges.length

/-- The graphs that can be made. -/
inductive Reachable : BipartiteGraph → Prop
  | empty (left right : Nat) : Reachable (empty left right)
  | complete (left right : Nat) : Reachable (complete left right)
  | addEdge {g g' : BipartiteGraph} {u v : Nat} {isNew : Bool} :
      Reachable g → g.addEdge u v = .ok (isNew, g') → Reachable g'
  | addEdges {g : BipartiteGraph} (edges : List (Nat × Nat)) :
      Reachable g → Reachable (g.addEdges edges).2

variable {g : BipartiteGraph}

/-! ## Checks -/

theorem checkLeft_eq_ok_iff {u : Nat} : g.checkLeft u = .ok () ↔ 1 ≤ u ∧ u ≤ g.leftOrder :=
  vertexCheck_eq_ok_iff

theorem checkRight_eq_ok_iff {v : Nat} : g.checkRight v = .ok () ↔ 1 ≤ v ∧ v ≤ g.rightOrder :=
  vertexCheck_eq_ok_iff

theorem checkEdge_eq_ok_iff {u v : Nat} : g.checkEdge u v = .ok () ↔
    (1 ≤ u ∧ u ≤ g.leftOrder) ∧ 1 ≤ v ∧ v ≤ g.rightOrder := by
  rw [checkEdge, Except.check_bind_eq_ok_iff, checkLeft_eq_ok_iff, checkRight_eq_ok_iff]

/-! ## Reachable graphs -/

theorem hasEdge_iff {u v : Nat} : g.hasEdge u v = true ↔ v ∈ g.rightNeighbors u :=
  List.contains_iff_mem

theorem wellFormed_empty (left right : Nat) : (empty left right).WellFormed where
  right_sorted u := by simp [rightNeighbors, empty]
  left_sorted v := by simp [leftNeighbors, empty]
  mem_iff u v := by simp [rightNeighbors, leftNeighbors, empty]
  edgeCount_eq := by simp [edges, empty]

theorem hasEdge_empty (left right u v : Nat) : (empty left right).hasEdge u v = false := by
  rw [hasEdge, rightNeighbors, empty, Adjacency.neighbors_isolated]
  rfl

theorem neighbors_replicate (n v : Nat) (row : List Nat) :
    Adjacency.neighbors (Array.replicate n row) v = if 1 ≤ v ∧ v ≤ n then row else [] := by
  cases v with
  | zero => rfl
  | succ i =>
    rw [Adjacency.neighbors, Array.getElem?_replicate]
    by_cases hi : i < n
    · rw [if_pos hi, if_pos (by omega), Option.getD_some]
    · rw [if_neg hi, if_neg (by omega), Option.getD_none]

theorem wellFormed_complete (left right : Nat) : (complete left right).WellFormed where
  right_sorted u := by
    rw [rightNeighbors, complete, neighbors_replicate]
    split_ifs
    · exact List.pairwise_lt_range' 1
    · exact List.Pairwise.nil
  left_sorted v := by
    rw [leftNeighbors, complete, neighbors_replicate]
    split_ifs
    · exact List.pairwise_lt_range' 1
    · exact List.Pairwise.nil
  mem_iff u v := by
    rw [rightNeighbors, leftNeighbors, complete, neighbors_replicate, neighbors_replicate]
    split_ifs <;> simp only [List.mem_range'_1, List.not_mem_nil, iff_false, false_iff] <;> omega
  edgeCount_eq := by
    rw [edges, complete, Adjacency.pairs_eq_pairsFrom, Adjacency.length_pairsFrom]
    simp

theorem wellFormed_insertEdge (h : g.WellFormed) {u v : Nat} (hu : 1 ≤ u ∧ u ≤ g.leftOrder)
    (hv : 1 ≤ v ∧ v ≤ g.rightOrder) : (g.insertEdge u v).WellFormed := by
  rw [insertEdge]
  split_ifs with hedge
  · exact h
  · rw [hasEdge_iff] at hedge
    have hright : ∀ w, (g.leftTable.link u v).neighbors w =
        if w = u then Adjacency.insertSorted v (g.rightNeighbors u) else g.rightNeighbors w :=
      Adjacency.neighbors_link hu v
    have hleft : ∀ w, (g.rightTable.link v u).neighbors w =
        if w = v then Adjacency.insertSorted u (g.leftNeighbors v) else g.leftNeighbors w :=
      Adjacency.neighbors_link hv u
    refine ⟨fun w => ?_, fun w => ?_, fun w x => ?_, ?_⟩
    · rw [rightNeighbors, hright]
      split_ifs
      · exact Adjacency.pairwise_insertSorted (h.right_sorted u)
      · exact h.right_sorted w
    · rw [leftNeighbors, hleft]
      split_ifs
      · exact Adjacency.pairwise_insertSorted (h.left_sorted v)
      · exact h.left_sorted w
    · rw [rightNeighbors, leftNeighbors, hright, hleft]
      have hmem := h.mem_iff w x
      split_ifs with hw hx hx
      · subst hw hx
        rw [Adjacency.mem_insertSorted, Adjacency.mem_insertSorted, hmem]
        tauto
      · subst hw
        rw [Adjacency.mem_insertSorted, hmem]
        tauto
      · subst hx
        rw [Adjacency.mem_insertSorted, hmem]
        tauto
      · exact hmem
    · rw [edges, Adjacency.length_pairs_link hu hedge, h.edgeCount_eq, edges]

theorem wellFormed_of_reachable (h : g.Reachable) : g.WellFormed := by
  induction h with
  | empty left right => exact wellFormed_empty left right
  | complete left right => exact wellFormed_complete left right
  | addEdge _ hadd ih =>
    obtain ⟨_, hcheck, heq⟩ := Except.map_eq_ok_iff.mp hadd
    obtain ⟨hu, hv⟩ := checkEdge_eq_ok_iff.mp hcheck
    cases heq
    exact wellFormed_insertEdge ih hu hv
  | addEdges edges _ ih =>
    refine changeEach_preserves ih fun s e _ hs hcheck => ?_
    obtain ⟨hu, hv⟩ := checkEdge_eq_ok_iff.mp hcheck
    exact wellFormed_insertEdge hs hu hv

/-! ## Edges -/

theorem mem_edges {e : Nat × Nat} : e ∈ g.edges ↔ e.2 ∈ g.rightNeighbors e.1 :=
  Adjacency.mem_pairs

theorem hasEdge_iff_mem_edges {u v : Nat} : g.hasEdge u v = true ↔ (u, v) ∈ g.edges :=
  hasEdge_iff.trans (mem_edges (e := (u, v))).symm

theorem mem_edges_complete {left right : Nat} {e : Nat × Nat} : e ∈ (complete left right).edges ↔
    e.1 ∈ List.range' 1 left ∧ e.2 ∈ List.range' 1 right := by
  rw [mem_edges, rightNeighbors, complete, neighbors_replicate, List.mem_range'_1]
  by_cases hleft : 1 ≤ e.1 ∧ e.1 ≤ left
  · rw [if_pos hleft]
    simp only [iff_and_self]
    omega
  · rw [if_neg hleft]
    simp only [List.not_mem_nil, false_iff]
    omega

theorem leftOrder_insertEdge (u v : Nat) : (g.insertEdge u v).leftOrder = g.leftOrder := by
  rw [insertEdge]
  split_ifs
  · rfl
  · exact Adjacency.size_link u v

theorem rightOrder_insertEdge (u v : Nat) : (g.insertEdge u v).rightOrder = g.rightOrder := by
  rw [insertEdge]
  split_ifs
  · rfl
  · exact Adjacency.size_link v u

theorem mem_edges_insertEdge {u v : Nat} (hu : 1 ≤ u ∧ u ≤ g.leftOrder) {e : Nat × Nat} :
    e ∈ (g.insertEdge u v).edges ↔ e = (u, v) ∨ e ∈ g.edges := by
  rw [insertEdge]
  split_ifs with hedge
  · rw [hasEdge_iff] at hedge
    refine ⟨Or.inr, fun he => ?_⟩
    rcases he with rfl | he
    · exact mem_edges.mpr hedge
    · exact he
  · rw [mem_edges, mem_edges, rightNeighbors, Adjacency.neighbors_link hu, Prod.ext_iff]
    by_cases he : e.1 = u
    · rw [if_pos he, Adjacency.mem_insertSorted, he, rightNeighbors]
      tauto
    · rw [if_neg he, rightNeighbors]
      tauto

theorem hasEdge_insertEdge {u v : Nat} (hu : 1 ≤ u ∧ u ≤ g.leftOrder) (x y : Nat) :
    (g.insertEdge u v).hasEdge x y = true ↔ g.hasEdge x y = true ∨ (u, v) = (x, y) := by
  rw [hasEdge_iff_mem_edges, mem_edges_insertEdge hu, ← hasEdge_iff_mem_edges, or_comm,
    eq_comm (b := (u, v))]

theorem ofEdges_eq_ok {left right : Nat} {edges : List (Nat × Nat)}
    (h : ofEdges left right edges = .ok g) : g.WellFormed ∧ g.leftOrder = left ∧
      g.rightOrder = right ∧ ∀ e ∈ g.edges, e ∈ edges := by
  have hmade : g = ((empty left right).addEdges edges).2 := by
    rw [ofEdges] at h
    split at h
    · rename_i hadd
      cases h
      rw [hadd]
    · cases h
  have hkept : g.leftOrder = left ∧ g.rightOrder = right ∧ ∀ e ∈ g.edges, e ∈ edges := by
    rw [hmade, addEdges]
    refine changeEach_preserves (P := fun s : BipartiteGraph => s.leftOrder = left ∧
      s.rightOrder = right ∧ ∀ e ∈ s.edges, e ∈ edges) ?_ fun s x hx hs hcheck => ?_
    · refine ⟨Adjacency.size_isolated left, Adjacency.size_isolated right, fun e he => ?_⟩
      rw [mem_edges, rightNeighbors, empty, Adjacency.neighbors_isolated] at he
      cases he
    · obtain ⟨hleft, hright, hedges⟩ := hs
      obtain ⟨hu, -⟩ := checkEdge_eq_ok_iff.mp hcheck
      refine ⟨(leftOrder_insertEdge _ _).trans hleft, (rightOrder_insertEdge _ _).trans hright,
        fun e he => ?_⟩
      rcases (mem_edges_insertEdge hu).mp he with rfl | he
      · exact hx
      · exact hedges e he
  refine ⟨?_, hkept⟩
  rw [hmade]
  exact wellFormed_of_reachable (.addEdges edges (.empty left right))

theorem exists_ofEdges {left right : Nat} {edges : List (Nat × Nat)}
    (h : ∀ e ∈ edges, (1 ≤ e.1 ∧ e.1 ≤ left) ∧ 1 ≤ e.2 ∧ e.2 ≤ right) :
    ∃ g, ofEdges left right edges = .ok g := by
  have hadd : ((BipartiteGraph.empty left right).addEdges edges).1 = .ok () := by
    refine changeEach_eq_ok (P := fun g : BipartiteGraph => g.leftOrder = left ∧
      g.rightOrder = right) ?_ (fun g e he hg => ?_) fun g e hg => ?_
    · exact ⟨Adjacency.size_isolated left, Adjacency.size_isolated right⟩
    · rw [checkEdge_eq_ok_iff, hg.1, hg.2]
      exact h e he
    · exact ⟨(leftOrder_insertEdge _ _).trans hg.1, (rightOrder_insertEdge _ _).trans hg.2⟩
  rw [ofEdges]
  split
  · rename_i g _
    exact ⟨g, rfl⟩
  · rename_i e g heq
    rw [heq] at hadd
    cases hadd

namespace WellFormed

variable (h : g.WellFormed)

include h

theorem range_of_mem {u v : Nat} (hmem : v ∈ g.rightNeighbors u) :
    (1 ≤ u ∧ u ≤ g.leftOrder) ∧ 1 ≤ v ∧ v ≤ g.rightOrder :=
  ⟨Adjacency.range_of_mem_neighbors hmem,
    Adjacency.range_of_mem_neighbors ((h.mem_iff u v).mp hmem)⟩

theorem pairwise_edges : g.edges.Pairwise (Prod.Lex (· < ·) (· < ·)) :=
  Adjacency.pairwise_pairs h.right_sorted

theorem nodup_edges : g.edges.Nodup := Adjacency.nodup_pairs h.right_sorted

theorem filter_edges_left (u : Nat) :
    g.edges.filter (·.1 = u) = (g.rightNeighbors u).map (u, ·) := by
  refine (h.pairwise_edges.filter _).eq_of_mem_iff
    (List.pairwise_map.mpr ((h.right_sorted u).imp (Prod.Lex.right u))) fun e => ?_
  rw [List.mem_filter, mem_edges, List.mem_map, decide_eq_true_eq]
  constructor
  · rintro ⟨hmem, rfl⟩
    exact ⟨e.2, hmem, rfl⟩
  · rintro ⟨v, hv, rfl⟩
    exact ⟨hv, rfl⟩

theorem filter_edges_right (v : Nat) :
    g.edges.filter (·.2 = v) = (g.leftNeighbors v).map (·, v) := by
  refine (h.pairwise_edges.filter _).eq_of_mem_iff
    (List.pairwise_map.mpr ((h.left_sorted v).imp (Prod.Lex.left v v))) fun e => ?_
  rw [List.mem_filter, mem_edges, h.mem_iff, List.mem_map, decide_eq_true_eq]
  constructor
  · rintro ⟨hmem, rfl⟩
    exact ⟨e.1, hmem, rfl⟩
  · rintro ⟨u, hu, rfl⟩
    exact ⟨hu, rfl⟩

end WellFormed

end Clausal.BipartiteGraph
