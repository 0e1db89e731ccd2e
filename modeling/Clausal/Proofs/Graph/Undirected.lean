import Clausal.Graph.Undirected
import Clausal.Proofs.Graph.Adjacency
import Clausal.Proofs.Outcome

/-!
# Simple graphs keep their table in order

Both ends of an edge list each other. Insertion changes two rows of the one table, which are
different rows as there are no loops (`neighbors_insertEdge`). Each edge is listed once, from its
smaller end, and a new one is listed in addition to the old ones (`edges_insertEdge_perm`). So every
graph that the operations can make is well-formed (`wellFormed_of_reachable`).
-/

namespace Clausal.UndirectedGraph

/-- Increasing rows, no loops, every edge listed at both ends and counted once. -/
structure WellFormed (g : UndirectedGraph) : Prop where
  sorted (v : Nat) : (g.neighbors v).Pairwise (· < ·)
  mem_comm (u v : Nat) : v ∈ g.neighbors u ↔ u ∈ g.neighbors v
  loopless (v : Nat) : v ∉ g.neighbors v
  edgeCount_eq : g.edgeCount = g.edges.length

/-- The graphs that can be made. -/
inductive Reachable : UndirectedGraph → Prop
  | empty (n : Nat) : Reachable (empty n)
  | addEdge {g g' : UndirectedGraph} {u v : Nat} {isNew : Bool} :
      Reachable g → g.addEdge u v = .ok (isNew, g') → Reachable g'
  | addEdges {g : UndirectedGraph} (edges : List (Nat × Nat)) :
      Reachable g → Reachable (g.addEdges edges).2

variable {g : UndirectedGraph} {u v : Nat}

theorem checkVertex_eq_ok_iff : g.checkVertex v = .ok () ↔ 1 ≤ v ∧ v ≤ g.order :=
  vertexCheck_eq_ok_iff

theorem checkEdge_eq_ok_iff : g.checkEdge u v = .ok () ↔
    (1 ≤ u ∧ u ≤ g.order) ∧ (1 ≤ v ∧ v ≤ g.order) ∧ u ≠ v := by
  rw [checkEdge, Except.check_bind_eq_ok_iff, Except.check_bind_eq_ok_iff, checkVertex_eq_ok_iff,
    checkVertex_eq_ok_iff]
  refine and_congr_right' (and_congr_right' ?_)
  split_ifs with h
  · simp only [h, ne_eq, not_true]
  · exact ⟨fun _ => h, fun _ => rfl⟩

theorem hasEdge_iff : g.hasEdge u v = true ↔ v ∈ g.neighbors u := List.contains_iff_mem

theorem mem_edges {e : Nat × Nat} : e ∈ g.edges ↔ e.2 ∈ g.neighbors e.1 ∧ e.1 < e.2 := by
  rw [edges, List.mem_filter, Adjacency.mem_pairs, decide_eq_true_eq]
  rfl

theorem pairwise_edges (hsorted : ∀ v, (g.neighbors v).Pairwise (· < ·)) :
    g.edges.Pairwise (Prod.Lex (· < ·) (· < ·)) :=
  (Adjacency.pairwise_pairs hsorted).filter _

theorem nodup_edges (hsorted : ∀ v, (g.neighbors v).Pairwise (· < ·)) : g.edges.Nodup :=
  (Adjacency.nodup_pairs hsorted).filter _

theorem wellFormed_empty (n : Nat) : (empty n).WellFormed where
  sorted v := by simp [neighbors, empty]
  mem_comm u v := by simp [neighbors, empty]
  loopless v := by simp [neighbors, empty]
  edgeCount_eq := by simp [edges, empty]

theorem hasEdge_empty (n u v : Nat) : (empty n).hasEdge u v = false := by
  rw [hasEdge, neighbors, empty, Adjacency.neighbors_isolated]
  rfl

theorem order_insertEdge (u v : Nat) : (g.insertEdge u v).order = g.order := by
  rw [insertEdge]
  split_ifs
  · rfl
  · exact (Adjacency.size_link v u).trans (Adjacency.size_link u v)

theorem neighbors_insertEdge (hu : 1 ≤ u ∧ u ≤ g.order) (hv : 1 ≤ v ∧ v ≤ g.order) (huv : u ≠ v)
    (hnew : v ∉ g.neighbors u) (w : Nat) : (g.insertEdge u v).neighbors w =
      if w = u then Adjacency.insertSorted v (g.neighbors u)
      else if w = v then Adjacency.insertSorted u (g.neighbors v)
      else g.neighbors w := by
  rw [insertEdge, if_neg (mt hasEdge_iff.mp hnew), neighbors,
    Adjacency.neighbors_link (by rwa [Adjacency.size_link]), Adjacency.neighbors_link hu,
    Adjacency.neighbors_link hu, if_neg huv.symm]
  by_cases hw : w = u
  · rw [if_neg (by rwa [hw]), if_pos hw, if_pos hw]
    rfl
  · rw [if_neg hw, if_neg hw]
    rfl

namespace WellFormed

variable (h : g.WellFormed)

include h

theorem mem_neighbors_insertEdge (hu : 1 ≤ u ∧ u ≤ g.order) (hv : 1 ≤ v ∧ v ≤ g.order)
    (huv : u ≠ v) (w x : Nat) : x ∈ (g.insertEdge u v).neighbors w ↔
      x ∈ g.neighbors w ∨ (u, v) = (w, x) ∨ (u, v) = (x, w) := by
  by_cases hnew : v ∈ g.neighbors u
  · rw [insertEdge, if_pos (hasEdge_iff.mpr hnew)]
    refine ⟨Or.inl, ?_⟩
    rintro (hx | heq | heq)
    · exact hx
    · cases heq
      exact hnew
    · cases heq
      exact (h.mem_comm u v).mp hnew
  · rw [neighbors_insertEdge hu hv huv hnew, Prod.mk.injEq, Prod.mk.injEq]
    split_ifs with hwu hwv
    · subst hwu
      rw [Adjacency.mem_insertSorted]
      tauto
    · subst hwv
      rw [Adjacency.mem_insertSorted]
      tauto
    · tauto

theorem range_of_mem (hmem : v ∈ g.neighbors u) :
    (1 ≤ u ∧ u ≤ g.order) ∧ (1 ≤ v ∧ v ≤ g.order) ∧ u ≠ v :=
  ⟨Adjacency.range_of_mem_neighbors hmem,
    Adjacency.range_of_mem_neighbors ((h.mem_comm u v).mp hmem),
    fun heq => h.loopless v (heq ▸ hmem)⟩

theorem hasEdge_iff_edges (u v : Nat) :
    g.hasEdge u v = true ↔ (u, v) ∈ g.edges ∨ (v, u) ∈ g.edges := by
  rw [hasEdge_iff, mem_edges, mem_edges, h.mem_comm v u]
  constructor
  · intro hmem
    rcases Nat.lt_or_gt_of_ne (h.range_of_mem hmem).2.2 with hlt | hlt
    · exact .inl ⟨hmem, hlt⟩
    · exact .inr ⟨hmem, hlt⟩
  · rintro (⟨hmem, -⟩ | ⟨hmem, -⟩) <;> exact hmem

variable (hu : 1 ≤ u ∧ u ≤ g.order) (hv : 1 ≤ v ∧ v ≤ g.order) (huv : u ≠ v)

include hu hv huv

theorem sorted_insertEdge (w : Nat) : ((g.insertEdge u v).neighbors w).Pairwise (· < ·) := by
  by_cases hnew : v ∈ g.neighbors u
  · rw [UndirectedGraph.insertEdge, if_pos (hasEdge_iff.mpr hnew)]
    exact h.sorted w
  · rw [neighbors_insertEdge hu hv huv hnew]
    split_ifs
    · exact Adjacency.pairwise_insertSorted (h.sorted u)
    · exact Adjacency.pairwise_insertSorted (h.sorted v)
    · exact h.sorted w

theorem mem_edges_insertEdge {e : Nat × Nat} :
    e ∈ (g.insertEdge u v).edges ↔ e = (min u v, max u v) ∨ e ∈ g.edges := by
  obtain ⟨a, b⟩ := e
  have hends : a = min u v ∧ b = max u v ↔ (u = a ∧ v = b ∨ u = b ∧ v = a) ∧ a < b := by omega
  rw [mem_edges, mem_edges, h.mem_neighbors_insertEdge hu hv huv]
  simp only [Prod.mk.injEq, hends]
  tauto

/-- A new edge is listed once, from its smaller end. -/
theorem edges_insertEdge_perm (hnew : v ∉ g.neighbors u) :
    (g.insertEdge u v).edges.Perm ((min u v, max u v) :: g.edges) := by
  have hmin : (min u v, max u v) ∉ g.edges := by
    intro hmem
    refine hnew (hasEdge_iff.mp ((h.hasEdge_iff_edges u v).mpr ?_))
    rcases Nat.le_total u v with hle | hle
    · rw [min_eq_left hle, max_eq_right hle] at hmem
      exact .inl hmem
    · rw [min_eq_right hle, max_eq_left hle] at hmem
      exact .inr hmem
  refine (List.perm_ext_iff_of_nodup (nodup_edges (h.sorted_insertEdge hu hv huv))
    (List.nodup_cons.mpr ⟨hmin, nodup_edges h.sorted⟩)).mpr fun e => ?_
  rw [h.mem_edges_insertEdge hu hv huv, List.mem_cons]

theorem insertEdge : (g.insertEdge u v).WellFormed := by
  refine ⟨h.sorted_insertEdge hu hv huv, fun w x => ?_, fun w hw => ?_, ?_⟩
  · rw [h.mem_neighbors_insertEdge hu hv huv, h.mem_neighbors_insertEdge hu hv huv, h.mem_comm w x]
    tauto
  · rcases (h.mem_neighbors_insertEdge hu hv huv w w).mp hw with hw | heq | heq
    · exact h.loopless w hw
    · cases heq
      exact huv rfl
    · cases heq
      exact huv rfl
  · by_cases hnew : v ∈ g.neighbors u
    · rw [UndirectedGraph.insertEdge, if_pos (hasEdge_iff.mpr hnew)]
      exact h.edgeCount_eq
    · rw [(h.edges_insertEdge_perm hu hv huv hnew).length_eq, List.length_cons, ← h.edgeCount_eq,
        UndirectedGraph.insertEdge, if_neg (mt hasEdge_iff.mp hnew)]

end WellFormed

theorem wellFormed_of_reachable (h : g.Reachable) : g.WellFormed := by
  induction h with
  | empty n => exact wellFormed_empty n
  | addEdge _ hadd ih =>
    obtain ⟨_, hcheck, heq⟩ := Except.map_eq_ok_iff.mp hadd
    obtain ⟨hu, hv, huv⟩ := checkEdge_eq_ok_iff.mp hcheck
    cases heq
    exact ih.insertEdge hu hv huv
  | addEdges edges _ ih =>
    refine changeEach_preserves ih fun s e _ hs hcheck => ?_
    obtain ⟨hu, hv, huv⟩ := checkEdge_eq_ok_iff.mp hcheck
    exact hs.insertEdge hu hv huv

theorem range_of_mem_edges (h : g.Reachable) {e : Nat × Nat} (he : e ∈ g.edges) :
    (1 ≤ e.1 ∧ e.1 ≤ g.order) ∧ 1 ≤ e.2 ∧ e.2 ≤ g.order := by
  obtain ⟨hsource, htarget, -⟩ := (wellFormed_of_reachable h).range_of_mem (mem_edges.mp he).1
  exact ⟨hsource, htarget⟩

end Clausal.UndirectedGraph
