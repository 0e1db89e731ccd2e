import Clausal.Proofs.Graph.Directed
import Clausal.Proofs.Graph.Undirected
import Clausal.Proofs.Label.Format
import Clausal.Proofs.VarGroup.Made

/-!
# Groups that cannot be created

A group is refused because of its arguments: its dimensions, its label, or the number of its
variables. Only the identifier of a single variable makes no valid literal. Laying out the edges of
a graph never fails, because the graph was built edge by edge (`GroupSpec.refuses_of_create`).
-/

namespace Clausal

/-- An argument is not accepted, or is no literal. -/
def Error.Refuses (e : Error) : Prop := e.kind = .invalidArgument ∨ e.kind = .invalidLiteral

theorem IdRange.kind_of_alloc {start size : Nat} {e : Error} (h : alloc start size = .error e) :
    e.kind = .invalidArgument := by
  rw [alloc] at h
  split_ifs at h
  cases h
  rfl

section Create

variable {start : Nat} {label : Option String} {e : Error}

theorem Block.kind_of_create {ranges : List Nat} (h : create start ranges label = .error e) :
    e.kind = .invalidArgument := by
  unfold create at h
  split_ifs at h
  · cases h
    rfl
  · split at h
    · cases h
      rfl
    · split at h
      · cases h
        rfl
      · dsimp only at h
        rcases Except.bind_eq_error_iff.mp h with h | ⟨format, -, h⟩
        · exact LabelFormat.kind_of_parse h
        · rcases Except.bind_eq_error_iff.mp h with h | ⟨ids, -, h⟩
          · exact IdRange.kind_of_alloc h
          · cases h

theorem Words.kind_of_create {n k : Nat} {family : Family}
    (h : create start n k family label = .error e) : e.kind = .invalidArgument := by
  rcases Except.bind_eq_error_iff.mp h with h | ⟨ids, -, h⟩
  · exact IdRange.kind_of_alloc h
  · rcases Except.bind_eq_error_iff.mp h with h | ⟨format, -, h⟩
    · exact LabelFormat.kind_of_parse h
    · cases h

theorem BipartiteEdges.kind_of_create {graph : BipartiteGraph} {label : String}
    (h : create start graph label = .error e) : e.kind = .invalidArgument := by
  rcases Except.bind_eq_error_iff.mp h with h | ⟨ids, -, h⟩
  · exact IdRange.kind_of_alloc h
  · rcases Except.bind_eq_error_iff.mp h with h | ⟨format, -, h⟩
    · exact LabelFormat.kind_of_parse h
    · cases h

theorem GraphEdges.kind_of_create {graph : UndirectedGraph} (hgraph : graph.Reachable)
    (h : create start graph label = .error e) : e.kind = .invalidArgument := by
  obtain ⟨upper, hupper⟩ := BipartiteGraph.exists_ofEdges fun edge hedge =>
    UndirectedGraph.range_of_mem_edges hgraph hedge
  rw [create, hupper, Except.ok_bind] at h
  rcases Except.bind_eq_error_iff.mp h with h | ⟨layout, -, h⟩
  · exact BipartiteEdges.kind_of_create h
  · cases h

theorem DigraphEdges.kind_of_create {graph : DirectedGraph} {order : EdgeOrder}
    (hgraph : graph.Reachable) (h : create start graph order label = .error e) :
    e.kind = .invalidArgument := by
  have hrange : ∀ edge ∈ graph.edges.map order.orient,
      (1 ≤ edge.1 ∧ edge.1 ≤ graph.order) ∧ 1 ≤ edge.2 ∧ edge.2 ≤ graph.order := by
    rw [List.forall_mem_map]
    intro edge hedge
    have hends := DirectedGraph.range_of_mem_edges hgraph hedge
    cases order with
    | pred => exact hends
    | succ => exact hends.symm
  obtain ⟨layout, hlayout⟩ := BipartiteGraph.exists_ofEdges hrange
  rw [create, hlayout, Except.ok_bind] at h
  rcases Except.bind_eq_error_iff.mp h with h | ⟨edges, -, h⟩
  · exact BipartiteEdges.kind_of_create h
  · cases h

theorem BinaryMapping.kind_of_create {n m : Nat} (h : create start n m label = .error e) :
    e.kind = .invalidArgument := by
  unfold create at h
  split_ifs at h
  · cases h
    rfl
  · dsimp only at h
    split at h
    · cases h
      rfl
    · rcases Except.bind_eq_error_iff.mp h with h | ⟨ids, -, h⟩
      · exact IdRange.kind_of_alloc h
      · rcases Except.bind_eq_error_iff.mp h with h | ⟨format, -, h⟩
        · exact LabelFormat.kind_of_parse h
        · cases h

end Create

namespace GroupSpec

/-- The graph of a description, of whatever kind, was built edge by edge. -/
def Buildable : GroupSpec → Prop
  | bipartite b _ | mapping b _ => b.Reachable
  | graph g _ => g.Reachable
  | digraph g _ _ => g.Reachable
  | singleton _ | block _ _ | words _ _ _ _ | binaryMapping _ _ _ => True

theorem Buildable.reachable {spec : GroupSpec} (h : spec.Buildable) : spec.Reachable := by
  cases spec with
  | bipartite | mapping => exact h
  | singleton | block | words | graph | digraph | binaryMapping => exact trivial

theorem refuses_of_create {spec : GroupSpec} (hspec : spec.Buildable) {start : Nat} {e : Error}
    (h : spec.create start = .error e) : e.Refuses := by
  cases spec with
  | singleton name =>
    have hid := Except.map_eq_error_iff.mp (Except.map_eq_error_iff.mp h)
    rw [checkVar] at hid
    split_ifs at hid
    cases hid
    exact Or.inr rfl
  | block ranges label => exact Or.inl (Block.kind_of_create (Except.map_eq_error_iff.mp h))
  | words n k family label => exact Or.inl (Words.kind_of_create (Except.map_eq_error_iff.mp h))
  | bipartite graph label =>
    exact Or.inl (BipartiteEdges.kind_of_create (Except.map_eq_error_iff.mp h))
  | graph graph label =>
    exact Or.inl (GraphEdges.kind_of_create hspec (Except.map_eq_error_iff.mp h))
  | digraph graph order label =>
    exact Or.inl (DigraphEdges.kind_of_create hspec (Except.map_eq_error_iff.mp h))
  | mapping graph label =>
    have hpairs := Except.map_eq_error_iff.mp (Except.map_eq_error_iff.mp h)
    exact Or.inl (BipartiteEdges.kind_of_create hpairs)
  | binaryMapping n m label =>
    exact Or.inl (BinaryMapping.kind_of_create (Except.map_eq_error_iff.mp h))

end GroupSpec

end Clausal
