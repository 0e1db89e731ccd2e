import Clausal.Proofs.Graph.Invariant
import Clausal.VarGroup

/-!
# A graph is its set of edges

Rows ascend, so a row is known from the vertices that it holds, and the tables and the count of
edges are known from the rows. Two graphs on the same vertices are therefore equal when they have
the same edges (`Invariant.insertAll_eq_iff`), in whatever order and however often the edges were
added. The groups of variables that are made from them are equal as well, so a numbering of edges
can be reproduced without their order (`GraphKind.determined_by_edges`).
-/

namespace Clausal

/-! ## Tables -/

theorem Adjacency.eq_of_mem_iff {table table' : Adjacency} (hsize : table.size = table'.size)
    (h : ∀ v, (table.neighbors v).Pairwise (· < ·))
    (h' : ∀ v, (table'.neighbors v).Pairwise (· < ·))
    (hmem : ∀ v x, x ∈ table.neighbors v ↔ x ∈ table'.neighbors v) : table = table' := by
  refine Array.ext hsize fun i hi hi' => ?_
  have hrow : table.neighbors (i + 1) = table'.neighbors (i + 1) :=
    (h _).eq_of_mem_iff (h' _) (hmem _)
  rwa [neighbors, neighbors, Array.getElem?_eq_getElem hi, Array.getElem?_eq_getElem hi',
    Option.getD_some, Option.getD_some] at hrow

/-! ## Graphs with the same edges -/

theorem BipartiteGraph.eq_of_hasEdge_iff {g g' : BipartiteGraph} (h : g.WellFormed)
    (h' : g'.WellFormed) (hleft : g.leftOrder = g'.leftOrder)
    (hright : g.rightOrder = g'.rightOrder)
    (hedge : ∀ u v, g.hasEdge u v = true ↔ g'.hasEdge u v = true) : g = g' := by
  have hmem : ∀ u v, v ∈ g.rightNeighbors u ↔ v ∈ g'.rightNeighbors u := fun u v => by
    rw [← hasEdge_iff, ← hasEdge_iff, hedge]
  have hleftTable : g.leftTable = g'.leftTable :=
    Adjacency.eq_of_mem_iff hleft h.right_sorted h'.right_sorted hmem
  have hrightTable : g.rightTable = g'.rightTable :=
    Adjacency.eq_of_mem_iff hright h.left_sorted h'.left_sorted fun v u => by
      rw [← leftNeighbors, ← leftNeighbors, ← h.mem_iff, ← h'.mem_iff, hmem]
  have hcount : g.edgeCount = g'.edgeCount := by
    rw [h.edgeCount_eq, h'.edgeCount_eq, edges, edges, hleftTable]
  cases g
  cases g'
  exact mk.injEq .. ▸ ⟨hleftTable, hrightTable, hcount⟩

theorem UndirectedGraph.eq_of_hasEdge_iff {g g' : UndirectedGraph} (h : g.WellFormed)
    (h' : g'.WellFormed) (horder : g.order = g'.order)
    (hedge : ∀ u v, g.hasEdge u v = true ↔ g'.hasEdge u v = true) : g = g' := by
  have htable : g.table = g'.table :=
    Adjacency.eq_of_mem_iff horder h.sorted h'.sorted fun u v => by
      rw [← neighbors, ← neighbors, ← hasEdge_iff, ← hasEdge_iff, hedge]
  have hcount : g.edgeCount = g'.edgeCount := by
    rw [h.edgeCount_eq, h'.edgeCount_eq, edges, edges, htable]
  cases g
  cases g'
  exact mk.injEq .. ▸ ⟨htable, hcount⟩

theorem DirectedGraph.eq_of_hasEdge_iff {g g' : DirectedGraph} (h : g.WellFormed)
    (h' : g'.WellFormed) (horder : g.order = g'.order)
    (hedge : ∀ u v, g.hasEdge u v = true ↔ g'.hasEdge u v = true) : g = g' := by
  have hright : g.toBipartite.rightOrder = g'.toBipartite.rightOrder := by
    rw [h.rightOrder_eq, h'.rightOrder_eq, horder]
  have hboth : g.toBipartite = g'.toBipartite :=
    BipartiteGraph.eq_of_hasEdge_iff h.toBipartite h'.toBipartite horder hright hedge
  cases g
  cases g'
  cases hboth
  rfl

/-! ## Adding edges in any order -/

namespace GraphKind

variable {G : Type} [GraphKind G] {start : G} {es es' : List (Nat × Nat)}
  {calls calls' : List EdgeCall}

/-- The pairs that calls ask for. -/
def asked (calls : List EdgeCall) : List (Nat × Nat) := calls.flatMap EdgeCall.edges

/-- Calls that ask for pairs that an edge can join. -/
def Allowed (start : G) (calls : List EdgeCall) : Prop :=
  ∀ e ∈ asked calls, joinable start e = true

/-- Two lists of pairs stand for the same edges. -/
def SameEdges (G : Type) [GraphKind G] (es es' : List (Nat × Nat)) : Prop :=
  ∀ e, (∃ x ∈ es, Same G x e) ↔ ∃ x ∈ es', Same G x e

theorem runAll_of_allowed (h : Allowed start calls) :
    runAll start calls = insertAll start (asked calls) := by
  have haccepted : ∀ call ∈ calls, accepted start call = call.edges := fun call hcall =>
    List.takeWhile_eq_self_iff.mpr fun e he => h e (List.mem_flatMap.mpr ⟨call, hcall, he⟩)
  rw [runAll_eq_insertAll, asked, List.flatMap_congr haccepted]

/-- What insertion never changes may be added to an invariant. -/
theorem Invariant.and_eq {P : G → Prop} (h : Invariant P) {σ : Type} {size : G → σ}
    (hsize : ∀ g u v, size (GraphKind.insertEdge g u v) = size g) (s : σ) :
    Invariant fun g => P g ∧ size g = s where
  wellFormed hg := h.wellFormed hg.1
  insertEdge hg huv := ⟨h.insertEdge hg.1 huv, (hsize _ _ _).trans hg.2⟩
  hasEdge_insertEdge hg huv := h.hasEdge_insertEdge hg.1 huv

theorem Invariant.insertAll_eq_iff {P : G → Prop} (h : Invariant P)
    (hext : ∀ g g' : G, P g → P g' →
      (∀ u v, GraphKind.hasEdge g u v = true ↔ GraphKind.hasEdge g' u v = true) → g = g')
    (hstart : P start) (hempty : ∀ u v, GraphKind.hasEdge start u v = false)
    (hes : ∀ e ∈ es, joinable start e = true) (hes' : ∀ e ∈ es', joinable start e = true) :
    GraphKind.insertAll start es = GraphKind.insertAll start es' ↔ SameEdges G es es' := by
  obtain ⟨hP, hedges⟩ := h.insertAll hstart hes
  obtain ⟨hP', hedges'⟩ := h.insertAll hstart hes'
  simp only [hempty, Bool.false_eq_true, false_or] at hedges hedges'
  constructor
  · intro heq e
    rw [← hedges, ← hedges', heq]
  · intro hsame
    refine hext _ _ hP hP' fun u v => ?_
    rw [hedges, hedges', hsame]

/-- What calls on a graph without edges lead to depends on the edges that they ask for alone, and so
do the groups of variables that are made from it. -/
structure Determined (start : G) (groups : G → Option String → List GroupSpec)
    (calls calls' : List EdgeCall) : Prop where
  /-- The graphs are equal if, and only if, the same edges are asked for. -/
  eq_iff : Allowed start calls → Allowed start calls' →
    (runAll start calls = runAll start calls' ↔ SameEdges G (asked calls) (asked calls'))
  /-- Groups are numbered alike, from whatever identifier on. -/
  create_eq : Allowed start calls → Allowed start calls' →
    SameEdges G (asked calls) (asked calls') → ∀ label, ∀ first : Nat,
      (groups (runAll start calls) label).map (GroupSpec.create first) =
        (groups (runAll start calls') label).map (GroupSpec.create first)

theorem Invariant.determined {P : G → Prop} (h : Invariant P)
    (hext : ∀ g g' : G, P g → P g' →
      (∀ u v, GraphKind.hasEdge g u v = true ↔ GraphKind.hasEdge g' u v = true) → g = g')
    (hstart : P start) (hempty : ∀ u v, GraphKind.hasEdge start u v = false)
    (groups : G → Option String → List GroupSpec) (calls calls' : List EdgeCall) :
    Determined start groups calls calls' := by
  have heq : Allowed start calls → Allowed start calls' →
      (runAll start calls = runAll start calls' ↔ SameEdges G (asked calls) (asked calls')) := by
    intro hcalls hcalls'
    rw [runAll_of_allowed hcalls, runAll_of_allowed hcalls']
    exact h.insertAll_eq_iff hext hstart hempty hcalls hcalls'
  refine ⟨heq, fun hcalls hcalls' hsame label first => ?_⟩
  rw [(heq hcalls hcalls').mpr hsame]

end GraphKind

/-! ## The three kinds -/

open GraphKind

theorem BipartiteGraph.invariant_of_size (left right : Nat) : Invariant fun g : BipartiteGraph =>
    g.WellFormed ∧ (g.leftOrder, g.rightOrder) = (left, right) :=
  invariant.and_eq (fun _ u v => Prod.ext (leftOrder_insertEdge u v) (rightOrder_insertEdge u v)) _

theorem UndirectedGraph.invariant_of_order (n : Nat) :
    Invariant fun g : UndirectedGraph => g.WellFormed ∧ g.order = n :=
  invariant.and_eq (fun _ u v => order_insertEdge u v) n

theorem DirectedGraph.invariant_of_order (n : Nat) :
    Invariant fun g : DirectedGraph => g.WellFormed ∧ g.order = n :=
  invariant.and_eq (fun _ u v => order_insertEdge u v) n

theorem BipartiteGraph.determined (left right : Nat)
    (groups : BipartiteGraph → Option String → List GroupSpec) (calls calls' : List EdgeCall) :
    Determined (empty left right) groups calls calls' := by
  refine (invariant_of_size left right).determined (fun g g' hg hg' hedge => ?_)
    ⟨wellFormed_empty left right, ?_⟩ (hasEdge_empty left right) groups calls calls'
  · obtain ⟨hleft, hright⟩ := Prod.ext_iff.mp (hg.2.trans hg'.2.symm)
    exact eq_of_hasEdge_iff hg.1 hg'.1 hleft hright hedge
  · exact Prod.ext (Adjacency.size_isolated left) (Adjacency.size_isolated right)

theorem UndirectedGraph.determined (n : Nat)
    (groups : UndirectedGraph → Option String → List GroupSpec) (calls calls' : List EdgeCall) :
    Determined (empty n) groups calls calls' := by
  refine (invariant_of_order n).determined (fun g g' hg hg' hedge => ?_)
    ⟨wellFormed_empty n, Adjacency.size_isolated n⟩ (hasEdge_empty n) groups calls calls'
  exact eq_of_hasEdge_iff hg.1 hg'.1 (hg.2.trans hg'.2.symm) hedge

theorem DirectedGraph.determined (n : Nat)
    (groups : DirectedGraph → Option String → List GroupSpec) (calls calls' : List EdgeCall) :
    Determined (empty n) groups calls calls' := by
  refine (invariant_of_order n).determined (fun g g' hg hg' hedge => ?_)
    ⟨wellFormed_empty n, Adjacency.size_isolated n⟩ (hasEdge_empty n) groups calls calls'
  exact eq_of_hasEdge_iff hg.1 hg'.1 (hg.2.trans hg'.2.symm) hedge

theorem BipartiteGraph.runAll_eq_complete_iff {left right : Nat} {calls : List EdgeCall}
    (h : Allowed (empty left right) calls) :
    runAll (empty left right) calls = complete left right ↔
      ∀ u ∈ List.range' 1 left, ∀ v ∈ List.range' 1 right, (u, v) ∈ asked calls := by
  obtain ⟨⟨hwell, hsize⟩, hedges⟩ := (invariant_of_size left right).insertAll
    ⟨wellFormed_empty left right,
      Prod.ext (Adjacency.size_isolated left) (Adjacency.size_isolated right)⟩ h
  have hmem : ∀ u v, (insertAll (empty left right) (asked calls)).hasEdge u v = true ↔
      (u, v) ∈ asked calls := fun u v => by
    refine (hedges u v).trans ?_
    rw [show GraphKind.hasEdge (empty left right) u v = false from hasEdge_empty left right u v]
    simp only [Bool.false_eq_true, false_or]
    exact exists_eq_right
  have hcomplete : ∀ u v, (complete left right).hasEdge u v = true ↔
      u ∈ List.range' 1 left ∧ v ∈ List.range' 1 right := fun u v =>
    hasEdge_iff_mem_edges.trans mem_edges_complete
  rw [runAll_of_allowed h]
  constructor
  · intro heq u hu v hv
    rw [← hmem, heq, hcomplete]
    exact ⟨hu, hv⟩
  · intro hall
    obtain ⟨hleft, hright⟩ := Prod.ext_iff.mp hsize
    refine eq_of_hasEdge_iff hwell (wellFormed_complete left right)
      (hleft.trans Array.size_replicate.symm) (hright.trans Array.size_replicate.symm) fun u v => ?_
    rw [hmem, hcomplete]
    refine ⟨fun huv => ?_, fun huv => hall u huv.1 v huv.2⟩
    -- the pairs that can be joined are those of the complete graph
    obtain ⟨hu, hv⟩ := of_decide_eq_true (h (u, v) huv)
    rw [List.mem_range'_1, List.mem_range'_1]
    rw [leftOrder, empty, Adjacency.size_isolated] at hu
    rw [rightOrder, empty, Adjacency.size_isolated] at hv
    omega

namespace GraphKind

/-- **A graph is its set of edges.** Calls that ask for the same edges, in any order and any number
of times, and for an undirected graph in either orientation, lead to equal graphs and to equal
groups of variables; calls that ask for different edges do not. Calls that ask for all pairs of two
sides lead to the complete graph. -/
theorem determined_by_edges (calls calls' : List EdgeCall) :
    (∀ left right, Determined (BipartiteGraph.empty left right)
      (fun g label => [.bipartite g label, .mapping g label]) calls calls') ∧
    (∀ n, Determined (UndirectedGraph.empty n) (fun g label => [.graph g label]) calls calls') ∧
    (∀ n, Determined (DirectedGraph.empty n)
      (fun g label => [.digraph g .pred label, .digraph g .succ label]) calls calls') ∧
    ∀ left right, Allowed (BipartiteGraph.empty left right) calls →
      (runAll (BipartiteGraph.empty left right) calls = BipartiteGraph.complete left right ↔
        ∀ u ∈ List.range' 1 left, ∀ v ∈ List.range' 1 right, (u, v) ∈ asked calls) := by
  refine ⟨fun left right => ?_, fun n => ?_, fun n => ?_, fun left right hcalls => ?_⟩
  · exact BipartiteGraph.determined left right _ calls calls'
  · exact UndirectedGraph.determined n _ calls calls'
  · exact DirectedGraph.determined n _ calls calls'
  · exact BipartiteGraph.runAll_eq_complete_iff hcalls

theorem determined_by_edges_reversed :
    Allowed (UndirectedGraph.empty 4) [.many [(2, 1), (3, 4)], .one 1 2] ∧
    Allowed (UndirectedGraph.empty 4) [.one 4 3, .one 1 2] ∧
    runAll (UndirectedGraph.empty 4) [.many [(2, 1), (3, 4)], .one 1 2] =
      runAll (UndirectedGraph.empty 4) [.one 4 3, .one 1 2] ∧
    Allowed (BipartiteGraph.empty 1 2) [.many [(1, 2), (1, 1)]] ∧
    runAll (BipartiteGraph.empty 1 2) [.many [(1, 2), (1, 1)]] = BipartiteGraph.complete 1 2 := by
  have hcalls : Allowed (UndirectedGraph.empty 4) [.many [(2, 1), (3, 4)], .one 1 2] := by
    unfold Allowed
    decide
  have hcalls' : Allowed (UndirectedGraph.empty 4) [.one 4 3, .one 1 2] := by
    unfold Allowed
    decide
  have hall : Allowed (BipartiteGraph.empty 1 2) [.many [(1, 2), (1, 1)]] := by
    unfold Allowed
    decide
  have hsame : SameEdges UndirectedGraph (asked [.many [(2, 1), (3, 4)], .one 1 2])
      (asked [.one 4 3, .one 1 2]) := by
    rintro ⟨u, v⟩
    simp only [asked, EdgeCall.edges, GraphKind.Same, List.flatMap_cons, List.flatMap_nil,
      List.cons_append, List.nil_append, List.append_nil, List.exists_mem_cons_iff,
      List.not_mem_nil, false_and, exists_false, or_false, Prod.swap_prod_mk, Prod.mk.injEq]
    omega
  obtain ⟨-, hundirected, -, -⟩ := determined_by_edges
    [.many [(2, 1), (3, 4)], .one 1 2] [.one 4 3, .one 1 2]
  obtain ⟨-, -, -, hcomplete⟩ := determined_by_edges [.many [(1, 2), (1, 1)]] []
  refine ⟨hcalls, hcalls', ((hundirected 4).eq_iff hcalls hcalls').mpr hsame, hall, ?_⟩
  exact (hcomplete 1 2 hall).mpr (by decide)

end GraphKind

end Clausal
