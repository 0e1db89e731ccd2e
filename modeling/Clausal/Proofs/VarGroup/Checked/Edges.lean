import Clausal.Proofs.VarGroup.Checked.Graph
import Clausal.Proofs.VarGroup.Checked.Index
import Clausal.Proofs.VarGroup.Refusal

/-!
# Checked identifiers of edges

The counter of a graph is the sum of its degrees, so an offset that runs through the rows ends where
the identifiers of the group do. The offset of a vertex with an edge and the rank of the edge in its
row add up to the identifier of the edge.
-/

namespace Clausal

namespace BipartiteEdges

/-! ## Offsets -/

theorem runningOffsets_eq {next : Nat} {rows : List (List Nat)}
    (h : next + (rows.map List.length).sum ≤ maxVar + 1) :
    runningOffsets next rows = some (offsetsFrom next rows) := by
  induction rows generalizing next with
  | nil => rfl
  | cons row rows ih =>
    rw [List.map_cons, List.sum_cons, ← Nat.add_assoc] at h
    rw [runningOffsets, checkedId_of_le (by omega), Option.bind_eq_bind, Option.bind_some, ih h]
    rfl

theorem length_offsetsFrom (next : Nat) (rows : List (List Nat)) :
    (offsetsFrom next rows).length = rows.length := by
  induction rows generalizing next with
  | nil => rfl
  | cons row rows ih => rw [offsetsFrom, List.length_cons, List.length_cons, ih]

theorem checkedCreate_eq {start : Nat} (hstart : 1 ≤ start) {graph : BipartiteGraph}
    (hgraph : graph.WellFormed) (label : String) :
    checkedCreate start graph label = .of (create start graph label) := by
  refine Checked.bind_eq_of (IdRange.checkedAlloc_eq (by omega)) fun ids hids => ?_
  obtain ⟨-, -, hstop⟩ := IdRange.alloc_eq_ok_iff.mp hids
  have hsum : graph.edgeCount = (graph.leftTable.toList.map List.length).sum := by
    rw [hgraph.edgeCount_eq, BipartiteGraph.edges, Adjacency.pairs_eq_pairsFrom,
      Adjacency.length_pairsFrom]
  rw [hsum] at hstop
  rw [runningOffsets_eq hstop]
  exact Checked.bind_eq_of rfl fun format _ => rfl

/-! ## Identifiers -/

namespace LaidOut

variable {g : BipartiteEdges} (h : g.LaidOut) (hstop : g.ids.stop ≤ maxVar + 1)

include h

theorem getElem?_offsets {u : Nat} (hu : 1 ≤ u ∧ u ≤ g.graph.leftOrder) :
    g.offsets[u - 1]? = some (g.offset u) := by
  have hsize : u - 1 < g.offsets.size := by
    rw [h.offsets_eq, List.size_toArray, length_offsetsFrom, Array.length_toList]
    show u - 1 < g.graph.leftOrder
    omega
  rw [offset, Array.getElem?_eq_getElem hsize, Option.getD_some]

theorem offset_add_mem {u v j : Nat} (hj : (g.graph.rightNeighbors u)[j]? = some v) :
    g.offset u + j ∈ g.ids.toList := by
  have hedge : (u, v) ∈ g.graph.edges :=
    BipartiteGraph.mem_edges.mpr (List.mem_of_getElem? hj)
  obtain ⟨i, hi⟩ := List.mem_iff_getElem?.mp hedge
  have he : ((u, v), g.ids.first + i) ∈ g.graph.edges.zipIdx g.ids.first :=
    List.mk_add_mem_zipIdx_iff_getElem?.mpr hi
  have hid : g.offset u + j = g.ids.first + i := by
    have hlit := (h.edgeLit_of_row hj).symm.trans (h.edgeLit_of_mem he)
    exact congrArg Lit.var (Except.ok.inj hlit)
  have hlt := (List.getElem?_eq_some_iff.mp hi).1
  rw [h.length_edges] at hlt
  exact hid ▸ List.mem_range'_1.mpr (by omega)

include hstop

theorem checkedEdgeId_eq (u v : Nat) : g.checkedEdgeId u v = some (g.edgeId? u v) := by
  rw [checkedEdgeId, edgeId?]
  cases hrank : (g.graph.rightNeighbors u).idxOf? v with
  | none => rfl
  | some j =>
    have hj : (g.graph.rightNeighbors u)[j]? = some v := by
      obtain ⟨hlt, heq, -⟩ := List.idxOf?_eq_some_iff.mp hrank
      rw [List.getElem?_eq_getElem hlt, heq]
    obtain ⟨hu, -⟩ := h.wellFormed.range_of_mem (List.mem_of_getElem? hj)
    have hi : checkedSub u 1 = some (u - 1) := checkedSub_of_le hu.1
    have hid : g.offset u + j < g.ids.stop := (List.mem_range'_1.mp (h.offset_add_mem hj)).2
    dsimp only
    rw [hi, Option.bind_eq_bind, Option.bind_some, h.getElem?_offsets hu, Option.bind_some,
      checkedId_of_le (by omega)]
    rfl

theorem checkedEdgeLit_eq (u v : Nat) : g.checkedEdgeLit u v = .of (g.edgeLit u v) := by
  refine Checked.bind_eq_of rfl fun _ _ => Checked.bind_eq_of rfl fun _ _ => ?_
  rw [h.checkedEdgeId_eq hstop, Checked.step_some, Checked.of_ok_bind]
  cases g.edgeId? u v <;> rfl

/-! ## Patterns and literals -/

theorem checkedEdgesAt_eq (horder : g.graph.leftOrder < wordSize) (u v : Option Nat) :
    g.checkedEdgesAt u v = .of (g.edgesAt u v) := by
  cases u with
  | none =>
    cases v with
    | none =>
      rw [checkedEdgesAt, Adjacency.checkedPairs_eq horder]
      rfl
    | some v => rfl
  | some u =>
    cases v with
    | none => rfl
    | some v => exact Checked.bind_eq_of_map (h.checkedEdgeLit_eq hstop u v) fun _ _ => rfl

theorem checkedLitsOf_eq {es : List (Nat × Nat)} (hes : ∀ e ∈ es, e ∈ g.graph.edges) :
    Checked.step (g.checkedLitsOf es) = .of (es.mapM fun e => g.edgeLit e.1 e.2) := by
  have hid : ∀ e ∈ es, ∃ id, g.edgeId? e.1 e.2 = some id ∧
      g.edgeLit e.1 e.2 = .ok (.positive id) := by
    intro e he
    obtain ⟨j, hj⟩ := List.mem_iff_getElem?.mp (BipartiteGraph.mem_edges.mp (hes e he))
    have hnodup := (h.wellFormed.right_sorted e.1).imp Nat.ne_of_lt
    refine ⟨g.offset e.1 + j, ?_, h.edgeLit_of_row hj⟩
    rw [edgeId?, VarGroup.idxOf?_of_nodup hnodup hj, Option.map_some]
  choose! number hnumber hlit using hid
  have hids : es.map (fun e => g.edgeId? e.1 e.2) = (es.map number).map some := by
    rw [List.map_map]
    exact List.map_congr_left hnumber
  have hreduce : ((es.map number).map some).reduceOption = es.map number := by
    rw [List.reduceOption, List.filterMap_map]
    exact List.filterMap_some
  rw [checkedLitsOf, mapM_eq_some fun e _ => h.checkedEdgeId_eq hstop e.1 e.2,
    Option.bind_eq_bind, Option.bind_some, hids, hreduce, List.map_map, Except.mapM_eq_ok hlit]
  rfl

/-- Listing edges and then their literals gives the literals that the rows and columns hold. -/
theorem checkedLits_of {list : Except Error (List (Nat × Nat))}
    {lits : Except Error (List Lit)} {call : Checked (List (Nat × Nat))} (hcall : call = .of list)
    (hlist : ∀ es, list = .ok es → ∀ e ∈ es, e ∈ g.graph.edges)
    (hlits : lits = list >>= (·.mapM fun e => g.edgeLit e.1 e.2)) :
    (call >>= fun es => Checked.step (g.checkedLitsOf es)) = .of lits := by
  rw [hlits]
  exact Checked.bind_eq_of hcall fun es hes => h.checkedLitsOf_eq hstop (hlist es hes)

omit hstop in
theorem mem_of_edgesAt {u v : Option Nat} {es : List (Nat × Nat)} (hes : g.edgesAt u v = .ok es) :
    ∀ e ∈ es, e ∈ g.graph.edges := by
  rw [← Except.mapError_eq_ok_iff, h.edgesAt_kind] at hes
  split_ifs at hes
  cases hes
  exact fun e he => (List.mem_filter.mp he).1

variable (horder : g.graph.leftOrder < wordSize)

include horder

theorem checkedLitsAt_eq (u v : Option Nat) :
    (g.checkedEdgesAt u v >>= fun es => Checked.step (g.checkedLitsOf es)) =
      .of (g.litsAt u v) :=
  h.checkedLits_of hstop (h.checkedEdgesAt_eq hstop horder u v) (fun _ => h.mem_of_edgesAt)
    (h.litsAt_eq u v)

theorem checkedLits_eq (p : Pattern) : g.checkedLits p = .of (g.lits p) :=
  Checked.bind_eq_of p.checkedSides_eq fun s _ => h.checkedLitsAt_eq hstop horder s.1 s.2

omit horder in
theorem checkedEvaluate_eq (index : Index) : g.checkedEvaluate index = .of (g.evaluate index) := by
  match index with
  | [u, v] =>
    rw [checkedEvaluate, Index.checkedPair_pair, Checked.of_ok_bind]
    exact h.checkedEdgeLit_eq hstop u v
  | [] | [_] | _ :: _ :: _ :: _ => rfl

omit hstop horder in
theorem checkedToEdge_eq (l : Lit) : g.checkedToEdge l = .of (g.toEdge l) := by
  by_cases hcontains : g.ids.contains l = true
  · obtain ⟨hfirst, hlt⟩ := IdRange.contains_iff.mp hcontains
    have hplace : l.var - g.ids.first < g.graph.edges.length := by
      rw [h.length_edges]
      omega
    obtain ⟨e, he, hl⟩ : ∃ e ∈ g.graph.edges.zipIdx g.ids.first, l.var = e.2 :=
      ⟨_, VarGroup.mk_getElem_mem_zipIdx hplace g.ids.first, (Nat.add_sub_cancel' hfirst).symm⟩
    obtain ⟨j, hj, hid, hfind⟩ := h.exists_row he
    obtain ⟨hu, -⟩ := h.wellFormed.range_of_mem (List.mem_of_getElem? hj)
    have hi : checkedSub e.1.1 1 = some (e.1.1 - 1) := checkedSub_of_le hu.1
    have hrank : checkedSub e.2 (g.offset e.1.1) = some j := by
      rw [checkedSub_of_le (by omega), hid, Nat.add_sub_cancel_left]
    rw [h.toEdge_of_mem he hl hcontains, checkedToEdge, if_pos hcontains, hl, hfind]
    dsimp only
    rw [hi, Checked.step_some, Checked.of_ok_bind, h.getElem?_offsets hu, Checked.step_some,
      Checked.of_ok_bind, hrank, Checked.step_some, Checked.of_ok_bind, hj]
    rfl
  · rw [checkedToEdge, toEdge, if_neg hcontains, if_neg hcontains]
    rfl

omit hstop horder in
theorem checkedToIndex_eq (l : Lit) : g.checkedToIndex l = .of (g.toIndex l) :=
  Checked.bind_eq_of_map (h.checkedToEdge_eq l) fun _ _ => rfl

end LaidOut

end BipartiteEdges

/-! ## Edges of simple graphs -/

namespace GraphEdges

theorem checkedCreate_eq {start : Nat} (hstart : 1 ≤ start) {graph : UndirectedGraph}
    (hgraph : graph.Reachable) (horder : graph.order < wordSize)
    (hcount : graph.edgeCount < wordSize) (label : Option String) :
    checkedCreate start graph label = .of (create start graph label) := by
  have hlength := (UndirectedGraph.wellFormed_of_reachable hgraph).edgeCount_eq
  rw [checkedCreate, UndirectedGraph.checkedEdges_eq horder, Checked.step_some,
    Checked.of_ok_bind]
  refine Checked.bind_eq_of (BipartiteGraph.checkedAddEdges_empty_eq _ _ (hlength ▸ hcount))
    fun upper hupper => ?_
  have hwell := (BipartiteGraph.ofEdges_eq_ok hupper).1
  exact Checked.bind_eq_of (BipartiteEdges.checkedCreate_eq hstart hwell _) fun _ _ => rfl

theorem leftOrder_of_create {start : Nat} {graph : UndirectedGraph} {label : Option String}
    {g : GraphEdges} (h : create start graph label = .ok g) :
    g.layout.graph.leftOrder = graph.order := by
  obtain ⟨upper, hupper, hlayout⟩ := exists_layout_of_create h
  exact (BipartiteEdges.create_eq_ok hlayout).1 ▸ (BipartiteGraph.ofEdges_eq_ok hupper).2.1

namespace LaidOut

variable {g : GraphEdges} (h : g.LaidOut) (hstop : g.layout.ids.stop ≤ maxVar + 1)

include h hstop

theorem checkedEvaluate_eq (index : Index) : g.checkedEvaluate index = .of (g.evaluate index) := by
  match index with
  | [u, v] =>
    rw [checkedEvaluate, Index.checkedPair_pair, Checked.of_ok_bind]
    exact h.layout.checkedEdgeLit_eq hstop (min u v) (max u v)
  | [] | [_] | _ :: _ :: _ :: _ => rfl

theorem checkedEdgesAt_eq (horder : g.layout.graph.leftOrder < wordSize) (u v : Option Nat) :
    g.checkedEdgesAt u v = .of (g.edgesAt u v) := by
  cases u with
  | none =>
    cases v with
    | none => exact h.layout.checkedEdgesAt_eq hstop horder none none
    | some w => rfl
  | some u =>
    cases v with
    | none => rfl
    | some v => exact h.layout.checkedEdgesAt_eq hstop horder (some (min u v)) (some (max u v))

omit hstop in
theorem mem_of_edgesAt {u v : Option Nat} {es : List (Nat × Nat)} (hes : g.edgesAt u v = .ok es) :
    ∀ e ∈ es, e ∈ g.layout.graph.edges := by
  rw [← Except.mapError_eq_ok_iff, h.kind_eq_answers] at hes
  split_ifs at hes
  cases hes
  exact fun e he => (List.mem_filter.mp he).1

theorem checkedLits_eq (horder : g.layout.graph.leftOrder < wordSize) (p : Pattern) :
    g.checkedLits p = .of (g.lits p) := by
  refine Checked.bind_eq_of p.checkedSides_eq fun s _ => ?_
  exact h.layout.checkedLits_of hstop (h.checkedEdgesAt_eq hstop horder s.1 s.2)
    (fun _ => h.mem_of_edgesAt) (h.litsAt_eq s.1 s.2)

end LaidOut

end GraphEdges

/-! ## Edges of directed graphs -/

namespace DigraphEdges

theorem checkedCreate_eq {start : Nat} (hstart : 1 ≤ start) {graph : DirectedGraph}
    (hgraph : graph.Reachable) (horder : graph.order < wordSize)
    (hcount : graph.edgeCount < wordSize) (order : EdgeOrder) (label : Option String) :
    checkedCreate start graph order label = .of (create start graph order label) := by
  have hlength : graph.edgeCount = graph.edges.length :=
    (DirectedGraph.wellFormed_of_reachable hgraph).toBipartite.edgeCount_eq
  rw [checkedCreate, Adjacency.checkedPairs_eq horder, Checked.step_some, Checked.of_ok_bind]
  refine Checked.bind_eq_of (BipartiteGraph.checkedAddEdges_empty_eq _ _ ?_)
    fun layout hlayout => ?_
  · rw [List.length_map]
    exact hlength ▸ hcount
  · have hwell := (BipartiteGraph.ofEdges_eq_ok hlayout).1
    exact Checked.bind_eq_of (BipartiteEdges.checkedCreate_eq hstart hwell _) fun _ _ => rfl

theorem leftOrder_of_create {start : Nat} {graph : DirectedGraph} {order : EdgeOrder}
    {label : Option String} {g : DigraphEdges} (h : create start graph order label = .ok g) :
    g.layout.graph.leftOrder = graph.order := by
  obtain ⟨upper, hupper, hlayout⟩ := exists_layout_of_create h
  exact (BipartiteEdges.create_eq_ok hlayout).1 ▸ (BipartiteGraph.ofEdges_eq_ok hupper).2.1

namespace LaidOut

variable {g : DigraphEdges} (h : g.LaidOut) (hstop : g.layout.ids.stop ≤ maxVar + 1)

include h

theorem checkedToIndex_eq (l : Lit) : g.checkedToIndex l = .of (g.toIndex l) :=
  Checked.bind_eq_of_map (h.layout.checkedToEdge_eq l) fun _ _ => rfl

include hstop

theorem checkedEvaluate_eq (index : Index) : g.checkedEvaluate index = .of (g.evaluate index) := by
  match index with
  | [u, v] =>
    rw [checkedEvaluate, Index.checkedPair_pair, Checked.of_ok_bind]
    exact h.layout.checkedEdgeLit_eq hstop _ _
  | [] | [_] | _ :: _ :: _ :: _ => rfl

theorem checkedLits_eq (horder : g.layout.graph.leftOrder < wordSize) (p : Pattern) :
    g.checkedLits p = .of (g.lits p) := by
  rw [checkedLits, lits, sides, Pattern.checkedSides_eq]
  cases BipartiteEdges.sides p with
  | error e => rfl
  | ok s => exact h.layout.checkedLitsAt_eq hstop horder _ _

end LaidOut

end DigraphEdges

end Clausal
