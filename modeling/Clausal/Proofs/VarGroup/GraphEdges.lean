import Clausal.Proofs.VarGroup.BipartiteEdges

/-!
# Edges of simple graphs in either orientation

The layout of a simple graph joins each vertex to larger ones only. So an edge is found by its
smaller and its larger end, and the edges at a vertex are those to smaller vertices followed by
those to larger ones, which is the order of the table.
-/

namespace Clausal.GraphEdges

/-- What a group is created with: a layout with equal sides that joins smaller to larger ends. -/
structure LaidOut (g : GraphEdges) : Prop where
  layout : g.layout.LaidOut
  rightOrder_eq : g.layout.graph.rightOrder = g.layout.graph.leftOrder
  lt_of_mem : ∀ e ∈ g.layout.graph.edges, e.1 < e.2

section Create

variable {start : Nat} {graph : UndirectedGraph} {label : Option String} {g : GraphEdges}

theorem exists_layout_of_create (h : create start graph label = .ok g) :
    ∃ upper, BipartiteGraph.ofEdges graph.order graph.order graph.edges = .ok upper ∧
      BipartiteEdges.create start upper (label.getD BipartiteEdges.defaultLabel) =
        .ok g.layout := by
  obtain ⟨upper, hupper, h⟩ := Except.bind_eq_ok_iff.mp h
  obtain ⟨layout, hlayout, h⟩ := Except.bind_eq_ok_iff.mp h
  cases h
  exact ⟨upper, hupper, hlayout⟩

theorem create_laidOut (h : create start graph label = .ok g) : g.LaidOut := by
  obtain ⟨upper, hupper, hlayout⟩ := exists_layout_of_create h
  obtain ⟨hwell, hleft, hright, hedges⟩ := BipartiteGraph.ofEdges_eq_ok hupper
  obtain ⟨hlaid, hgraph⟩ := BipartiteEdges.create_laidOut hwell hlayout
  refine ⟨hlaid, ?_, fun e he => ?_⟩
  · rw [hgraph, hleft, hright]
  · have he : e ∈ graph.edges := hedges e (hgraph ▸ he)
    exact of_decide_eq_true (List.mem_filter.mp he).2

end Create

variable {g : GraphEdges}

theorem fits_pair (u v : Option Nat) (e : Nat × Nat) :
    (VarGroup.graph g).fits [u, v] [e.1, e.2] =
      (BipartiteEdges.keeps u v e || BipartiteEdges.keeps v u e) := by
  show [[e.1, e.2], [e.2, e.1]].any (Pattern.admits [u, v]) = _
  rw [List.any_cons, List.any_cons, List.any_nil, Bool.or_false, Pattern.admits_cons_cons,
    Pattern.admits_cons_cons, Pattern.admits_cons_cons, Pattern.admits_cons_cons,
    Pattern.admits_nil_left, Bool.and_true, Bool.and_true, Bool.and_comm (u.all (· == e.2))]
  rfl

namespace LaidOut

variable (h : g.LaidOut)

include h

theorem filter_incident (w : Nat) :
    g.layout.graph.edges.filter (fun e => BipartiteEdges.keeps (some w) none e ||
      BipartiteEdges.keeps none (some w) e) =
        (g.layout.graph.leftNeighbors w).map (·, w) ++
          (g.layout.graph.rightNeighbors w).map (w, ·) := by
  have hwell := h.layout.wellFormed
  -- both lists ascend, so it is enough that they have the same edges
  refine (hwell.pairwise_edges.filter _).eq_of_mem_iff
    (List.pairwise_append.mpr ⟨?_, ?_, ?_⟩) fun e => ?_
  · exact List.pairwise_map.mpr ((hwell.left_sorted w).imp (Prod.Lex.left w w))
  · exact List.pairwise_map.mpr ((hwell.right_sorted w).imp (Prod.Lex.right w))
  · intro e he e' he'
    obtain ⟨u, hu, rfl⟩ := List.mem_map.mp he
    obtain ⟨v, -, rfl⟩ := List.mem_map.mp he'
    have hedge : (u, w) ∈ g.layout.graph.edges :=
      BipartiteGraph.mem_edges.mpr ((hwell.mem_iff u w).mpr hu)
    exact Prod.Lex.left w v (h.lt_of_mem _ hedge)
  · rw [List.mem_filter, List.mem_append, ← hwell.filter_edges_right, ← hwell.filter_edges_left,
      List.mem_filter, List.mem_filter, ← and_or_left]
    refine and_congr_right fun _ => ?_
    rw [BipartiteEdges.keeps_left, BipartiteEdges.keeps_right, Bool.or_eq_true, or_comm]

theorem mem_min_max {u v : Nat} : (min u v, max u v) ∈ g.layout.graph.edges ↔
    (u, v) ∈ g.layout.graph.edges ∨ (v, u) ∈ g.layout.graph.edges := by
  rcases Nat.le_total u v with hle | hle
  · rw [Nat.min_eq_left hle, Nat.max_eq_right hle]
    refine ⟨Or.inl, fun hmem => ?_⟩
    rcases hmem with hmem | hmem
    · exact hmem
    · have := h.lt_of_mem _ hmem
      omega
  · rw [Nat.min_eq_right hle, Nat.max_eq_left hle]
    refine ⟨Or.inr, fun hmem => ?_⟩
    rcases hmem with hmem | hmem
    · have := h.lt_of_mem _ hmem
      omega
    · exact hmem

theorem answers_pair (u v : Nat) :
    (VarGroup.graph g).answers (g.layout.graph.edges.map fun e => [e.1, e.2])
      [some u, some v] = g.layout.graph.edges.contains (min u v, max u v) := by
  show ((List.range' 1 g.order).contains u && ((List.range' 1 g.order).contains v && true) &&
    [[u, v], [v, u]].any (g.layout.graph.edges.map fun e => [e.1, e.2]).contains) = _
  have hranges : ∀ {u v : Nat}, (u, v) ∈ g.layout.graph.edges →
      u ∈ List.range' 1 g.order ∧ v ∈ List.range' 1 g.order := by
    intro u v hmem
    have := h.layout.mem_ranges hmem
    rw [h.rightOrder_eq] at this
    exact this
  rw [Bool.and_true, List.any_cons, List.any_cons, List.any_nil, Bool.or_false, Bool.eq_iff_iff,
    Bool.and_eq_true, Bool.and_eq_true, Bool.or_eq_true]
  simp only [List.contains_iff_mem, BipartiteEdges.mem_map_pair]
  rw [h.mem_min_max]
  refine ⟨fun hall => hall.2, fun hmem => ⟨?_, hmem⟩⟩
  rcases hmem with hmem | hmem
  · exact hranges hmem
  · exact (hranges hmem).symm

theorem keeps_min_max {u v : Nat} {e : Nat × Nat} (he : e ∈ g.layout.graph.edges) :
    BipartiteEdges.keeps (some (min u v)) (some (max u v)) e =
      (BipartiteEdges.keeps (some u) (some v) e || BipartiteEdges.keeps (some v) (some u) e) := by
  have hlt := h.lt_of_mem e he
  simp only [BipartiteEdges.keeps, Option.all_some]
  rw [Bool.eq_iff_iff, Bool.or_eq_true, Bool.and_eq_true, Bool.and_eq_true, Bool.and_eq_true]
  simp only [beq_iff_eq]
  omega

theorem kind_eq_answers (u v : Option Nat) : (g.edgesAt u v).mapError Error.kind =
    if (VarGroup.graph g).answers (g.layout.graph.edges.map fun e => [e.1, e.2]) [u, v] then
      .ok (g.layout.graph.edges.filter fun e => (VarGroup.graph g).fits [u, v] [e.1, e.2])
    else .error .indexOutOfRange := by
  simp only [fits_pair]
  cases u with
  | none =>
    cases v with
    | none =>
      rw [edgesAt, h.layout.edgesAt_kind]
      simp only [Bool.or_self]
      rfl
    | some w =>
      show _ = if (true && ((List.range' 1 g.order).contains w && true) && true) then _ else _
      rw [Bool.and_true, Bool.and_true, Bool.true_and, order, edgesAt, Except.mapError_map,
        BipartiteEdges.checkLeft_kind, ← h.filter_incident w]
      simp only [Bool.or_comm (BipartiteEdges.keeps none (some w) _)]
      split_ifs <;> rfl
  | some u =>
    cases v with
    | none =>
      show _ = if ((List.range' 1 g.order).contains u && (true && true) && true) then _ else _
      rw [Bool.and_true, Bool.and_true, Bool.and_true, order, edgesAt, Except.mapError_map,
        BipartiteEdges.checkLeft_kind, ← h.filter_incident u]
      split_ifs <;> rfl
    | some v =>
      rw [edgesAt, h.layout.edgesAt_kind, h.answers_pair,
        List.filter_congr fun e he => h.keeps_min_max he]
      rfl

theorem litsAt_incident (w : Nat) :
    ((g.layout.graph.checkLeft w).map fun _ =>
      (g.layout.columnIds w ++ g.layout.rowIds w).map Lit.positive) =
    ((g.layout.graph.checkLeft w).map fun _ =>
      (g.layout.graph.leftNeighbors w).map (·, w) ++
        (g.layout.graph.rightNeighbors w).map (w, ·)) >>=
      (·.mapM fun e => g.layout.edgeLit e.1 e.2) := by
  cases hleft : g.layout.graph.checkLeft w with
  | error e => rfl
  | ok =>
    have hw := BipartiteGraph.checkLeft_eq_ok_iff.mp hleft
    rw [← h.rightOrder_eq] at hw
    rw [Except.map_ok, Except.map_ok, Except.ok_bind, List.mapM_append, h.layout.mapM_column hw,
      h.layout.mapM_row w, List.map_append]
    rfl

theorem litsAt_eq (u v : Option Nat) :
    g.litsAt u v = g.edgesAt u v >>= (·.mapM fun e => g.layout.edgeLit e.1 e.2) := by
  cases u with
  | none =>
    cases v with
    | none => exact h.layout.litsAt_eq none none
    | some w => exact h.litsAt_incident w
  | some u =>
    cases v with
    | none => exact h.litsAt_incident u
    | some v => exact h.layout.litsAt_eq (some (min u v)) (some (max u v))

theorem enumerates :
    (VarGroup.graph g).Enumerates (g.layout.graph.edges.map fun e => [e.1, e.2]) := by
  refine h.layout.enumerates rfl rfl _ g.edgesAt g.litsAt (fun e he => ?_) (fun _ => rfl)
    (fun _ => rfl) (fun _ => rfl) h.kind_eq_answers h.litsAt_eq
  have hle := (h.lt_of_mem e he).le
  show g.layout.edgeLit (min e.1 e.2) (max e.1 e.2) = _
  rw [Nat.min_eq_left hle, Nat.max_eq_right hle]

end LaidOut

end Clausal.GraphEdges
