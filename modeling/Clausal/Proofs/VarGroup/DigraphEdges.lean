import Clausal.Proofs.VarGroup.BipartiteEdges

/-!
# Edges of directed graphs in either order

Grouped by target, the edges are those of a layout with both ends swapped: patterns are swapped on
the way in and edges on the way out. The sides of the layout are equal, so a vertex is declared on
both of them or on none.
-/

namespace Clausal

namespace EdgeOrder

variable {α : Type}

theorem orient_orient (order : EdgeOrder) (pair : α × α) :
    order.orient (order.orient pair) = pair := by
  cases order <;> rfl

end EdgeOrder

namespace DigraphEdges

/-- What a group is created with: a layout with equal sides. -/
structure LaidOut (g : DigraphEdges) : Prop where
  layout : g.layout.LaidOut
  rightOrder_eq : g.layout.graph.rightOrder = g.layout.graph.leftOrder

section Create

variable {start : Nat} {graph : DirectedGraph} {order : EdgeOrder} {label : Option String}
  {g : DigraphEdges}

theorem exists_layout_of_create (h : create start graph order label = .ok g) :
    ∃ upper, BipartiteGraph.ofEdges graph.order graph.order (graph.edges.map order.orient) =
        .ok upper ∧
      BipartiteEdges.create start upper (label.getD BipartiteEdges.defaultLabel) =
        .ok g.layout := by
  obtain ⟨upper, hupper, h⟩ := Except.bind_eq_ok_iff.mp h
  obtain ⟨layout, hlayout, h⟩ := Except.bind_eq_ok_iff.mp h
  cases h
  exact ⟨upper, hupper, hlayout⟩

theorem create_laidOut (h : create start graph order label = .ok g) : g.LaidOut := by
  obtain ⟨upper, hupper, hlayout⟩ := exists_layout_of_create h
  obtain ⟨hwell, hleft, hright, -⟩ := BipartiteGraph.ofEdges_eq_ok hupper
  obtain ⟨hlaid, hgraph⟩ := BipartiteEdges.create_laidOut hwell hlayout
  refine ⟨hlaid, ?_⟩
  rw [hgraph, hleft, hright]

end Create

/-- The index of an edge of the layout, source first. -/
def row (g : DigraphEdges) (e : Nat × Nat) : Index :=
  [(g.order.orient e).1, (g.order.orient e).2]

variable {g : DigraphEdges}

theorem map_row : g.layout.graph.edges.map g.row =
    (g.layout.graph.edges.map g.order.orient).map fun e => [e.1, e.2] := by
  rw [List.map_map]
  rfl

theorem keeps_orient (u v : Option Nat) (e : Nat × Nat) :
    BipartiteEdges.keeps u v (g.order.orient e) =
      BipartiteEdges.keeps (g.order.orient (u, v)).1 (g.order.orient (u, v)).2 e := by
  cases g.order with
  | pred => rfl
  | succ => exact Bool.and_comm _ _

theorem mem_map_orient {pairs : List (Nat × Nat)} {e : Nat × Nat} :
    e ∈ pairs.map g.order.orient ↔ g.order.orient e ∈ pairs := by
  rw [List.mem_map]
  constructor
  · rintro ⟨e, he, rfl⟩
    rw [EdgeOrder.orient_orient]
    exact he
  · intro he
    exact ⟨_, he, EdgeOrder.orient_orient _ e⟩

theorem allows_orient (vertices : List Nat) (pairs : List (Nat × Nat)) (u v : Option Nat) :
    BipartiteEdges.allows vertices vertices (pairs.map g.order.orient) u v =
      BipartiteEdges.allows vertices vertices pairs (g.order.orient (u, v)).1
        (g.order.orient (u, v)).2 := by
  cases u with
  | none =>
    cases v with
    | none => cases g.order <;> rfl
    | some v => cases g.order <;> rfl
  | some u =>
    cases v with
    | none => cases g.order <;> rfl
    | some v =>
      rw [BipartiteEdges.allows, Bool.eq_iff_iff, List.contains_iff_mem, mem_map_orient,
        ← List.contains_iff_mem]
      cases g.order <;> rfl

namespace LaidOut

variable (h : g.LaidOut)

include h

theorem mem_ranges {e : Nat × Nat} (he : e ∈ g.layout.graph.edges.map g.order.orient) :
    e.1 ∈ List.range' 1 g.layout.graph.leftOrder ∧
      e.2 ∈ List.range' 1 g.layout.graph.leftOrder := by
  have hranges := h.layout.mem_ranges (mem_map_orient.mp he)
  rw [h.rightOrder_eq] at hranges
  revert hranges
  cases g.order with
  | pred => exact id
  | succ => exact And.symm

theorem kind_eq_answers (u v : Option Nat) :
    (g.layout.edgesAt (g.order.orient (u, v)).1 (g.order.orient (u, v)).2).mapError Error.kind =
      if (VarGroup.digraph g).answers (g.layout.graph.edges.map g.row) [u, v] then
        .ok (g.layout.graph.edges.filter fun e => (VarGroup.digraph g).fits [u, v] (g.row e))
      else .error .indexOutOfRange := by
  have hanswers : (VarGroup.digraph g).answers (g.layout.graph.edges.map g.row) [u, v] =
      BipartiteEdges.allows (List.range' 1 g.layout.graph.leftOrder)
        (List.range' 1 g.layout.graph.leftOrder) (g.layout.graph.edges.map g.order.orient) u v := by
    rw [map_row]
    exact BipartiteEdges.answers_pairs (fun _ => rfl) rfl (fun e he => h.mem_ranges he) u v
  have hfits : ∀ e, (VarGroup.digraph g).fits [u, v] (g.row e) =
      BipartiteEdges.keeps (g.order.orient (u, v)).1 (g.order.orient (u, v)).2 e := by
    intro e
    rw [← keeps_orient]
    exact BipartiteEdges.fits_pair (fun _ => rfl) u v _
  rw [h.layout.edgesAt_kind, hanswers, allows_orient, h.rightOrder_eq]
  simp only [hfits]

theorem enumerates : (VarGroup.digraph g).Enumerates (g.layout.graph.edges.map g.row) := by
  refine h.layout.enumerates rfl rfl g.row
    (fun u v => g.layout.edgesAt (g.order.orient (u, v)).1 (g.order.orient (u, v)).2)
    (fun u v => g.layout.litsAt (g.order.orient (u, v)).1 (g.order.orient (u, v)).2)
    (fun e _ => ?_) (fun _ => rfl) (fun p => ?_) (fun p => ?_) h.kind_eq_answers
    fun u v => h.layout.litsAt_eq _ _
  · show g.layout.edgeLit (g.order.orient (g.order.orient e)).1
      (g.order.orient (g.order.orient e)).2 = _
    rw [EdgeOrder.orient_orient]
  · show (g.matching p).map _ = _
    rw [matching, sides]
    cases BipartiteEdges.sides p <;> rfl
  · show g.lits p = _
    rw [lits, sides]
    cases BipartiteEdges.sides p <;> rfl

end LaidOut

end DigraphEdges

end Clausal
