import Clausal.Proofs.Graph.Bipartite
import Clausal.Proofs.VarGroup.Table

/-!
# Edges of bipartite graphs are numbered row by row

The offset of a left vertex is the number of the first edge of its row, and the columns hold the
numbers of the edges of each right vertex. An identifier is found again by the first offset that is
larger: rows without edges share their offset with the next row, so the row before that offset is
the one with the edge.
-/

namespace Clausal.BipartiteEdges

/-! ## Offsets -/

theorem le_of_mem_offsetsFrom {next offset : Nat} {rows : List (List Nat)}
    (h : offset ∈ offsetsFrom next rows) : next ≤ offset := by
  induction rows generalizing next with
  | nil => cases h
  | cons row rows ih =>
    rcases List.mem_cons.mp h with rfl | h
    · exact le_rfl
    · have := ih h
      omega

theorem exists_row_of_mem_zipIdx {first next : Nat} {rows : List (List Nat)}
    {e : (Nat × Nat) × Nat} (h : e ∈ (Adjacency.pairsFrom first rows).zipIdx next) :
    ∃ (i j : Nat) (row : List Nat), e.1.1 = first + i ∧ rows[i]? = some row ∧
      row[j]? = some e.1.2 ∧ (offsetsFrom next rows)[i]? = some (e.2 - j) ∧ j ≤ e.2 := by
  induction rows generalizing first next with
  | nil => cases h
  | cons row rows ih =>
    rw [Adjacency.pairsFrom, List.zipIdx_append, List.mem_append, List.length_map] at h
    rcases h with h | h
    · obtain ⟨hnext, hget⟩ := List.mem_zipIdx_iff_le_and_getElem?_sub.mp h
      rw [List.getElem?_map, Option.map_eq_some_iff] at hget
      obtain ⟨w, hw, hew⟩ := hget
      refine ⟨0, e.2 - next, row, ?_, rfl, ?_, ?_, by omega⟩
      · rw [← hew]
        rfl
      · rw [hw, ← hew]
      · rw [offsetsFrom, List.getElem?_cons_zero]
        exact congrArg some (by omega)
    · obtain ⟨i, j, row', hfirst, hrow, hj, hoffset, hle⟩ := ih h
      exact ⟨i + 1, j, row', by omega, hrow, hj, hoffset, hle⟩

/-- The first offset beyond an edge of a row is that of the next row. -/
theorem findIdx_offsetsFrom {next i j offset : Nat} {rows : List (List Nat)} {row : List Nat}
    (hrow : rows[i]? = some row) (hj : j < row.length)
    (hoffset : (offsetsFrom next rows)[i]? = some offset) :
    (offsetsFrom next rows).findIdx (offset + j < ·) = i + 1 := by
  induction rows generalizing next i with
  | nil => cases hrow
  | cons row' rows ih =>
    have hnext := le_of_mem_offsetsFrom (List.mem_of_getElem? hoffset)
    have hbefore : decide (offset + j < next) = false := decide_eq_false (by omega)
    rw [offsetsFrom, List.findIdx_cons, hbefore, cond_false]
    cases i with
    | zero =>
      cases hrow
      cases hoffset
      -- the next row, if there is one, starts right after this one
      cases rows with
      | nil => rfl
      | cons row'' rows =>
        rw [offsetsFrom, List.findIdx_cons, decide_eq_true (by omega)]
        rfl
    | succ i => rw [ih hrow hoffset]

/-! ## Columns -/

/-- Each column collects the numbers of the edges of its vertex, in their order. -/
theorem getElem?_columns {es : List ((Nat × Nat) × Nat)} {n v : Nat} (hv : 1 ≤ v ∧ v ≤ n)
    (hes : ∀ e ∈ es, 1 ≤ e.1.2) :
    (es.foldr (fun ((_, v), id) columns => columns.modify (v - 1) (id :: ·))
      (Array.replicate n ([] : List Nat)))[v - 1]? =
        some ((es.filter fun e => e.1.2 = v).map (·.2)) := by
  induction es with
  | nil =>
    rw [List.foldr_nil, Array.getElem?_replicate, if_pos (by omega)]
    rfl
  | cons e es ih =>
    have hpos := hes e List.mem_cons_self
    have hrest := ih fun e' he' => hes e' (List.mem_cons_of_mem e he')
    rw [List.foldr_cons, Array.getElem?_modify, hrest]
    by_cases hev : e.1.2 = v
    · rw [if_pos (by rw [hev]), List.filter_cons_of_pos (by simpa using hev)]
      rfl
    · have hne : ¬ e.1.2 - 1 = v - 1 := by omega
      rw [if_neg hne, List.filter_cons_of_neg (by simpa using hev)]

/-! ## The layout -/

/-- What a group is created with: the edges of a well-formed graph, the offsets of its rows and its
columns. -/
structure LaidOut (g : BipartiteEdges) : Prop where
  wellFormed : g.graph.WellFormed
  size_eq : g.ids.size = g.graph.edgeCount
  offsets_eq : g.offsets = (offsetsFrom g.ids.first g.graph.leftTable.toList).toArray
  columns_eq : g.columns = columnsFrom g.ids.first g.graph

section Create

variable {start : Nat} {graph : BipartiteGraph} {label : String} {g : BipartiteEdges}

theorem create_eq_ok (h : create start graph label = .ok g) :
    g.graph = graph ∧ g.ids = ⟨start, graph.edgeCount⟩ ∧
      g.offsets = (offsetsFrom start graph.leftTable.toList).toArray ∧
      g.columns = columnsFrom start graph := by
  unfold create at h
  obtain ⟨ids, hids, h⟩ := Except.bind_eq_ok_iff.mp h
  obtain ⟨format, -, h⟩ := Except.bind_eq_ok_iff.mp h
  obtain ⟨rfl, -⟩ := IdRange.alloc_eq_ok_iff.mp hids
  cases h
  exact ⟨rfl, rfl, rfl, rfl⟩

theorem create_laidOut (hgraph : graph.WellFormed) (h : create start graph label = .ok g) :
    g.LaidOut ∧ g.graph = graph := by
  obtain ⟨rfl, hids, hoffsets, hcolumns⟩ := create_eq_ok h
  refine ⟨⟨hgraph, ?_, ?_, ?_⟩, rfl⟩
  · rw [hids]
  · rw [hids, hoffsets]
  · rw [hids, hcolumns]

theorem create_first (h : create start graph label = .ok g) : g.ids.first = start :=
  congrArg IdRange.first (create_eq_ok h).2.1

end Create

theorem mem_of_mem_zipIdx {g : BipartiteEdges} {e : (Nat × Nat) × Nat}
    (he : e ∈ g.graph.edges.zipIdx g.ids.first) :
    e.1.2 ∈ g.graph.rightNeighbors e.1.1 :=
  BipartiteGraph.mem_edges.mp (List.fst_mem_of_mem_zipIdx he)

namespace LaidOut

variable {g : BipartiteEdges} (h : g.LaidOut)

include h

theorem length_edges : g.graph.edges.length = g.ids.size := by
  rw [h.size_eq, h.wellFormed.edgeCount_eq]

theorem exists_row {e : (Nat × Nat) × Nat} (he : e ∈ g.graph.edges.zipIdx g.ids.first) :
    ∃ j, (g.graph.rightNeighbors e.1.1)[j]? = some e.1.2 ∧ e.2 = g.offset e.1.1 + j ∧
      g.offsets.findIdx (e.2 < ·) = e.1.1 := by
  rw [BipartiteGraph.edges, Adjacency.pairs_eq_pairsFrom] at he
  obtain ⟨i, j, row, hvertex, hrow, hj, hoffset, hle⟩ := exists_row_of_mem_zipIdx he
  have hneighbors : g.graph.rightNeighbors e.1.1 = row := by
    rw [BipartiteGraph.rightNeighbors, hvertex, Nat.add_comm, Adjacency.neighbors,
      ← Array.getElem?_toList, hrow]
    rfl
  have hfirst : g.offset e.1.1 = e.2 - j := by
    rw [offset, hvertex, Nat.add_sub_cancel_left, h.offsets_eq, List.getElem?_toArray, hoffset]
    rfl
  refine ⟨j, ?_, by omega, ?_⟩
  · rw [hneighbors, hj]
  · have hlt : j < row.length := (List.getElem?_eq_some_iff.mp hj).1
    have hfind := findIdx_offsetsFrom hrow hlt hoffset
    rw [Nat.sub_add_cancel hle] at hfind
    rw [h.offsets_eq, List.findIdx_toArray, hfind, hvertex, Nat.add_comm]

theorem edgeLit_of_row {u v j : Nat} (hj : (g.graph.rightNeighbors u)[j]? = some v) :
    g.edgeLit u v = .ok (.positive (g.offset u + j)) := by
  obtain ⟨hu, hv⟩ := h.wellFormed.range_of_mem (List.mem_of_getElem? hj)
  have hnodup : (g.graph.rightNeighbors u).Nodup :=
    (h.wellFormed.right_sorted u).imp Nat.ne_of_lt
  rw [edgeLit, BipartiteGraph.checkLeft_eq_ok_iff.mpr hu, Except.ok_bind,
    BipartiteGraph.checkRight_eq_ok_iff.mpr hv, Except.ok_bind, edgeId?,
    VarGroup.idxOf?_of_nodup hnodup hj, Option.map_some]
  rfl

theorem edgeLit_of_mem {e : (Nat × Nat) × Nat} (he : e ∈ g.graph.edges.zipIdx g.ids.first) :
    g.edgeLit e.1.1 e.1.2 = .ok (.positive e.2) := by
  obtain ⟨j, hj, hid, -⟩ := h.exists_row he
  rw [hid]
  exact h.edgeLit_of_row hj

theorem toEdge_of_mem {e : (Nat × Nat) × Nat} (he : e ∈ g.graph.edges.zipIdx g.ids.first)
    {l : Lit} (hl : l.var = e.2) (hcontains : g.ids.contains l = true) :
    g.toEdge l = .ok e.1 := by
  obtain ⟨j, hj, hid, hfind⟩ := h.exists_row he
  rw [toEdge, if_pos hcontains, hl, hfind, hid]
  dsimp only
  rw [Nat.add_sub_cancel_left, hj]

theorem columnIds_eq {v : Nat} (hv : 1 ≤ v ∧ v ≤ g.graph.rightOrder) :
    g.columnIds v =
      ((g.graph.edges.zipIdx g.ids.first).filter fun e => e.1.2 = v).map (·.2) := by
  rw [columnIds, h.columns_eq, columnsFrom, getElem?_columns hv fun e he => ?_, Option.getD_some]
  exact (h.wellFormed.range_of_mem (mem_of_mem_zipIdx he)).2.1

end LaidOut

/-! ## Patterns -/

/-- Whether a fixed vertex is a vertex of its side or, if both are fixed, they are a pair. -/
def allows (left right : List Nat) (pairs : List (Nat × Nat)) : Option Nat → Option Nat → Bool
  | none, none => true
  | some u, none => left.contains u
  | none, some v => right.contains v
  | some u, some v => pairs.contains (u, v)

/-- Whether an edge has the fixed vertices. -/
def keeps (u v : Option Nat) (e : Nat × Nat) : Bool := u.all (· == e.1) && v.all (· == e.2)

variable {g : BipartiteEdges}

theorem checkLeft_kind (u : Nat) : (g.graph.checkLeft u).mapError Error.kind =
    if (List.range' 1 g.graph.leftOrder).contains u then .ok ()
    else .error .indexOutOfRange :=
  refuse_kind rfl g.graph.leftOrder u

theorem checkRight_kind (v : Nat) : (g.graph.checkRight v).mapError Error.kind =
    if (List.range' 1 g.graph.rightOrder).contains v then .ok ()
    else .error .indexOutOfRange :=
  refuse_kind rfl g.graph.rightOrder v

theorem edgeLit_of_not_mem {u v : Nat} (hedge : (u, v) ∉ g.graph.edges) :
    (g.edgeLit u v).mapError Error.kind = .error .indexOutOfRange := by
  have hidx : (g.graph.rightNeighbors u).idxOf? v = none :=
    List.idxOf?_eq_none_iff.mpr fun hmem => hedge (BipartiteGraph.mem_edges.mpr hmem)
  rw [edgeLit, Except.mapError_bind, checkLeft_kind, edgeId?, hidx]
  split_ifs
  · rw [Except.ok_bind, Except.mapError_bind, checkRight_kind]
    split_ifs <;> rfl
  · rfl

theorem keeps_left (u : Nat) (e : Nat × Nat) : keeps (some u) none e = decide (e.1 = u) := by
  rw [keeps, Option.all_none, Bool.and_true, Option.all_some, Bool.beq_eq_decide_eq]
  exact decide_eq_decide.mpr eq_comm

theorem keeps_right (v : Nat) (e : Nat × Nat) : keeps none (some v) e = decide (e.2 = v) := by
  rw [keeps, Option.all_none, Bool.true_and, Option.all_some, Bool.beq_eq_decide_eq]
  exact decide_eq_decide.mpr eq_comm

namespace LaidOut

variable (h : g.LaidOut)

include h

theorem edgesAt_kind (u v : Option Nat) : (g.edgesAt u v).mapError Error.kind =
    if allows (List.range' 1 g.graph.leftOrder) (List.range' 1 g.graph.rightOrder) g.graph.edges
      u v then .ok (g.graph.edges.filter (keeps u v))
    else .error .indexOutOfRange := by
  cases u with
  | none =>
    cases v with
    | none =>
      have hkeeps : g.graph.edges.filter (keeps none none) = g.graph.edges :=
        List.filter_eq_self.mpr fun _ _ => rfl
      rw [allows, if_pos rfl, hkeeps]
      rfl
    | some v =>
      have hkeeps : g.graph.edges.filter (keeps none (some v)) =
          (g.graph.leftNeighbors v).map (·, v) := by
        rw [← h.wellFormed.filter_edges_right v]
        exact List.filter_congr fun e _ => keeps_right v e
      rw [edgesAt, Except.mapError_map, checkRight_kind, hkeeps, allows]
      split_ifs <;> rfl
  | some u =>
    cases v with
    | none =>
      have hkeeps : g.graph.edges.filter (keeps (some u) none) =
          (g.graph.rightNeighbors u).map (u, ·) := by
        rw [← h.wellFormed.filter_edges_left u]
        exact List.filter_congr fun e _ => keeps_left u e
      rw [edgesAt, Except.mapError_map, checkLeft_kind, hkeeps, allows]
      split_ifs <;> rfl
    | some v =>
      rw [edgesAt, Except.mapError_map, allows]
      by_cases hedge : (u, v) ∈ g.graph.edges
      · obtain ⟨j, hj⟩ := List.mem_iff_getElem?.mp (BipartiteGraph.mem_edges.mp hedge)
        have hkeeps : g.graph.edges.filter (keeps (some u) (some v)) = [(u, v)] := by
          rw [← filter_beq_of_nodup h.wellFormed.nodup_edges hedge]
          refine List.filter_congr fun e _ => ?_
          rw [keeps, Option.all_some, Option.all_some]
          exact congrArg₂ and BEq.comm BEq.comm
        rw [h.edgeLit_of_row hj, if_pos (List.contains_iff_mem.mpr hedge), hkeeps]
        rfl
      · rw [edgeLit_of_not_mem hedge,
          if_neg (fun hcontains => hedge (List.contains_iff_mem.mp hcontains))]
        rfl

theorem mapM_row (u : Nat) :
    ((g.graph.rightNeighbors u).map (u, ·)).mapM (fun e => g.edgeLit e.1 e.2) =
      .ok ((g.rowIds u).map .positive) := by
  have hrow : ∀ e ∈ (g.graph.rightNeighbors u).zipIdx (g.offset u),
      g.edgeLit u e.1 = .ok (.positive e.2) := by
    intro e he
    obtain ⟨hle, hget⟩ := List.mem_zipIdx_iff_le_and_getElem?_sub.mp he
    rw [h.edgeLit_of_row hget, Nat.add_sub_cancel' hle]
  rw [List.mapM_map]
  exact VarGroup.mapM_zipIdx hrow

theorem mapM_column {v : Nat} (hv : 1 ≤ v ∧ v ≤ g.graph.rightOrder) :
    ((g.graph.leftNeighbors v).map (·, v)).mapM (fun e => g.edgeLit e.1 e.2) =
      .ok ((g.columnIds v).map .positive) := by
  rw [← h.wellFormed.filter_edges_right v,
    VarGroup.mapM_filter_zipIdx (fun e he => h.edgeLit_of_mem he), h.columnIds_eq hv,
    List.map_map]
  rfl

theorem litsAt_eq (u v : Option Nat) :
    g.litsAt u v = g.edgesAt u v >>= (·.mapM fun e => g.edgeLit e.1 e.2) := by
  cases u with
  | none =>
    cases v with
    | none =>
      rw [litsAt, edgesAt, Except.ok_bind,
        VarGroup.mapM_zipIdx (fun e he => h.edgeLit_of_mem he), h.length_edges]
      rfl
    | some v =>
      rw [litsAt, edgesAt]
      cases hright : g.graph.checkRight v with
      | error e => rfl
      | ok => exact (h.mapM_column (BipartiteGraph.checkRight_eq_ok_iff.mp hright)).symm
  | some u =>
    cases v with
    | none =>
      rw [litsAt, edgesAt]
      cases g.graph.checkLeft u with
      | error e => rfl
      | ok => exact (h.mapM_row u).symm
    | some v =>
      rw [litsAt, edgesAt]
      cases hlit : g.edgeLit u v with
      | error e => rfl
      | ok l =>
        rw [Except.map_ok, Except.map_ok, Except.ok_bind, List.mapM_cons, hlit]
        rfl

/-- A group of edges that reports the edges of its layout by rows of the table and asks it for
literals enumerates the table. -/
theorem enumerates {G : VarGroup} (hids : G.ids = g.ids) (harity : G.arity = 2)
    (row : Nat × Nat → Index) (list : Option Nat → Option Nat → Except Error (List (Nat × Nat)))
    (lits : Option Nat → Option Nat → Except Error (List Lit))
    (hevaluate : ∀ e ∈ g.graph.edges, G.evaluate (row e) = g.edgeLit e.1 e.2)
    (htoIndex : ∀ l, G.toIndex l = (g.toEdge l).map row)
    (hindices : ∀ p, G.indices p = (sides p >>= fun s => list s.1 s.2).map (·.map row))
    (hlits : ∀ p, G.lits p = sides p >>= fun s => lits s.1 s.2)
    (hkind : ∀ u v, (list u v).mapError Error.kind =
      if G.answers (g.graph.edges.map row) [u, v] then
        .ok (g.graph.edges.filter fun e => G.fits [u, v] (row e))
      else .error .indexOutOfRange)
    (hlist : ∀ u v, lits u v = list u v >>= (·.mapM fun e => g.edgeLit e.1 e.2)) :
    G.Enumerates (g.graph.edges.map row) := by
  have hrow : ∀ e ∈ (g.graph.edges.map row).zipIdx G.ids.first,
      ∃ e' ∈ g.graph.edges.zipIdx g.ids.first, e = (row e'.1, e'.2) := by
    intro e he
    rw [hids, List.zipIdx_map, List.mem_map] at he
    obtain ⟨e', he', rfl⟩ := he
    exact ⟨e', he', rfl⟩
  have hlength : (g.graph.edges.map row).length = G.ids.size := by
    rw [List.length_map, h.length_edges, hids]
  refine ⟨hlength, fun hzero => ?_, fun e he => ?_, fun e he l hl => ?_, fun l hl => ?_,
    fun p => ?_, fun p => ?_⟩
  · omega
  · obtain ⟨e', he', rfl⟩ := hrow e he
    exact (hevaluate _ (List.fst_mem_of_mem_zipIdx he')).trans (h.edgeLit_of_mem he')
  · have hcontains := VarGroup.contains_of_mem_zipIdx hlength he hl
    obtain ⟨e', he', rfl⟩ := hrow e he
    rw [htoIndex, h.toEdge_of_mem he' hl (hids ▸ hcontains)]
    rfl
  · rw [VarGroup.contains, hids] at hl
    rw [htoIndex, toEdge, if_neg (Bool.eq_false_iff.mp hl), hids]
    rfl
  · rw [hindices, sides, Pattern.expand_eq, VarGroup.select, harity]
    by_cases hmismatched : p.Mismatched 2
    · rw [if_pos hmismatched, if_pos hmismatched]
      rfl
    · obtain ⟨u, v, huv⟩ := List.length_eq_two.mp (Pattern.length_full hmismatched)
      rw [if_neg hmismatched, if_neg hmismatched, huv, Except.map_ok, Except.ok_bind,
        Except.mapError_map, List.filter_map]
      refine (congrArg _ (hkind u v)).trans ?_
      split_ifs <;> rfl
  · rw [hindices, hlits]
    cases sides p with
    | error e => rfl
    | ok s =>
      rw [Except.ok_bind, Except.ok_bind, hlist]
      have hkind := hkind s.1 s.2
      cases hes : list s.1 s.2 with
      | error e => rfl
      | ok es =>
        rw [hes, Except.mapError_ok] at hkind
        split_ifs at hkind
        cases hkind
        rw [Except.ok_bind, Except.map_ok, Except.ok_bind, List.mapM_map]
        exact Except.mapM_congr fun e he => (hevaluate e (List.mem_filter.mp he).1).symm

end LaidOut

/-! ## The groups -/

section Pairs

variable {G : VarGroup} {left right : List Nat} {pairs : List (Nat × Nat)}

theorem mem_map_pair {u v : Nat} :
    [u, v] ∈ pairs.map (fun e => [e.1, e.2]) ↔ (u, v) ∈ pairs := by
  rw [List.mem_map]
  constructor
  · rintro ⟨e, he, heq⟩
    cases heq
    exact he
  · intro h
    exact ⟨(u, v), h, rfl⟩

theorem answers_pairs (hforms : ∀ index, G.forms index = [index])
    (hcomponents : G.components = [left, right])
    (hpairs : ∀ e ∈ pairs, e.1 ∈ left ∧ e.2 ∈ right) (u v : Option Nat) :
    G.answers (pairs.map fun e => [e.1, e.2]) [u, v] = allows left right pairs u v := by
  rw [VarGroup.answers, hcomponents, Pattern.within_cons_cons, Pattern.within_cons_cons,
    Pattern.within_nil_left, Bool.and_true]
  cases u with
  | none =>
    cases v with
    | none => rfl
    | some v =>
      show (true && right.contains v && true) = right.contains v
      rw [Bool.true_and, Bool.and_true]
  | some u =>
    cases v with
    | none =>
      show (left.contains u && true && true) = left.contains u
      rw [Bool.and_true, Bool.and_true]
    | some v =>
      show (left.contains u && right.contains v &&
        (G.forms [u, v]).any (pairs.map fun e => [e.1, e.2]).contains) = pairs.contains (u, v)
      rw [Bool.eq_iff_iff, Bool.and_eq_true, Bool.and_eq_true, VarGroup.any_forms_iff hforms,
        List.contains_iff_mem, List.contains_iff_mem, List.contains_iff_mem, mem_map_pair]
      exact ⟨fun h => h.2, fun h => ⟨hpairs _ h, h⟩⟩

theorem fits_pair (hforms : ∀ index, G.forms index = [index]) (u v : Option Nat)
    (e : Nat × Nat) : G.fits [u, v] [e.1, e.2] = keeps u v e := by
  rw [VarGroup.fits_eq_admits hforms,
    Pattern.admits_cons_cons, Pattern.admits_cons_cons, Pattern.admits_nil_left, Bool.and_true]
  rfl

end Pairs

namespace LaidOut

variable (h : g.LaidOut)

include h

theorem mem_ranges {e : Nat × Nat} (he : e ∈ g.graph.edges) :
    e.1 ∈ List.range' 1 g.graph.leftOrder ∧ e.2 ∈ List.range' 1 g.graph.rightOrder := by
  obtain ⟨hu, hv⟩ := h.wellFormed.range_of_mem (BipartiteGraph.mem_edges.mp he)
  rw [List.mem_range'_1, List.mem_range'_1]
  omega

theorem kind_eq_answers {G : VarGroup} (hforms : ∀ index, G.forms index = [index])
    (hcomponents : G.components =
      [List.range' 1 g.graph.leftOrder, List.range' 1 g.graph.rightOrder]) (u v : Option Nat) :
    (g.edgesAt u v).mapError Error.kind =
      if G.answers (g.graph.edges.map fun e => [e.1, e.2]) [u, v] then
        .ok (g.graph.edges.filter fun e => G.fits [u, v] [e.1, e.2])
      else .error .indexOutOfRange := by
  rw [h.edgesAt_kind, answers_pairs hforms hcomponents fun e he => h.mem_ranges he]
  simp only [fits_pair hforms]

theorem enumerates_bipartite :
    (VarGroup.bipartite g).Enumerates (g.graph.edges.map fun e => [e.1, e.2]) :=
  h.enumerates rfl rfl _ g.edgesAt g.litsAt (fun _ _ => rfl) (fun _ => rfl) (fun _ => rfl)
    (fun _ => rfl) (h.kind_eq_answers (fun _ => rfl) rfl) h.litsAt_eq

theorem enumerates_unary :
    (VarGroup.unary ⟨g⟩).Enumerates (g.graph.edges.map fun e => [e.1, e.2]) :=
  h.enumerates rfl rfl _ g.edgesAt g.litsAt (fun _ _ => rfl) (fun _ => rfl) (fun _ => rfl)
    (fun _ => rfl) (h.kind_eq_answers (fun _ => rfl) rfl) h.litsAt_eq

end LaidOut

end Clausal.BipartiteEdges
