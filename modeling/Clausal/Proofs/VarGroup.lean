import Clausal.Proofs.VarGroup.DigraphEdges
import Clausal.Proofs.VarGroup.GraphEdges
import Clausal.Proofs.VarGroup.Tuples
import Clausal.Proofs.VarGroup.Words

/-!
# Groups of variables number their indices

Whatever a group is made from, its answers are those of a table (`create_enumerates`). So its
indices and its identifiers correspond one to one (`create_bijective`), and a pattern selects the
rows that it fits, in the order of the table (`create_selects`). Every group starts where it is told
to (`create_first`).
-/

namespace Clausal.GroupSpec

/-- A bipartite graph of a description can be made. Other graphs are laid out anew, whatever their
tables hold. -/
def Reachable : GroupSpec → Prop
  | .bipartite b _ | .mapping b _ => b.Reachable
  | _ => True

variable {spec : GroupSpec} {start : Nat} {g : VarGroup}

theorem create_enumerates (hspec : spec.Reachable) (h : spec.create start = .ok g) :
    ∃ table, g.Enumerates table := by
  cases spec with
  | singleton name =>
    obtain ⟨g, -, rfl⟩ := Except.map_eq_ok_iff.mp h
    exact ⟨_, g.enumerates⟩
  | block ranges label =>
    obtain ⟨g, hg, rfl⟩ := Except.map_eq_ok_iff.mp h
    exact ⟨_, Block.create_enumerates hg⟩
  | words n k family label =>
    obtain ⟨g, hg, rfl⟩ := Except.map_eq_ok_iff.mp h
    exact ⟨_, Words.create_enumerates hg⟩
  | bipartite graph label =>
    obtain ⟨g, hg, rfl⟩ := Except.map_eq_ok_iff.mp h
    have hgraph := BipartiteGraph.wellFormed_of_reachable hspec
    exact ⟨_, (BipartiteEdges.create_laidOut hgraph hg).1.enumerates_bipartite⟩
  | graph graph label =>
    obtain ⟨g, hg, rfl⟩ := Except.map_eq_ok_iff.mp h
    exact ⟨_, (GraphEdges.create_laidOut hg).enumerates⟩
  | digraph graph order label =>
    obtain ⟨g, hg, rfl⟩ := Except.map_eq_ok_iff.mp h
    exact ⟨_, (DigraphEdges.create_laidOut hg).enumerates⟩
  | mapping graph label =>
    obtain ⟨f, hf, rfl⟩ := Except.map_eq_ok_iff.mp h
    obtain ⟨pairs, hpairs, rfl⟩ := Except.map_eq_ok_iff.mp hf
    have hgraph := BipartiteGraph.wellFormed_of_reachable hspec
    exact ⟨_, (BipartiteEdges.create_laidOut hgraph hpairs).1.enumerates_unary⟩
  | binaryMapping n m label =>
    obtain ⟨f, hf, rfl⟩ := Except.map_eq_ok_iff.mp h
    exact ⟨_, BinaryMapping.create_enumerates hf⟩

theorem create_first (h : spec.create start = .ok g) : g.ids.first = start := by
  cases spec with
  | singleton name =>
    obtain ⟨g, hg, rfl⟩ := Except.map_eq_ok_iff.mp h
    obtain ⟨id, hid, rfl⟩ := Except.map_eq_ok_iff.mp hg
    rw [checkVar] at hid
    split_ifs at hid
    cases hid
    rfl
  | block ranges label =>
    obtain ⟨g, hg, rfl⟩ := Except.map_eq_ok_iff.mp h
    exact (Block.create_eq_ok hg).2.2.1
  | words n k family label =>
    obtain ⟨g, hg, rfl⟩ := Except.map_eq_ok_iff.mp h
    exact (Words.create_eq_ok hg).1
  | bipartite graph label =>
    obtain ⟨g, hg, rfl⟩ := Except.map_eq_ok_iff.mp h
    exact BipartiteEdges.create_first hg
  | graph graph label =>
    obtain ⟨g, hg, rfl⟩ := Except.map_eq_ok_iff.mp h
    obtain ⟨upper, -, hlayout⟩ := GraphEdges.exists_layout_of_create hg
    exact BipartiteEdges.create_first hlayout
  | digraph graph order label =>
    obtain ⟨g, hg, rfl⟩ := Except.map_eq_ok_iff.mp h
    obtain ⟨upper, -, hlayout⟩ := DigraphEdges.exists_layout_of_create hg
    exact BipartiteEdges.create_first hlayout
  | mapping graph label =>
    obtain ⟨f, hf, rfl⟩ := Except.map_eq_ok_iff.mp h
    obtain ⟨pairs, hpairs, rfl⟩ := Except.map_eq_ok_iff.mp hf
    exact BipartiteEdges.create_first hpairs
  | binaryMapping n m label =>
    obtain ⟨f, hf, rfl⟩ := Except.map_eq_ok_iff.mp h
    exact congrArg IdRange.first (BinaryMapping.create_eq_ok hf).2.2.2

/-- **Indices and identifiers correspond one to one.** The indices of the empty pattern are as many
as there are identifiers and pairwise different, each is evaluated to the positive literal of the
identifier at its position, and both literals of that identifier are turned back into it. No other
literal has an index. -/
theorem create_bijective (hspec : spec.Reachable) (h : spec.create start = .ok g) :
    ∃ table, g.indices [] = .ok table ∧ table.length = g.size ∧ table.Nodup ∧
      g.lits [] = .ok (g.ids.toList.map .positive) ∧
      (∀ (i : Nat) (index : Index) (id : Nat), table[i]? = some index →
        g.ids.toList[i]? = some id → g.evaluate index = .ok (.positive id) ∧
          ∀ l : Lit, l.var = id → g.toIndex l = .ok index ∧ g.toIndex l.flip = .ok index) ∧
      (∀ id ∈ g.ids.toList, ∀ l : Lit, l.var = id →
        (g.toIndex l >>= g.evaluate) = .ok (.positive id)) ∧
      ∀ l, (∃ index, g.toIndex l = .ok index) ↔ g.contains l = true := by
  obtain ⟨table, htable⟩ := create_enumerates hspec h
  refine ⟨table, htable.indices_nil, htable.length_eq, htable.nodup, htable.lits_nil,
    fun i index id hindex hid => ?_, fun id hid l hl => ?_, htable.exists_toIndex_iff⟩
  · have hrow : (index, id) ∈ table.zipIdx g.ids.first := by
      obtain ⟨hi, rfl⟩ := List.getElem?_eq_some_iff.mp hid
      rw [IdRange.getElem_toList, List.mk_add_mem_zipIdx_iff_getElem?]
      exact hindex
    refine ⟨htable.evaluate_eq _ hrow, fun l hl => ⟨?_, ?_⟩⟩
    · exact htable.toIndex_eq _ hrow l hl
    · exact htable.toIndex_eq _ hrow l.flip hl
  · obtain ⟨index, hrow⟩ := htable.exists_mem_zipIdx hid
    rw [htable.toIndex_eq _ hrow l hl, Except.ok_bind]
    exact htable.evaluate_eq _ hrow

/-- Left vertices 2 and 3 and right vertex 2 have no edges. -/
def gaps : BipartiteGraph := ((BipartiteGraph.empty 4 3).addEdges [(4, 3), (1, 3), (4, 1)]).2

theorem create_bijective_gaps : ∃ g, create 7 (.bipartite gaps none) = .ok g ∧
    g.lits [] = .ok [.positive 7, .positive 8, .positive 9] ∧
      g.evaluate [4, 1] = .ok (.positive 8) ∧ g.toIndex (.negative 8) = .ok [4, 1] := by
  obtain ⟨g, hg, hids, hindices⟩ : ∃ g, create 7 (.bipartite gaps none) = .ok g ∧
      g.ids = ⟨7, 3⟩ ∧ g.indices [] = .ok [[1, 3], [4, 1], [4, 3]] := by
    refine ⟨.bipartite ⟨⟨7, 3⟩, gaps, #[7, 8, 8, 8], #[[8], [], [7, 9]],
      ⟨[.char 'e', .char '(', .argument 0, .char ',', .argument 1, .char ')']⟩⟩, ?_, rfl, ?_⟩
    · decide +kernel
    · decide +kernel
  have hspec : Reachable (.bipartite gaps none) := BipartiteGraph.Reachable.addEdges _ (.empty 4 3)
  obtain ⟨table, htable, -, -, hlits, hrows, -⟩ := create_bijective hspec hg
  cases hindices.symm.trans htable
  rw [hids] at hlits
  obtain ⟨hevaluate, htoIndex⟩ := hrows 1 [4, 1] 8 rfl (by rw [hids]; rfl)
  exact ⟨g, hg, hlits, hevaluate, (htoIndex (.positive 8) rfl).2⟩

/-- **Patterns select the rows that they fit, in the order of the table.** The literals and labels
of a pattern are refused with its indices and are otherwise those of each index, so the
identifiers of the literals ascend. -/
theorem create_selects (hspec : spec.Reachable) (h : spec.create start = .ok g) :
    ∃ table, g.indices [] = .ok table ∧ ∀ p : Pattern,
      (g.indices p).mapError Error.kind = g.select table p ∧
      (∀ e, g.indices p = .error e → g.lits p = .error e ∧ g.labels p = .error e) ∧
      ∀ is, g.indices p = .ok is → ∃ lits texts,
        g.lits p = .ok lits ∧ is.mapM g.evaluate = .ok lits ∧
        g.labels p = .ok texts ∧ is.mapM g.label = .ok texts ∧
        (lits.map Lit.var).Pairwise (· < ·) := by
  obtain ⟨table, htable⟩ := create_enumerates hspec h
  refine ⟨table, htable.indices_nil, fun p => ⟨htable.indices_kind p, fun e he => ?_,
    fun is his => ?_⟩⟩
  · rw [htable.lits_eq, VarGroup.labels, he]
    exact ⟨rfl, rfl⟩
  · have hfilter := htable.indices_eq_filter his
    have hevaluate : is.mapM g.evaluate = _ :=
      hfilter ▸ VarGroup.mapM_filter_zipIdx htable.evaluate_eq _
    have hlabel : is.mapM g.label = .ok (is.map g.renderLabel) :=
      Except.mapM_eq_ok fun index hindex => by
        rw [hfilter] at hindex
        exact htable.label_eq (List.mem_filter.mp hindex).1
    refine ⟨_, _, ?_, hevaluate, ?_, hlabel, ?_⟩
    · rw [htable.lits_eq, his, Except.ok_bind, hevaluate]
    · rw [VarGroup.labels, his, Except.map_ok]
    · rw [List.map_map]
      exact VarGroup.pairwise_filter_zipIdx table g.ids.first _

/-- Three edges, two of them at vertex 3. -/
def forked : UndirectedGraph := ((UndirectedGraph.empty 4).addEdges [(3, 4), (3, 1), (2, 4)]).2

theorem create_selects_forked : ∃ g, create 7 (.graph forked none) = .ok g ∧
    g.indices [none, some 3] = .ok [[1, 3], [3, 4]] ∧
      ∃ lits, g.lits [none, some 3] = .ok lits ∧ (lits.map Lit.var).Pairwise (· < ·) := by
  obtain ⟨g, hg, hindices, hselect⟩ : ∃ g, create 7 (.graph forked none) = .ok g ∧
      g.indices [] = .ok [[1, 3], [2, 4], [3, 4]] ∧
        g.select [[1, 3], [2, 4], [3, 4]] [none, some 3] = .ok [[1, 3], [3, 4]] := by
    refine ⟨.graph ⟨⟨7, 3⟩, ((BipartiteGraph.empty 4 4).addEdges forked.edges).2, #[7, 8, 9, 10],
      #[[], [], [7], [8, 9]],
      ⟨[.char 'e', .char '(', .argument 0, .char ',', .argument 1, .char ')']⟩⟩, ?_, ?_, ?_⟩
    · decide +kernel
    · decide +kernel
    · decide +kernel
  have hspec : Reachable (.graph forked none) := trivial
  obtain ⟨table, htable, hpatterns⟩ := create_selects hspec hg
  cases hindices.symm.trans htable
  obtain ⟨hkind, -, hanswers⟩ := hpatterns [none, some 3]
  have his := Except.mapError_eq_ok_iff.mp (hkind.trans hselect)
  obtain ⟨lits, -, hlits, -, -, -, hascend⟩ := hanswers _ his
  exact ⟨g, hg, his, lits, hlits, hascend⟩

end Clausal.GroupSpec
