import Clausal.Proofs.Label
import Clausal.Proofs.Label.Frame
import Clausal.Proofs.VarGroup

/-!
# Default labels

A group without a text of its own fills its indices into a frame (`frame`), and an index of the
table has the components that the frame asks for (`renderLabel_eq_around`). Since a frame keeps
indices apart, different variables of a group have different labels (`default_labels_differ`).
-/

namespace Clausal

theorem VarGroup.length_of_evaluate {g : VarGroup} {index : Index} {l : Lit}
    (h : g.evaluate index = .ok l) : index.length = g.arity := by
  cases g with
  | singleton g =>
    obtain ⟨_, hlength, -⟩ := Except.map_eq_ok_iff.mp h
    exact Index.checkLength_eq_ok_iff.mp hlength
  | block g =>
    obtain ⟨_, hlength, -⟩ := Except.bind_eq_ok_iff.mp h
    exact Index.checkLength_eq_ok_iff.mp hlength
  | words g =>
    obtain ⟨_, hlength, -⟩ := Except.bind_eq_ok_iff.mp h
    exact Index.checkLength_eq_ok_iff.mp hlength
  | _ =>
    simp only [evaluate, BipartiteEdges.evaluate, GraphEdges.evaluate, DigraphEdges.evaluate,
      BinaryMapping.evaluate] at h
    split at h
    · rfl
    · cases h

namespace GroupSpec

open LabelFormat (Frame)

/-- The frame of the labels of a group without a text of its own. A single variable has no
components and is named after its identifier. -/
def frame (start : Nat) : GroupSpec → Frame
  | singleton _ => .named (varText start)
  | block _ _ => .tuple "X"
  | words _ _ _ _ => .word
  | bipartite _ _ | graph _ _ | digraph _ _ _ => .tuple "e"
  | mapping _ _ => .equation
  | binaryMapping _ _ _ => .tuple "v"

variable {spec : GroupSpec} {start : Nat} {g : VarGroup}

theorem renderLabel_eq_around (h : spec.create start = .ok g) (htext : spec.text? = none)
    {index : Index} (hlength : index.length = g.arity) :
    g.renderLabel index = (spec.frame start).around (index.map toString) := by
  have hedges : ∀ {g : BipartiteEdges} {graph : BipartiteGraph}, index.length = 2 →
      BipartiteEdges.create start graph BipartiteEdges.defaultLabel = .ok g →
      g.renderLabel index = (Frame.tuple "e").around (index.map toString) := by
    intro g graph hlength hg
    exact (Frame.tuple "e").render_of_parse (BipartiteEdges.parse_of_create hg)
      (Frame.write_tuple rfl 2) _ ((List.length_map _).trans hlength)
  cases spec with
  | singleton name =>
    obtain ⟨g, hg, rfl⟩ := Except.map_eq_ok_iff.mp h
    obtain ⟨id, hid, rfl⟩ := Except.map_eq_ok_iff.mp hg
    obtain rfl : id = start := create_first h
    obtain rfl := List.eq_nil_of_length_eq_zero hlength
    cases htext
    simp [frame, Frame.named, Frame.around, VarGroup.renderLabel, SingleVar.renderLabel]
  | block ranges label =>
    obtain ⟨g, hg, rfl⟩ := Except.map_eq_ok_iff.mp h
    cases htext
    have harity : g.arity = ranges.length := congrArg _ (Block.create_eq_ok hg).1
    exact (Frame.tuple "X").render_of_parse (Block.parseLabel_of_create hg)
      (Frame.write_tuple rfl _) _ ((List.length_map _).trans (hlength.trans harity))
  | words n k family label =>
    obtain ⟨g, hg, rfl⟩ := Except.map_eq_ok_iff.mp h
    cases htext
    -- The only argument of the format is the word, with its commas.
    have hrender := Frame.word.render_of_parse (Words.parse_of_create hg) (by decide +kernel)
      [",".intercalate (index.map toString)] rfl
    rw [Frame.around, String.intercalate_singleton] at hrender
    exact hrender
  | bipartite graph label =>
    obtain ⟨g, hg, rfl⟩ := Except.map_eq_ok_iff.mp h
    cases htext
    exact hedges hlength hg
  | graph graph label =>
    obtain ⟨g, hg, rfl⟩ := Except.map_eq_ok_iff.mp h
    obtain ⟨upper, -, hlayout⟩ := GraphEdges.exists_layout_of_create hg
    cases htext
    exact hedges hlength hlayout
  | digraph graph order label =>
    obtain ⟨g, hg, rfl⟩ := Except.map_eq_ok_iff.mp h
    obtain ⟨upper, -, hlayout⟩ := DigraphEdges.exists_layout_of_create hg
    cases htext
    exact hedges hlength hlayout
  | mapping graph label =>
    obtain ⟨f, hf, rfl⟩ := Except.map_eq_ok_iff.mp h
    obtain ⟨pairs, hpairs, rfl⟩ := Except.map_eq_ok_iff.mp hf
    cases htext
    exact Frame.equation.render_of_parse (BipartiteEdges.parse_of_create hpairs)
      (by decide +kernel) _ ((List.length_map _).trans hlength)
  | binaryMapping n m label =>
    obtain ⟨f, hf, rfl⟩ := Except.map_eq_ok_iff.mp h
    cases htext
    exact (Frame.tuple "v").render_of_parse (BinaryMapping.parse_of_create hf)
      (Frame.write_tuple rfl 2) _ ((List.length_map _).trans hlength)

/-- **Default labels are unambiguous.** The labels of a group without a text of its own are the
indices of its table in one frame, and pairwise different. So two indices with one label are
evaluated to one variable, in whatever form they are given. -/
theorem default_labels_differ (hspec : spec.Reachable) (h : spec.create start = .ok g)
    (htext : spec.text? = none) :
    ∃ table texts, g.indices [] = .ok table ∧ g.labels [] = .ok texts ∧ texts.Nodup ∧
      texts = table.map (fun index => (spec.frame start).around (index.map toString)) ∧
      (∀ i ∈ table, ∀ j ∈ table, g.renderLabel i = g.renderLabel j → i = j) ∧
      ∀ i j text, g.label i = .ok text → g.label j = .ok text →
        ∃ l m, g.evaluate i = .ok l ∧ g.evaluate j = .ok m ∧ l.var = m.var := by
  obtain ⟨table, htable⟩ := create_enumerates hspec h
  have htexts : ∀ i ∈ table, g.renderLabel i = (spec.frame start).around (i.map toString) := by
    intro i hi
    obtain ⟨id, he⟩ := VarGroup.exists_number hi g.ids.first
    exact renderLabel_eq_around h htext (VarGroup.length_of_evaluate (htable.evaluate_eq _ he))
  have hinjective : ∀ i ∈ table, ∀ j ∈ table, g.renderLabel i = g.renderLabel j → i = j := by
    intro i hi j hj heq
    rw [htexts i hi, htexts j hj] at heq
    exact (spec.frame start).around_injective heq
  refine ⟨table, _, htable.indices_nil, by rw [VarGroup.labels, htable.indices_nil, Except.map_ok],
    htable.nodup.map_on hinjective, List.map_congr_left htexts, hinjective,
    fun i j text hi hj => ?_⟩
  obtain ⟨l, i', hl, hi', rfl⟩ := htable.exists_row_of_label hi
  obtain ⟨m, j', hm, hj', htext'⟩ := htable.exists_row_of_label hj
  have hrows : j' = i' := hinjective j' (List.fst_mem_of_mem_zipIdx hj') i'
    (List.fst_mem_of_mem_zipIdx hi') htext'
  have hlits := htable.evaluate_eq _ hi'
  rw [← hrows, htable.evaluate_eq _ hj', Except.ok.injEq, Lit.positive, Lit.positive,
    Lit.mk.injEq] at hlits
  exact ⟨l, m, hl, hm, hlits.1.symm⟩

/-- The letters of a word are one argument, between braces that are doubled in the format. -/
theorem default_labels_differ_words :
    let spec : GroupSpec := .words 3 2 .combinations none
    spec.Reachable ∧ spec.text? = none ∧ ∃ g, spec.create 5 = .ok g ∧ ∃ texts,
      g.labels [] = .ok texts ∧ texts = ["p_\x7b1,2\x7d", "p_\x7b1,3\x7d", "p_\x7b2,3\x7d"] ∧
        texts.Nodup := by
  intro spec
  have hspec : spec.Reachable := trivial
  obtain ⟨g, hg, hindices⟩ : ∃ g, spec.create 5 = .ok g ∧
      g.indices [] = .ok [[1, 2], [1, 3], [2, 3]] := by
    refine ⟨.words ⟨⟨5, 3⟩, 3, 2, .combinations, [[1, 2], [1, 3], [2, 3]],
      ⟨[.char 'p', .char '_', .char '\x7b', .argument 0, .char '\x7d']⟩⟩, ?_, ?_⟩
    · decide +kernel
    · decide +kernel
  obtain ⟨table, texts, htable, htexts, hnodup, heq, -, -⟩ :=
    default_labels_differ hspec hg rfl
  cases hindices.symm.trans htable
  exact ⟨hspec, rfl, g, hg, texts, htexts, heq.trans (by decide +kernel), hnodup⟩

end GroupSpec

end Clausal
