import Clausal.Proofs.VarGroup.Checked.Edges
import Clausal.Proofs.VarGroup.Checked.Tuples
import Clausal.Proofs.VarGroup.Checked.Words

/-!
# No step of a group goes wrong

The calls of a group add, multiply, subtract, divide, shift and look up places without a check of
their own. They rely on what was checked before: a group has a last identifier that is a variable,
and a graph counts its edges. So every step of every call has its exact result
(`GroupSpec.steps_exact`), in refused calls as well.
-/

namespace Clausal

/-- Every step of the calls of a group has its exact result. -/
structure VarGroup.Exact (g : VarGroup) : Prop where
  ids_eq : g.checkedIds = some g.ids
  evaluate_eq (index : Index) : g.checkedEvaluate index = .of (g.evaluate index)
  lits_eq (p : Pattern) : g.checkedLits p = .of (g.lits p)
  toIndex_eq (l : Lit) : g.checkedToIndex l = .of (g.toIndex l)
  /-- The images that a clause can be asked for are words. -/
  forbid_eq {f : BinaryMapping} (hf : g = .binary f) (i : Nat) {j : Nat} (hj : j < wordSize) :
    f.checkedForbid i j = .of (f.forbid i j)

namespace GroupSpec

/-- The numbers of vertices and edges of a graph are words, and so is the number of images of a
mapping. -/
def Sized : GroupSpec → Prop
  | bipartite b _ | mapping b _ => b.leftOrder < wordSize ∧ b.edgeCount < wordSize
  | graph g _ => g.order < wordSize ∧ g.edgeCount < wordSize
  | digraph g _ _ => g.order < wordSize ∧ g.edgeCount < wordSize
  | binaryMapping _ m _ => m < wordSize
  | singleton _ | block _ _ | words _ _ _ _ => True

variable {spec : GroupSpec} (hspec : spec.Buildable) (hsized : spec.Sized) {start : Nat}
  (hstart : 1 ≤ start)

include hspec hsized hstart

theorem checkedCreate_eq : spec.checkedCreate start = .of (spec.create start) := by
  cases spec with
  | singleton name => exact Checked.bind_eq_of_map rfl fun _ _ => rfl
  | block ranges label =>
    exact Checked.bind_eq_of_map (Block.checkedCreate_eq hstart ranges label) fun _ _ => rfl
  | words n k family label =>
    exact Checked.bind_eq_of_map (Words.checkedCreate_eq hstart n k family label) fun _ _ => rfl
  | bipartite graph label =>
    have hwell := BipartiteGraph.wellFormed_of_reachable hspec
    exact Checked.bind_eq_of_map (BipartiteEdges.checkedCreate_eq hstart hwell _) fun _ _ => rfl
  | graph graph label =>
    exact Checked.bind_eq_of_map
      (GraphEdges.checkedCreate_eq hstart hspec hsized.1 hsized.2 label) fun _ _ => rfl
  | digraph graph order label =>
    exact Checked.bind_eq_of_map
      (DigraphEdges.checkedCreate_eq hstart hspec hsized.1 hsized.2 order label) fun _ _ => rfl
  | mapping graph label =>
    have hwell := BipartiteGraph.wellFormed_of_reachable hspec
    have hpairs := BipartiteEdges.checkedCreate_eq hstart hwell
      (label.getD UnaryMapping.defaultLabel)
    refine (Checked.bind_eq_of_map hpairs fun _ _ => rfl).trans ?_
    rw [create, UnaryMapping.create]
    cases BipartiteEdges.create start graph (label.getD UnaryMapping.defaultLabel) <;> rfl
  | binaryMapping n m label =>
    exact Checked.bind_eq_of_map (BinaryMapping.checkedCreate_eq hstart hsized label)
      fun _ _ => rfl

theorem create_exact {g : VarGroup} (h : spec.create start = .ok g) : g.Exact := by
  have hstop := create_stop_le h
  cases spec with
  | singleton name =>
    obtain ⟨g, -, rfl⟩ := Except.map_eq_ok_iff.mp h
    exact ⟨SingleVar.checkedIds_eq hstop, fun _ => rfl, fun _ => rfl,
      SingleVar.checkedToIndex_eq hstop, nofun⟩
  | block ranges label =>
    obtain ⟨g, hg, rfl⟩ := Except.map_eq_ok_iff.mp h
    exact ⟨rfl, Block.checkedEvaluate_eq hg, Block.checkedLits_eq hg, Block.checkedToIndex_eq hg,
      nofun⟩
  | words n k family label =>
    obtain ⟨g, hg, rfl⟩ := Except.map_eq_ok_iff.mp h
    exact ⟨rfl, Words.checkedEvaluate_eq hg, Words.checkedLits_eq hg, Words.checkedToIndex_eq hg,
      nofun⟩
  | bipartite graph label =>
    obtain ⟨g, hg, rfl⟩ := Except.map_eq_ok_iff.mp h
    obtain ⟨hlaid, hgraph⟩ :=
      BipartiteEdges.create_laidOut (BipartiteGraph.wellFormed_of_reachable hspec) hg
    have horder : g.graph.leftOrder < wordSize := hgraph ▸ hsized.1
    exact ⟨rfl, hlaid.checkedEvaluate_eq hstop, hlaid.checkedLits_eq hstop horder,
      hlaid.checkedToIndex_eq, nofun⟩
  | graph graph label =>
    obtain ⟨g, hg, rfl⟩ := Except.map_eq_ok_iff.mp h
    have hlaid := GraphEdges.create_laidOut hg
    have horder : g.layout.graph.leftOrder < wordSize :=
      GraphEdges.leftOrder_of_create hg ▸ hsized.1
    exact ⟨rfl, hlaid.checkedEvaluate_eq hstop, hlaid.checkedLits_eq hstop horder,
      hlaid.layout.checkedToIndex_eq, nofun⟩
  | digraph graph order label =>
    obtain ⟨g, hg, rfl⟩ := Except.map_eq_ok_iff.mp h
    have hlaid := DigraphEdges.create_laidOut hg
    have horder : g.layout.graph.leftOrder < wordSize :=
      DigraphEdges.leftOrder_of_create hg ▸ hsized.1
    exact ⟨rfl, hlaid.checkedEvaluate_eq hstop, hlaid.checkedLits_eq hstop horder,
      hlaid.checkedToIndex_eq, nofun⟩
  | mapping graph label =>
    obtain ⟨f, hf, rfl⟩ := Except.map_eq_ok_iff.mp h
    obtain ⟨pairs, hpairs, rfl⟩ := Except.map_eq_ok_iff.mp hf
    obtain ⟨hlaid, hgraph⟩ :=
      BipartiteEdges.create_laidOut (BipartiteGraph.wellFormed_of_reachable hspec) hpairs
    have horder : pairs.graph.leftOrder < wordSize := hgraph ▸ hsized.1
    exact ⟨rfl, hlaid.checkedEvaluate_eq hstop, hlaid.checkedLits_eq hstop horder,
      hlaid.checkedToIndex_eq, nofun⟩
  | binaryMapping n m label =>
    obtain ⟨f, hf, rfl⟩ := Except.map_eq_ok_iff.mp h
    refine ⟨rfl, BinaryMapping.checkedEvaluate_eq hstart hf,
      BinaryMapping.checkedLits_eq hstart hf, BinaryMapping.checkedToIndex_eq hf, ?_⟩
    rintro _ ⟨⟩ i j hj
    exact BinaryMapping.checkedForbid_eq hstart hsized hf i hj

/-- **The arithmetic of groups is exact.** From an identifier of at least one on, every step that
makes a group or that one of its calls takes has its exact result: sums and products fit into words
and counters, differences are not negative, divisors are not zero, and places are in their lists.
Graphs are made by their operations, with words for their vertices and edges. -/
theorem steps_exact : spec.checkedCreate start = .of (spec.create start) ∧
    ∀ g, spec.create start = .ok g → g.Exact :=
  ⟨checkedCreate_eq hspec hsized hstart, fun _ => create_exact hspec hsized hstart⟩

omit hspec hsized hstart in
/-- The last six variables there can be are those of the edges of a graph. -/
theorem steps_exact_last :
    ∃ g, checkedCreate 2147483642 (.bipartite (.complete 2 3) none) = .of (.ok g) ∧
      g.ids.last = maxVar ∧ g.checkedEvaluate [2, 3] = .of (.ok (.positive maxVar)) ∧
      g.checkedToIndex (.positive maxVar) = .of (.ok [2, 3]) := by
  obtain ⟨g, hg, hlast, hevaluate, htoIndex⟩ :
      ∃ g, create 2147483642 (.bipartite (.complete 2 3) none) = .ok g ∧ g.ids.last = maxVar ∧
        g.evaluate [2, 3] = .ok (.positive maxVar) ∧
        g.toIndex (.positive maxVar) = .ok [2, 3] := by
    refine ⟨.bipartite ⟨⟨2147483642, 6⟩, .complete 2 3, #[2147483642, 2147483645],
      #[[2147483642, 2147483645], [2147483643, 2147483646], [2147483644, 2147483647]],
      ⟨[.char 'e', .char '(', .argument 0, .char ',', .argument 1, .char ')']⟩⟩, ?_, ?_, ?_, ?_⟩
    · decide +kernel
    · decide
    · decide +kernel
    · decide +kernel
  have hspec : Buildable (.bipartite (.complete 2 3) none) := .complete 2 3
  have hsized : Sized (.bipartite (.complete 2 3) none) := by
    constructor <;> decide
  obtain ⟨hcreate, hexact⟩ := steps_exact hspec hsized (show 1 ≤ 2147483642 by decide)
  refine ⟨g, by rw [hcreate, hg], hlast, ?_, ?_⟩
  · rw [(hexact g hg).evaluate_eq, hevaluate]
  · rw [(hexact g hg).toIndex_eq, htoIndex]

end GroupSpec

end Clausal
