import Clausal.Literal.Dimacs
import Clausal.Proofs.Dimacs.Parser
import Clausal.Proofs.Encoding.Mapping.Made
import Clausal.Proofs.VarGroup.Checked

/-!
# The variables of groups are valid

A group hands out literals over its own identifiers, whatever it is asked. These are valid
identifiers exactly if the group does not start at zero (`GroupSpec.create_valid`): an allocation
checks where a range ends, and only a single variable checks where it starts.
-/

namespace Clausal

theorem Lit.ofDimacs_toDimacs {l : Lit} (h : 1 ≤ l.var ∧ l.var ≤ maxVar) :
    ofDimacs l.toDimacs = .ok l := by
  have hvar := Dimacs.natAbs_toDimacs l
  have hne : l.toDimacs ≠ 0 := by omega
  have hcheck : checkVar l.toDimacs.natAbs = .ok l.toDimacs.natAbs := if_neg (by omega)
  rw [ofDimacs, if_neg hne, ofVar?, hcheck]
  exact congrArg Except.ok (Dimacs.literalOf_toDimacs hne)

/-! ## Identifiers -/

theorem IdRange.forall_valid_iff {r : IdRange} (h : r.Allocated) :
    (∀ id ∈ r.toList, 1 ≤ id ∧ id ≤ maxVar) ↔ 1 ≤ r.first := by
  obtain ⟨hpos, hstop⟩ := h
  rw [stop] at hpos hstop
  constructor
  · intro hvalid
    by_contra hzero
    have hfirst : r.first ∈ r.toList := List.mem_range'_1.mpr (by omega)
    exact hzero (hvalid _ hfirst).1
  · intro hfirst id hid
    have := List.mem_range'_1.mp hid
    omega

/-! ## Literals -/

theorem SingleVar.var_mem_of_evaluate {g : SingleVar} {index : Index} {l : Lit}
    (h : g.evaluate index = .ok l) : l.var ∈ g.ids.toList := by
  obtain ⟨_, -, rfl⟩ := Except.map_eq_ok_iff.mp h
  exact List.mem_singleton_self _

theorem Words.var_mem_of_evaluate {g : Words} (hg : (VarGroup.words g).Enumerates g.sequences)
    (hsequences : g.sequences = g.family.sequences g.n g.k) {word : Index} {l : Lit}
    (h : g.evaluate word = .ok l) : l.var ∈ g.ids.toList := by
  obtain ⟨id, he, rfl⟩ := (evaluate_eq_ok_iff hsequences).mp h
  exact hg.ids_toList ▸ List.mem_map_of_mem he

theorem BipartiteEdges.LaidOut.var_mem_of_edgeLit {g : BipartiteEdges} (hg : g.LaidOut) {u v : Nat}
    {l : Lit} (h : g.edgeLit u v = .ok l) : l.var ∈ g.ids.toList := by
  have hedge : (u, v) ∈ g.graph.edges := by
    by_contra hedge
    have hfail := edgeLit_of_not_mem hedge
    rw [h] at hfail
    cases hfail
  obtain ⟨j, hj⟩ := List.mem_iff_getElem?.mp (BipartiteGraph.mem_edges.mp hedge)
  cases (hg.edgeLit_of_row hj).symm.trans h
  exact hg.offset_add_mem hj

theorem BipartiteEdges.LaidOut.var_mem_of_evaluate {g : BipartiteEdges} (hg : g.LaidOut)
    {index : Index} {l : Lit} (h : g.evaluate index = .ok l) : l.var ∈ g.ids.toList := by
  match index with
  | [u, v] => exact hg.var_mem_of_edgeLit h
  | [] | [_] | _ :: _ :: _ :: _ => cases h

theorem GraphEdges.LaidOut.var_mem_of_evaluate {g : GraphEdges} (hg : g.LaidOut) {index : Index}
    {l : Lit} (h : g.evaluate index = .ok l) : l.var ∈ g.layout.ids.toList := by
  match index with
  | [u, v] => exact hg.layout.var_mem_of_edgeLit h
  | [] | [_] | _ :: _ :: _ :: _ => cases h

theorem DigraphEdges.LaidOut.var_mem_of_evaluate {g : DigraphEdges} (hg : g.LaidOut) {index : Index}
    {l : Lit} (h : g.evaluate index = .ok l) : l.var ∈ g.layout.ids.toList := by
  match index with
  | [u, v] => exact hg.layout.var_mem_of_edgeLit h
  | [] | [_] | _ :: _ :: _ :: _ => cases h

theorem GroupSpec.var_mem_of_evaluate {spec : GroupSpec} (hspec : spec.Buildable) {start : Nat}
    {g : VarGroup} (h : spec.create start = .ok g) {index : Index} {l : Lit}
    (hl : g.evaluate index = .ok l) : l.var ∈ g.ids.toList := by
  cases spec with
  | singleton name =>
    obtain ⟨g, -, rfl⟩ := Except.map_eq_ok_iff.mp h
    exact SingleVar.var_mem_of_evaluate hl
  | block ranges label =>
    obtain ⟨g, hg, rfl⟩ := Except.map_eq_ok_iff.mp h
    have htable := Block.create_enumerates hg
    exact htable.var_mem_of_evaluate (Block.mem_of_evaluate hl) hl
  | words n k family label =>
    obtain ⟨g, hg, rfl⟩ := Except.map_eq_ok_iff.mp h
    exact Words.var_mem_of_evaluate (Words.create_enumerates hg) (Words.create_eq_ok hg).2.1 hl
  | bipartite graph label =>
    obtain ⟨g, hg, rfl⟩ := Except.map_eq_ok_iff.mp h
    have hlaid :=
      BipartiteEdges.create_laidOut (BipartiteGraph.wellFormed_of_reachable hspec) hg
    exact hlaid.1.var_mem_of_evaluate hl
  | graph graph label =>
    obtain ⟨g, hg, rfl⟩ := Except.map_eq_ok_iff.mp h
    exact (GraphEdges.create_laidOut hg).var_mem_of_evaluate hl
  | digraph graph order label =>
    obtain ⟨g, hg, rfl⟩ := Except.map_eq_ok_iff.mp h
    exact (DigraphEdges.create_laidOut hg).var_mem_of_evaluate hl
  | mapping graph label =>
    obtain ⟨f, hf, rfl⟩ := Except.map_eq_ok_iff.mp h
    obtain ⟨pairs, hpairs, rfl⟩ := Except.map_eq_ok_iff.mp hf
    have hlaid :=
      BipartiteEdges.create_laidOut (BipartiteGraph.wellFormed_of_reachable hspec) hpairs
    exact hlaid.1.var_mem_of_evaluate hl
  | binaryMapping n m label =>
    obtain ⟨f, hf, rfl⟩ := Except.map_eq_ok_iff.mp h
    have htable := BinaryMapping.create_enumerates hf
    exact htable.var_mem_of_evaluate (BinaryMapping.mem_of_evaluate hl) hl

/-! ## Groups -/

namespace GroupSpec

/-- **Groups that start at a variable own valid variables only.** From an identifier of at least one
on, no step that makes a group goes wrong, and all identifiers of a group are valid, so that its
literals can be written as integers and read back. A group that starts at zero owns the variable
zero. -/
theorem create_valid {spec : GroupSpec} (hspec : spec.Buildable) (hsized : spec.Sized)
    (start : Nat) :
    (1 ≤ start → spec.checkedCreate start = .of (spec.create start)) ∧
    ∀ g, spec.create start = .ok g →
      (1 ≤ start ↔ ∀ id ∈ g.ids.toList, 1 ≤ id ∧ id ≤ maxVar) ∧
      (1 ≤ start →
        (∀ index l, g.evaluate index = .ok l → Lit.ofDimacs l.toDimacs = .ok l) ∧
        (∀ p lits, g.lits p = .ok lits → ∀ l ∈ lits, Lit.ofDimacs l.toDimacs = .ok l) ∧
        ∀ f i j c, g = .binary f → f.forbid i j = .ok c →
          ∀ l ∈ c, Lit.ofDimacs l.toDimacs = .ok l) := by
  refine ⟨checkedCreate_eq hspec hsized, fun g h => ?_⟩
  have hvalid : (∀ id ∈ g.ids.toList, 1 ≤ id ∧ id ≤ maxVar) ↔ 1 ≤ start := by
    rw [IdRange.forall_valid_iff (create_allocated h), create_first h]
  refine ⟨hvalid.symm, fun hstart => ?_⟩
  have hread : ∀ l : Lit, l.var ∈ g.ids.toList → Lit.ofDimacs l.toDimacs = .ok l :=
    fun l hl => Lit.ofDimacs_toDimacs (hvalid.mpr hstart l.var hl)
  refine ⟨fun index l hl => ?_, fun p lits hlits l hl => ?_, fun f i j c hf hc l hl => ?_⟩
  · exact hread l (var_mem_of_evaluate hspec h hl)
  · obtain ⟨table, htable⟩ := create_enumerates hspec.reachable h
    exact hread l (htable.var_mem_of_lits hlits hl)
  · subst hf
    obtain ⟨_, _, _, _, hcreate⟩ :=
      BinaryMapping.exists_create_of_made ⟨spec, start, hspec.reachable, h⟩
    have htable := BinaryMapping.create_enumerates hcreate
    exact hread l (BinaryMapping.var_mem_of_forbid htable hc l hl)

/-- The clause that keeps the last element from the last image ends with the last variable. -/
theorem create_valid_last :
    ∃ f c, create 2147483644 (.binaryMapping 2 3 none) = .ok (.binary f) ∧
      f.forbid 2 2 = .ok c ∧ .positive maxVar ∈ c ∧
      ∀ l ∈ c, Lit.ofDimacs l.toDimacs = .ok l := by
  obtain ⟨f, c, hf, hc, hlast⟩ :
      ∃ f c, create 2147483644 (.binaryMapping 2 3 none) = .ok (.binary f) ∧
        f.forbid 2 2 = .ok c ∧ .positive maxVar ∈ c := by
    refine ⟨⟨⟨2147483644, 4⟩, 2, 3, 2,
      ⟨[.char 'v', .char '(', .argument 0, .char ',', .argument 1, .char ')']⟩⟩,
      [⟨2147483646, true⟩, ⟨2147483647, false⟩], ?_, ?_, ?_⟩
    · decide +kernel
    · decide +kernel
    · decide
  have hspec : Buildable (.binaryMapping 2 3 none) := trivial
  have hsized : Sized (.binaryMapping 2 3 none) := show 3 < wordSize by decide
  obtain ⟨-, hgroups⟩ := create_valid hspec hsized 2147483644
  obtain ⟨-, -, hread⟩ := (hgroups _ hf).2 (by decide)
  exact ⟨f, c, hf, hc, hlast, hread f 2 2 c rfl hc⟩

/-- A block may start at zero, and no step checks the identifier before an empty range that starts
there. -/
theorem exists_invalid_variable :
    (∃ g, create 0 (.block [1] none) = .ok g ∧ 0 ∈ g.ids.toList ∧
      g.evaluate [1] = .ok (.positive 0) ∧
      Lit.ofDimacs (Lit.positive 0).toDimacs = .error .zeroLiteral) ∧
    (checkedCreate 0 (.words 2 3 .permutations none)).run = none := by
  refine ⟨⟨.block ⟨⟨0, 1⟩, [1], [1], ⟨[.char 'X', .char '(', .argument 0, .char ')']⟩⟩,
    ?_, ?_, ?_, ?_⟩, ?_⟩
  · decide +kernel
  · decide
  · decide
  · decide
  · decide +kernel

end GroupSpec

end Clausal
