import Clausal.Proofs.VarGroup
import Clausal.Proofs.VarGroup.Values

/-!
# Groups that were made

What a registry holds was made by a description from some identifier on. The identifiers of such a
group were allocated (`GroupSpec.create_allocated`), so they end at the last variable there can be,
and whatever literals it hands out are over its own identifiers.
-/

namespace Clausal

/-- The range ends after some identifier, though it may be empty, and at the last variable there
can be or before. -/
def IdRange.Allocated (r : IdRange) : Prop := 0 < r.stop ∧ r.stop ≤ maxVar + 1

theorem SingleVar.create_allocated {id : Nat} {name : Option String} {g : SingleVar}
    (h : create id name = .ok g) : g.ids.Allocated := by
  obtain ⟨var, hvar, rfl⟩ := Except.map_eq_ok_iff.mp h
  rw [checkVar] at hvar
  split_ifs at hvar with hrange
  cases hvar
  show 0 < id + 1 ∧ id + 1 ≤ maxVar + 1
  omega

theorem Block.create_allocated {start : Nat} {ranges : List Nat} {label : Option String} {g : Block}
    (h : create start ranges label = .ok g) : g.ids.Allocated := by
  unfold create at h
  split_ifs at h
  · cases h
  · split at h
    · cases h
    · split at h
      · cases h
      · obtain ⟨-, -, h⟩ := Except.bind_eq_ok_iff.mp h
        obtain ⟨format, -, h⟩ := Except.bind_eq_ok_iff.mp h
        obtain ⟨ids, hids, h⟩ := Except.bind_eq_ok_iff.mp h
        obtain ⟨rfl, hrange⟩ := IdRange.alloc_eq_ok_iff.mp hids
        cases h
        exact hrange

theorem Words.create_allocated {start n k : Nat} {family : Family} {label : Option String}
    {g : Words} (h : create start n k family label = .ok g) : g.ids.Allocated := by
  unfold create at h
  obtain ⟨ids, hids, h⟩ := Except.bind_eq_ok_iff.mp h
  obtain ⟨format, -, h⟩ := Except.bind_eq_ok_iff.mp h
  obtain ⟨rfl, hrange⟩ := IdRange.alloc_eq_ok_iff.mp hids
  cases h
  exact hrange

theorem BipartiteEdges.create_allocated {start : Nat} {graph : BipartiteGraph} {label : String}
    {g : BipartiteEdges} (h : create start graph label = .ok g) : g.ids.Allocated := by
  unfold create at h
  obtain ⟨ids, hids, h⟩ := Except.bind_eq_ok_iff.mp h
  obtain ⟨format, -, h⟩ := Except.bind_eq_ok_iff.mp h
  obtain ⟨rfl, hrange⟩ := IdRange.alloc_eq_ok_iff.mp hids
  cases h
  exact hrange

theorem BinaryMapping.create_allocated {start n m : Nat} {label : Option String} {f : BinaryMapping}
    (h : create start n m label = .ok f) : f.ids.Allocated := by
  unfold create at h
  split_ifs at h
  · cases h
  · dsimp only at h
    split at h
    · cases h
    · obtain ⟨ids, hids, h⟩ := Except.bind_eq_ok_iff.mp h
      obtain ⟨format, -, h⟩ := Except.bind_eq_ok_iff.mp h
      obtain ⟨rfl, hrange⟩ := IdRange.alloc_eq_ok_iff.mp hids
      cases h
      exact hrange

theorem GroupSpec.create_allocated {spec : GroupSpec} {start : Nat} {g : VarGroup}
    (h : spec.create start = .ok g) : g.ids.Allocated := by
  cases spec with
  | singleton name =>
    obtain ⟨g, hg, rfl⟩ := Except.map_eq_ok_iff.mp h
    exact SingleVar.create_allocated hg
  | block ranges label =>
    obtain ⟨g, hg, rfl⟩ := Except.map_eq_ok_iff.mp h
    exact Block.create_allocated hg
  | words n k family label =>
    obtain ⟨g, hg, rfl⟩ := Except.map_eq_ok_iff.mp h
    exact Words.create_allocated hg
  | bipartite graph label =>
    obtain ⟨g, hg, rfl⟩ := Except.map_eq_ok_iff.mp h
    exact BipartiteEdges.create_allocated hg
  | graph graph label =>
    obtain ⟨g, hg, rfl⟩ := Except.map_eq_ok_iff.mp h
    obtain ⟨upper, -, hlayout⟩ := GraphEdges.exists_layout_of_create hg
    exact BipartiteEdges.create_allocated hlayout
  | digraph graph order label =>
    obtain ⟨g, hg, rfl⟩ := Except.map_eq_ok_iff.mp h
    obtain ⟨upper, -, hlayout⟩ := DigraphEdges.exists_layout_of_create hg
    exact BipartiteEdges.create_allocated hlayout
  | mapping graph label =>
    obtain ⟨f, hf, rfl⟩ := Except.map_eq_ok_iff.mp h
    obtain ⟨pairs, hpairs, rfl⟩ := Except.map_eq_ok_iff.mp hf
    exact BipartiteEdges.create_allocated hpairs
  | binaryMapping n m label =>
    obtain ⟨f, hf, rfl⟩ := Except.map_eq_ok_iff.mp h
    exact BinaryMapping.create_allocated hf

theorem GroupSpec.create_stop_le {spec : GroupSpec} {start : Nat} {g : VarGroup}
    (h : spec.create start = .ok g) : g.ids.stop ≤ maxVar + 1 :=
  (create_allocated h).2

namespace VarGroup

/-- Some description makes the group. -/
def Made (g : VarGroup) : Prop :=
  ∃ (spec : GroupSpec) (start : Nat), spec.Reachable ∧ spec.create start = .ok g

theorem Made.stop_le {g : VarGroup} (h : g.Made) : g.ids.stop ≤ maxVar + 1 := by
  obtain ⟨spec, start, -, hcreate⟩ := h
  exact GroupSpec.create_stop_le hcreate

namespace Enumerates

variable {g : VarGroup} {table : List Index} (h : g.Enumerates table)

include h

theorem var_mem_of_evaluate {index : Index} {l : Lit} (hindex : index ∈ table)
    (hl : g.evaluate index = .ok l) : l.var ∈ g.ids.toList := by
  obtain ⟨id, hid, he⟩ := h.exists_id hindex
  cases (h.evaluate_eq _ he).symm.trans hl
  exact hid

theorem var_mem_of_lits {p : Pattern} {lits : List Lit} {l : Lit} (hlits : g.lits p = .ok lits)
    (hl : l ∈ lits) : l.var ∈ g.ids.toList := by
  rw [h.lits_eq] at hlits
  obtain ⟨is, his, hlits⟩ := Except.bind_eq_ok_iff.mp hlits
  rw [h.indices_eq_filter his, mapM_filter_zipIdx h.evaluate_eq, Except.ok.injEq] at hlits
  rw [← hlits] at hl
  obtain ⟨e, he, rfl⟩ := List.mem_map.mp hl
  rw [h.ids_toList]
  exact List.mem_map_of_mem (List.mem_filter.mp he).1

end Enumerates

end VarGroup

end Clausal
