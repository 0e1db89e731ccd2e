import Clausal.Proofs.Constraint
import Clausal.Proofs.Encoding.Mapping.Binary
import Clausal.Proofs.Encoding.Mapping.Unary
import Clausal.Proofs.VarGroup.Made

/-!
# Properties of mappings that were made

All constraints of a mapping that was made can be built, whatever the property
(`Mapping.built_of_made`), and their literals are over the variables of the mapping
(`Mapping.var_mem_of_made`).
-/

namespace Clausal

/-! ## One variable for each pair -/

namespace UnaryMapping

variable {f : UnaryMapping}

theorem laidOut_of_made (h : (VarGroup.unary f).Made) : f.pairs.LaidOut := by
  obtain ⟨spec, start, hspec, hcreate⟩ := h
  cases spec with
  | mapping graph label =>
    obtain ⟨f', hf, heq⟩ := Except.map_eq_ok_iff.mp hcreate
    cases heq
    exact (create_laidOut (BipartiteGraph.wellFormed_of_reachable hspec) hf).1
  | singleton | block | words | bipartite | graph | digraph | binaryMapping =>
    obtain ⟨g, -, heq⟩ := Except.map_eq_ok_iff.mp hcreate
    cases heq

variable (h : f.pairs.LaidOut)

include h

theorem var_mem_of_evaluate {u v : Nat} {l : Lit} (hl : f.pairs.evaluate [u, v] = .ok l) :
    l.var ∈ f.pairs.ids.toList := by
  have hindex : [u, v] ∈ f.pairs.graph.edges.map fun e => [e.1, e.2] :=
    List.mem_map_of_mem (mem_edges_of_evaluate hl)
  exact h.enumerates_unary.var_mem_of_evaluate hindex hl

theorem var_mem_of_exclude {u v u' v' : Nat} {request : Request}
    (hrequest : f.exclude u v u' v' = .ok request) :
    ∀ l ∈ request.lits, l.var ∈ f.pairs.ids.toList := by
  obtain ⟨first, hfirst, hrequest⟩ := Except.bind_eq_ok_iff.mp hrequest
  obtain ⟨second, hsecond, hrequest⟩ := Except.bind_eq_ok_iff.mp hrequest
  cases hrequest
  intro l hl
  rcases List.mem_pair.mp hl with rfl | rfl
  · rw [Lit.flip_var]
    exact var_mem_of_evaluate h hfirst
  · rw [Lit.flip_var]
    exact var_mem_of_evaluate h hsecond

theorem var_mem_of_requests {property : MappingProperty} {request : Request}
    (hmem : .ok request ∈ f.requests property) :
    ∀ l ∈ request.lits, l.var ∈ f.pairs.ids.toList := by
  have hlits : ∀ {p : Pattern} {lits : List Lit}, f.pairs.lits p = .ok lits →
      ∀ l ∈ lits, l.var ∈ f.pairs.ids.toList := by
    intro p lits heq l hl
    exact h.enumerates_unary.var_mem_of_lits heq hl
  -- a line of pairs becomes a clause or a linear constraint, over the literals of the line
  cases property with
  | complete | functional | surjective | injective =>
    obtain ⟨x, -, hx⟩ := List.mem_map.mp hmem
    obtain ⟨lits, heq, rfl⟩ := Except.map_eq_ok_iff.mp hx
    exact hlits heq
  | nondecreasing =>
    obtain ⟨⟨⟨u, row⟩, later⟩, -, hmem⟩ := List.mem_flatMap.mp hmem
    obtain ⟨⟨u', row'⟩, -, hmem⟩ := List.mem_flatMap.mp hmem
    obtain ⟨⟨v, v'⟩, -, hexclude⟩ := List.mem_map.mp hmem
    exact var_mem_of_exclude h hexclude

end UnaryMapping

/-! ## Bit by bit -/

namespace BinaryMapping

variable {f : BinaryMapping}

theorem exists_create_of_made (h : (VarGroup.binary f).Made) :
    ∃ start n m label, create start n m label = .ok f := by
  obtain ⟨spec, start, -, hcreate⟩ := h
  cases spec with
  | binaryMapping n m label =>
    obtain ⟨f', hf, heq⟩ := Except.map_eq_ok_iff.mp hcreate
    cases heq
    exact ⟨start, n, m, label, hf⟩
  | singleton | block | words | bipartite | graph | digraph | mapping =>
    obtain ⟨g, -, heq⟩ := Except.map_eq_ok_iff.mp hcreate
    cases heq

section Enumerates

variable (h : (VarGroup.binary f).Enumerates (tuples [f.domain, f.bitPositions]))

include h

theorem var_mem_of_forbid {i j : Nat} {c : Clause} (hc : f.forbid i j = .ok c) :
    ∀ l ∈ c, l.var ∈ f.ids.toList := by
  obtain ⟨⟨⟩, hi, hc⟩ := Except.bind_eq_ok_iff.mp hc
  have hdomain : i ∈ f.domain := checkDomain_eq_ok_iff.mp hi
  split_ifs at hc
  · cases hc
  · cases hc
    intro l hl
    obtain ⟨b, hb, rfl⟩ := List.mem_map.mp hl
    have hindex : [i, b] ∈ tuples [f.domain, f.bitPositions] :=
      mem_tuples.mpr (.cons hdomain (.cons hb .nil))
    have hevaluate : (VarGroup.binary f).evaluate [i, b] = .ok (f.litAt i b) :=
      evaluate_bit hdomain (mem_bitPositions.mp hb)
    rw [Lit.flipIf_var]
    exact h.var_mem_of_evaluate hindex hevaluate

theorem var_mem_of_exclude {i j i' j' : Nat} {request : Request}
    (hrequest : f.exclude i j i' j' = .ok request) :
    ∀ l ∈ request.lits, l.var ∈ f.ids.toList := by
  obtain ⟨first, hfirst, hrequest⟩ := Except.bind_eq_ok_iff.mp hrequest
  obtain ⟨second, hsecond, hrequest⟩ := Except.bind_eq_ok_iff.mp hrequest
  cases hrequest
  exact List.forall_mem_append.mpr ⟨var_mem_of_forbid h hfirst, var_mem_of_forbid h hsecond⟩

theorem var_mem_of_requests {property : MappingProperty} {request : Request}
    (hmem : .ok request ∈ f.requests property) : ∀ l ∈ request.lits, l.var ∈ f.ids.toList := by
  cases property with
  | functional | surjective => cases hmem
  | complete =>
    rw [requests_complete] at hmem
    obtain ⟨i, -, hmem⟩ := List.mem_flatMap.mp hmem
    obtain ⟨j, -, hforbid⟩ := List.mem_map.mp hmem
    obtain ⟨c, hc, rfl⟩ := Except.map_eq_ok_iff.mp hforbid
    exact var_mem_of_forbid h hc
  | injective =>
    rw [requests_injective] at hmem
    obtain ⟨j, -, hmem⟩ := List.mem_flatMap.mp hmem
    obtain ⟨⟨i, i'⟩, -, hexclude⟩ := List.mem_map.mp hmem
    exact var_mem_of_exclude h hexclude
  | nondecreasing =>
    rw [requests_nondecreasing] at hmem
    obtain ⟨⟨i, i'⟩, -, hmem⟩ := List.mem_flatMap.mp hmem
    obtain ⟨⟨j, j'⟩, -, hexclude⟩ := List.mem_map.mp hmem
    exact var_mem_of_exclude h hexclude

end Enumerates

theorem built_of_made (h : (VarGroup.binary f).Made) (property : MappingProperty) :
    ∀ result ∈ f.requests property, ∃ request, result = .ok request := by
  obtain ⟨start, n, m, label, hcreate⟩ := exists_create_of_made h
  by_cases hproperty : property = .surjective
  · subst hproperty
    intro result hresult
    cases hresult
  · exact (expresses_property (create_le_bitRange hcreate) hproperty).built

end BinaryMapping

/-! ## Both representations -/

namespace Mapping

variable {f : Mapping} (h : f.toGroup.Made) (property : MappingProperty)

include h

theorem built_of_made : ∀ result ∈ f.requests property, ∃ request, result = .ok request := by
  cases f with
  | unary f =>
    exact (UnaryMapping.expresses_property (UnaryMapping.laidOut_of_made h) property).built
  | binary f => exact BinaryMapping.built_of_made h property

theorem var_mem_of_made {request : Request} (hmem : .ok request ∈ f.requests property) :
    ∀ l ∈ request.lits, l.var ∈ f.toGroup.ids.toList := by
  cases f with
  | unary f => exact UnaryMapping.var_mem_of_requests (UnaryMapping.laidOut_of_made h) hmem
  | binary f =>
    obtain ⟨start, n, m, label, hcreate⟩ := BinaryMapping.exists_create_of_made h
    exact BinaryMapping.var_mem_of_requests (BinaryMapping.create_enumerates hcreate) hmem

end Mapping

end Clausal
