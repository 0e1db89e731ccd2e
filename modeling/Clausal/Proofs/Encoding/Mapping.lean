import Clausal.Encoding.Mapping
import Clausal.Proofs.Request
import Clausal.Proofs.VarGroup.Values
import Mathlib.Order.Fin.Basic
import Mathlib.Tactic.Choose

/-!
# Properties of relations

What a mapping property says is said of a relation between two lists of numbers, whatever the
variables of the relation are. Both representations of a mapping are measured by it. A relation that
is complete and functional is the graph of a function, and its other properties are those of the
function (`MappingProperty.forall_holds_iff`).
-/

namespace Clausal

/-- Whether a relation between the numbers of two lists has a property. -/
def MappingProperty.Holds (property : MappingProperty) (domain range : List Nat)
    (R : Nat → Nat → Prop) : Prop :=
  match property with
  | .complete => ∀ u ∈ domain, ∃ v ∈ range, R u v
  | .functional => ∀ u ∈ domain, ∀ v ∈ range, ∀ v' ∈ range, R u v → R u v' → v = v'
  | .surjective => ∀ v ∈ range, ∃ u ∈ domain, R u v
  | .injective => ∀ v ∈ range, ∀ u ∈ domain, ∀ u' ∈ domain, R u v → R u' v → u = u'
  | .nondecreasing => ∀ u ∈ domain, ∀ u' ∈ domain, u < u' → ∀ v ∈ range, ∀ v' ∈ range,
      R u v → R u' v' → v ≤ v'

/-! ## Functions -/

theorem mem_range'_iff_exists_fin {s n x : Nat} :
    x ∈ List.range' s n ↔ ∃ i : Fin n, (i : Nat) + s = x := by
  rw [List.mem_range'_1]
  constructor
  · rintro ⟨hlow, hhigh⟩
    exact ⟨⟨x - s, by omega⟩, Nat.sub_add_cancel hlow⟩
  · rintro ⟨i, rfl⟩
    omega

theorem fin_add_mem_range' {n : Nat} (s : Nat) (i : Fin n) : (i : Nat) + s ∈ List.range' s n :=
  mem_range'_iff_exists_fin.mpr ⟨i, rfl⟩

namespace MappingProperty

/-- Whether a function has the properties of a list that functions can lack. -/
structure FunctionHas (properties : List MappingProperty) {n m : Nat} (φ : Fin n → Fin m) :
    Prop where
  injective : .injective ∈ properties → Function.Injective φ
  monotone : .nondecreasing ∈ properties → Monotone φ

variable {n m s t : Nat} {R : Nat → Nat → Prop}

theorem exists_function
    (hcomplete : MappingProperty.complete.Holds (List.range' s n) (List.range' t m) R)
    (hfunctional : MappingProperty.functional.Holds (List.range' s n) (List.range' t m) R) :
    ∃ φ : Fin n → Fin m, ∀ (i : Fin n) (v : Fin m), R (i + s) (v + t) ↔ φ i = v := by
  have hvalue : ∀ i : Fin n, ∃ v : Fin m, R (i + s) (v + t) := by
    intro i
    obtain ⟨x, hx, hrel⟩ := hcomplete _ (fin_add_mem_range' s i)
    obtain ⟨v, rfl⟩ := mem_range'_iff_exists_fin.mp hx
    exact ⟨v, hrel⟩
  choose φ hφ using hvalue
  refine ⟨φ, fun i v => ⟨fun hrel => ?_, ?_⟩⟩
  · have heq := hfunctional _ (fin_add_mem_range' s i) _ (fin_add_mem_range' t (φ i)) _
      (fin_add_mem_range' t v) (hφ i) hrel
    exact Fin.ext (Nat.add_right_cancel heq)
  · rintro rfl
    exact hφ i

section Graph

variable {φ : Fin n → Fin m} (hφ : ∀ (i : Fin n) (v : Fin m), R (i + s) (v + t) ↔ φ i = v)

include hφ

theorem complete_of_function :
    MappingProperty.complete.Holds (List.range' s n) (List.range' t m) R := by
  intro u hu
  obtain ⟨i, rfl⟩ := mem_range'_iff_exists_fin.mp hu
  exact ⟨_, fin_add_mem_range' t (φ i), (hφ i _).mpr rfl⟩

theorem functional_of_function :
    MappingProperty.functional.Holds (List.range' s n) (List.range' t m) R := by
  intro u hu x hx x' hx' hrel hrel'
  obtain ⟨i, rfl⟩ := mem_range'_iff_exists_fin.mp hu
  obtain ⟨v, rfl⟩ := mem_range'_iff_exists_fin.mp hx
  obtain ⟨v', rfl⟩ := mem_range'_iff_exists_fin.mp hx'
  rw [← (hφ i v).mp hrel, ← (hφ i v').mp hrel']

theorem injective_iff_of_function :
    MappingProperty.injective.Holds (List.range' s n) (List.range' t m) R ↔
      Function.Injective φ := by
  constructor
  · intro hinjective i i' heq
    have hsame := hinjective _ (fin_add_mem_range' t (φ i)) _ (fin_add_mem_range' s i) _
      (fin_add_mem_range' s i') ((hφ i _).mpr rfl) ((hφ i' _).mpr heq.symm)
    exact Fin.ext (Nat.add_right_cancel hsame)
  · intro hinjective x hx u hu u' hu' hrel hrel'
    obtain ⟨v, rfl⟩ := mem_range'_iff_exists_fin.mp hx
    obtain ⟨i, rfl⟩ := mem_range'_iff_exists_fin.mp hu
    obtain ⟨i', rfl⟩ := mem_range'_iff_exists_fin.mp hu'
    rw [hinjective (((hφ i v).mp hrel).trans ((hφ i' v).mp hrel').symm)]

theorem nondecreasing_iff_of_function :
    MappingProperty.nondecreasing.Holds (List.range' s n) (List.range' t m) R ↔ Monotone φ := by
  constructor
  · intro hmono i i' hle
    rcases hle.eq_or_lt with rfl | hlt
    · exact le_refl _
    · have hvalues := hmono _ (fin_add_mem_range' s i) _ (fin_add_mem_range' s i')
        (Nat.add_lt_add_right hlt s) _ (fin_add_mem_range' t (φ i)) _
        (fin_add_mem_range' t (φ i')) ((hφ i _).mpr rfl) ((hφ i' _).mpr rfl)
      exact Nat.le_of_add_le_add_right hvalues
  · intro hmono u hu u' hu' hlt x hx x' hx' hrel hrel'
    obtain ⟨i, rfl⟩ := mem_range'_iff_exists_fin.mp hu
    obtain ⟨i', rfl⟩ := mem_range'_iff_exists_fin.mp hu'
    obtain ⟨v, rfl⟩ := mem_range'_iff_exists_fin.mp hx
    obtain ⟨v', rfl⟩ := mem_range'_iff_exists_fin.mp hx'
    have hle : i ≤ i' := Nat.le_of_lt (Nat.lt_of_add_lt_add_right hlt)
    have hvalues : φ i ≤ φ i' := hmono hle
    rw [(hφ i v).mp hrel, (hφ i' v').mp hrel'] at hvalues
    exact Nat.add_le_add_right hvalues t

end Graph

/-- Complete and functional relations are the graphs of functions. -/
theorem forall_holds_iff {properties : List MappingProperty}
    (hproperties : ∀ p ∈ properties, p = .injective ∨ p = .nondecreasing) :
    (∀ p ∈ complete :: functional :: properties, p.Holds (List.range' s n) (List.range' t m) R) ↔
      ∃ φ : Fin n → Fin m, FunctionHas properties φ ∧
        ∀ (i : Fin n) (v : Fin m), R (i + s) (v + t) ↔ φ i = v := by
  rw [List.forall_mem_cons, List.forall_mem_cons]
  constructor
  · rintro ⟨hcomplete, hfunctional, hothers⟩
    obtain ⟨φ, hφ⟩ := exists_function hcomplete hfunctional
    refine ⟨φ, ⟨fun hmem => ?_, fun hmem => ?_⟩, hφ⟩
    · exact (injective_iff_of_function hφ).mp (hothers _ hmem)
    · exact (nondecreasing_iff_of_function hφ).mp (hothers _ hmem)
  · rintro ⟨φ, hhave, hφ⟩
    refine ⟨complete_of_function hφ, functional_of_function hφ, fun p hp => ?_⟩
    rcases hproperties p hp with rfl | rfl
    · exact (injective_iff_of_function hφ).mpr (hhave.injective hp)
    · exact (nondecreasing_iff_of_function hφ).mpr (hhave.monotone hp)

end MappingProperty

/-! ## Requests can be stated -/

theorem UnaryMapping.stateable_of_exclude {f : UnaryMapping} {u v u' v' : Nat} {request : Request}
    (h : f.exclude u v u' v' = .ok request) : request.Stateable := by
  obtain ⟨first, -, h⟩ := Except.bind_eq_ok_iff.mp h
  obtain ⟨second, -, h⟩ := Except.bind_eq_ok_iff.mp h
  cases h
  trivial

theorem BinaryMapping.stateable_of_exclude {f : BinaryMapping} {i j i' j' : Nat}
    {request : Request} (h : f.exclude i j i' j' = .ok request) : request.Stateable := by
  obtain ⟨first, -, h⟩ := Except.bind_eq_ok_iff.mp h
  obtain ⟨second, -, h⟩ := Except.bind_eq_ok_iff.mp h
  cases h
  trivial

theorem Mapping.stateable_of_mem_requests {f : Mapping} {property : MappingProperty}
    {request : Request} (h : .ok request ∈ f.requests property) : request.Stateable := by
  have hclause : ∀ {lits : Except Error (List Lit)}, lits.map Request.clause = .ok request →
      request.Stateable := by
    intro lits hlits
    obtain ⟨c, -, rfl⟩ := Except.map_eq_ok_iff.mp hlits
    trivial
  have hlinear : ∀ {lits : Except Error (List Lit)},
      lits.map (Request.linear · .le 1) = .ok request → request.Stateable := by
    intro lits hlits
    obtain ⟨c, -, rfl⟩ := Except.map_eq_ok_iff.mp hlits
    exact Or.inr ⟨rfl, rfl⟩
  cases f with
  | unary f =>
    cases property with
    | complete | surjective =>
      obtain ⟨_, -, h⟩ := List.mem_map.mp h
      exact hclause h
    | functional | injective =>
      obtain ⟨_, -, h⟩ := List.mem_map.mp h
      exact hlinear h
    | nondecreasing =>
      obtain ⟨⟨⟨u, row⟩, later⟩, -, h⟩ := List.mem_flatMap.mp h
      obtain ⟨⟨u', row'⟩, -, h⟩ := List.mem_flatMap.mp h
      obtain ⟨⟨v, v'⟩, -, h⟩ := List.mem_map.mp h
      exact UnaryMapping.stateable_of_exclude h
  | binary f =>
    cases property with
    | functional | surjective => cases h
    | complete =>
      simp only [requests, BinaryMapping.requests] at h
      split at h
      · cases h
      · obtain ⟨i, -, h⟩ := List.mem_flatMap.mp h
        obtain ⟨j, -, h⟩ := List.mem_map.mp h
        exact hclause h
    | injective | nondecreasing =>
      simp only [requests, BinaryMapping.requests] at h
      split at h
      · cases h
      · obtain ⟨_, -, h⟩ := List.mem_flatMap.mp h
        obtain ⟨_, -, h⟩ := List.mem_map.mp h
        exact BinaryMapping.stateable_of_exclude h

end Clausal
