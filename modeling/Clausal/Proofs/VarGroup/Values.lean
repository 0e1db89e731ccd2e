import Clausal.Proofs.VarGroup.Table
import Clausal.Valuation
import Mathlib.Logic.Equiv.Basic

/-!
# Values of the variables of a group

Under a valuation each index of a group is true or false. The values of the variables of a group,
all others left out, correspond one to one to the sets of its indices, and so to anything that such
sets encode (`Enumerates.exists_equiv`).
-/

namespace Clausal

namespace VarGroup

/-- The truth value of the variable of an index. What is no index has no variable. -/
def truth (g : VarGroup) (ν : Valuation) (index : Index) : Bool :=
  match g.evaluate index with
  | .ok l => l.holds ν
  | .error _ => false

theorem truth_eq_true_iff {g : VarGroup} {ν : Valuation} {index : Index} :
    g.truth ν index = true ↔ ∃ l, g.evaluate index = .ok l ∧ l.holds ν = true := by
  rw [truth]
  cases g.evaluate index <;> simp

theorem truth_of_evaluate {g : VarGroup} {index : Index} {l : Lit}
    (h : g.evaluate index = .ok l) (ν : Valuation) : g.truth ν index = l.holds ν := by
  rw [truth, h]

end VarGroup

namespace IdRange

/-- Truth values for the identifiers of a range. -/
abbrev Values (r : IdRange) : Type := {id // id ∈ r.toList} → Bool

variable {r : IdRange}

/-- The valuation with some values in a range, false outside. -/
def Values.extend (a : r.Values) : Valuation := fun id =>
  if h : id ∈ r.toList then a ⟨id, h⟩ else false

/-- The values that a valuation has in a range. -/
def restrict (r : IdRange) (ν : Valuation) : r.Values := fun id => ν id

theorem extend_of_mem (a : r.Values) {id : Nat} (h : id ∈ r.toList) :
    a.extend id = a ⟨id, h⟩ :=
  dif_pos h

end IdRange

namespace VarGroup.Enumerates

variable {g : VarGroup} {table : List Index} (h : g.Enumerates table)

include h

theorem truth_of_mem_zipIdx {e : Index × Nat} (he : e ∈ table.zipIdx g.ids.first)
    (ν : Valuation) : g.truth ν e.1 = ν e.2 := by
  rw [truth_of_evaluate (h.evaluate_eq e he), Lit.holds, Lit.positive]
  exact Bool.bne_false _

theorem exists_id {index : Index} (hindex : index ∈ table) :
    ∃ id ∈ g.ids.toList, (index, id) ∈ table.zipIdx g.ids.first := by
  obtain ⟨id, he⟩ := exists_number hindex g.ids.first
  refine ⟨id, ?_, he⟩
  rw [h.ids_toList]
  exact List.mem_map.mpr ⟨_, he, rfl⟩

theorem truth_restrict {index : Index} (hindex : index ∈ table) (ν : Valuation) :
    g.truth (g.ids.restrict ν).extend index = g.truth ν index := by
  obtain ⟨id, hid, he⟩ := h.exists_id hindex
  rw [h.truth_of_mem_zipIdx he, h.truth_of_mem_zipIdx he, IdRange.extend_of_mem _ hid]
  rfl

theorem exists_values (T : Index → Prop) :
    ∃ a : g.ids.Values, ∀ index ∈ table, g.truth a.extend index = true ↔ T index := by
  classical
  refine ⟨fun id => decide (∃ index, g.toIndex (.positive id) = .ok index ∧ T index), ?_⟩
  intro index hindex
  obtain ⟨id, hid, he⟩ := h.exists_id hindex
  have htoIndex : g.toIndex (.positive id) = .ok index := h.toIndex_eq _ he _ rfl
  rw [h.truth_of_mem_zipIdx he, IdRange.extend_of_mem _ hid, decide_eq_true_iff]
  constructor
  · rintro ⟨index', hindex', hT⟩
    cases htoIndex.symm.trans hindex'
    exact hT
  · intro hT
    exact ⟨index, htoIndex, hT⟩

theorem values_ext {a a' : g.ids.Values}
    (heq : ∀ index ∈ table, g.truth a.extend index = g.truth a'.extend index) : a = a' := by
  funext ⟨id, hid⟩
  obtain ⟨index, he⟩ := h.exists_mem_zipIdx hid
  have htruth := heq index (List.fst_mem_of_mem_zipIdx he)
  rw [h.truth_of_mem_zipIdx he, h.truth_of_mem_zipIdx he, IdRange.extend_of_mem a hid,
    IdRange.extend_of_mem a' hid] at htruth
  exact htruth

/-- If a property of valuations says that the true indices encode something admitted, then the values
with this property correspond one to one to what is admitted. -/
theorem exists_equiv {κ β : Type} {keys : κ → Index} (hkeys : Function.Injective keys)
    (htable : ∀ index, index ∈ table ↔ ∃ k, keys k = index) {sat : Valuation → Prop}
    {admitted : β → Prop} {code : β → κ → Prop}
    (hsat : ∀ ν, sat ν ↔ ∃ x, admitted x ∧ ∀ k, g.truth ν (keys k) = true ↔ code x k)
    (hcode : ∀ x x', (∀ k, code x k ↔ code x' k) → x = x') :
    (∀ ν, sat ν ↔ sat (g.ids.restrict ν).extend) ∧
    ∃ e : {a : g.ids.Values // sat a.extend} ≃ {x // admitted x},
      ∀ a k, g.truth a.1.extend (keys k) = true ↔ code (e a).1 k := by
  have hmem : ∀ k, keys k ∈ table := fun k => (htable _).mpr ⟨k, rfl⟩
  constructor
  · intro ν
    rw [hsat, hsat]
    simp only [h.truth_restrict (hmem _)]
  · have hdecode : ∀ a : {a : g.ids.Values // sat a.extend},
        ∃ x : {x // admitted x}, ∀ k, g.truth a.1.extend (keys k) = true ↔ code x.1 k := by
      intro a
      obtain ⟨x, hx, htruth⟩ := (hsat _).mp a.2
      exact ⟨⟨x, hx⟩, htruth⟩
    choose decode hdecode using hdecode
    have hinjective : Function.Injective decode := by
      intro a a' heq
      apply Subtype.ext
      apply h.values_ext
      intro index hindex
      obtain ⟨k, rfl⟩ := (htable index).mp hindex
      rw [Bool.eq_iff_iff, hdecode a k, hdecode a' k, heq]
    have hsurjective : Function.Surjective decode := by
      intro x
      -- the values that make true what the code holds, and nothing else
      obtain ⟨a, ha⟩ := h.exists_values fun index => ∃ k, keys k = index ∧ code x.1 k
      have htruth : ∀ k, g.truth a.extend (keys k) = true ↔ code x.1 k := by
        intro k
        rw [ha (keys k) (hmem k)]
        constructor
        · rintro ⟨k', hk', hcode'⟩
          exact hkeys hk' ▸ hcode'
        · intro hk
          exact ⟨k, rfl, hk⟩
      refine ⟨⟨a, (hsat _).mpr ⟨x.1, x.2, htruth⟩⟩, ?_⟩
      apply Subtype.ext
      apply hcode
      intro k
      rw [← hdecode, htruth]
    exact ⟨Equiv.ofBijective decode ⟨hinjective, hsurjective⟩, hdecode⟩

end VarGroup.Enumerates

end Clausal
