import Clausal.Proofs.Limits
import Clausal.Proofs.Outcome
import Clausal.Valuation
import Mathlib.Data.Int.Order.Basic
import Mathlib.Data.List.Forall2

/-!
# Normalization keeps the meaning

Without any limits on numbers every constraint but `≠` has a normal form (`normalForm`): all signs
change for `≤` and `<`, a strict relation moves the bound by one, and a negative coefficient moves to
the flipped literal and adds its absolute value to the bound. It holds under a valuation exactly when
the constraint that it is made from does, where sums are exact (`normalForm_holds_iff`). Whatever a
normalization returns is this normal form (`normalize_eq_ok`), so normalizing keeps the meaning
(`normalize_preserves_meaning`). Conversely the normal form is returned if all numbers on the way to
it are in range (`normalize_of_normalizable`).
-/

namespace Clausal

theorem PbRelation.holds_add_right (rel : PbRelation) (a b c : Int) :
    rel.Holds (a + c) (b + c) ↔ rel.Holds a b := by
  cases rel <;> simp only [PbRelation.Holds] <;> omega

/-! ## Relations -/

namespace Relation

/-- Whether all signs change, which turns `≤` into `≥`. -/
def changesSigns : Relation → Bool
  | lt | le => true
  | gt | ge | eq | ne => false

/-- The relation that is left, where there is one. -/
def normal : Relation → PbRelation
  | eq => .eq
  | lt | le | gt | ge | ne => .ge

/-- The bound of the relation that is left. -/
def normalBound (rel : Relation) (bound : Int) : Int :=
  match rel with
  | gt => bound + 1
  | le => -bound
  | lt => -(bound - 1)
  | ge | eq | ne => bound

theorem normal_holds_iff {rel : Relation} (hne : rel ≠ .ne) (sum bound : Int) :
    rel.normal.Holds (if rel.changesSigns then -sum else sum) (rel.normalBound bound) ↔
      rel.Holds sum bound := by
  cases rel with
  | ne => exact absurd rfl hne
  | ge | eq => exact Iff.rfl
  | lt | le | gt =>
    simp only [normal, changesSigns, normalBound, PbRelation.Holds, Holds, if_true,
      Bool.false_eq_true, if_false]
    omega

end Relation

namespace PbConstraint

/-! ## Terms -/

/-- The terms, with their signs changed if the relation asks for it. -/
def signedTerms (rel : Relation) (terms : List (Lit × Int)) : List (Lit × Int) :=
  if rel.changesSigns then terms.map fun t => (t.1, -t.2) else terms

/-- A term with a positive coefficient: a negative one leaves its absolute value at the flipped
literal. -/
def positiveTerm (t : Lit × Int) : Lit × Nat :=
  (t.1.flipIf (t.2 < 0), t.2.natAbs)

/-- The sum of the absolute values of the negative coefficients. -/
def negativeSum : List (Lit × Int) → Int
  | [] => 0
  | (_, w) :: terms => (if w < 0 then -w else 0) + negativeSum terms

theorem negativeSum_nonneg (terms : List (Lit × Int)) : 0 ≤ negativeSum terms := by
  induction terms with
  | nil => exact Int.le_refl 0
  | cons term terms ih =>
    rw [negativeSum]
    split <;> omega

theorem coefficientTrue_map_neg (ν : Valuation) (terms : List (Lit × Int)) :
    coefficientTrue ν (terms.map fun t => (t.1, -t.2)) = -coefficientTrue ν terms := by
  induction terms with
  | nil => rfl
  | cons term terms ih =>
    simp only [List.map_cons, coefficientTrue, ih]
    split <;> omega

theorem coefficientTrue_signedTerms (ν : Valuation) (rel : Relation) (terms : List (Lit × Int)) :
    coefficientTrue ν (signedTerms rel terms) =
      if rel.changesSigns then -coefficientTrue ν terms else coefficientTrue ν terms := by
  rw [signedTerms]
  split
  · exact coefficientTrue_map_neg ν terms
  · rfl

theorem coefficientTrue_unit (ν : Valuation) (lits : List Lit) :
    coefficientTrue ν (lits.map fun l => (l, 1)) = countTrue ν lits := by
  induction lits with
  | nil => rfl
  | cons l lits ih =>
    simp only [List.map_cons, coefficientTrue, countTrue_cons, ih]
    cases l.holds ν <;> simp

/-- Positive coefficients move the sum by the absolute values of the negative ones. -/
theorem weightTrue_map_positiveTerm (ν : Valuation) (terms : List (Lit × Int)) :
    (weightTrue ν (terms.map positiveTerm) : Int) = coefficientTrue ν terms + negativeSum terms := by
  induction terms with
  | nil => rfl
  | cons term terms ih =>
    obtain ⟨l, w⟩ := term
    rw [List.map_cons, positiveTerm, weightTrue, coefficientTrue, negativeSum, Lit.holds_flipIf]
    by_cases hw : w < 0
    · rw [decide_eq_true hw, if_pos hw, Bool.xor_true]
      cases l.holds ν <;>
        simp only [Bool.not_true, Bool.not_false, Bool.false_eq_true, if_true, if_false] <;> omega
    · rw [decide_eq_false hw, if_neg hw, Bool.xor_false]
      cases l.holds ν <;> simp only [Bool.false_eq_true, if_true, if_false] <;> omega

/-! ## The checked steps -/

theorem negateTerms_eq_ok_iff {terms terms' : List (Lit × Int)} :
    negateTerms terms = .ok terms' ↔
      (terms' = terms.map fun t => (t.1, -t.2)) ∧ ∀ t ∈ terms, FitsInt (-t.2) := by
  induction terms generalizing terms' with
  | nil => simp [negateTerms, eq_comm]
  | cons term terms ih =>
    obtain ⟨l, w⟩ := term
    rw [negateTerms, List.forall_mem_cons]
    split
    · rename_i hw
      simp [checkedInt_eq_none_iff.mp hw]
    · rename_i w' hw
      obtain ⟨rfl, hfits⟩ := checkedInt_eq_some_iff.mp hw
      have hterm : FitsInt (-(l, w).2) := hfits
      rw [Except.map_eq_ok_iff_of_forall fun _ => ih, List.map_cons, and_iff_right hterm]

theorem bind_checkedInt_eq_some_iff {shift w shift' : Int} (hshift : 0 ≤ shift) (hw : w < 0) :
    ((checkedInt (-w)).bind fun v => checkedInt (shift + v)) = some shift' ↔
      shift' = shift + -w ∧ shift + -w ≤ maxInt := by
  simp only [Option.bind_eq_some_iff, checkedInt_eq_some_iff, minInt, maxInt]
  constructor
  · rintro ⟨v, ⟨rfl, -⟩, hshift', -, hhigh⟩
    exact ⟨hshift', hhigh⟩
  · rintro ⟨hshift', hhigh⟩
    exact ⟨-w, ⟨rfl, by omega⟩, hshift', by omega⟩

/-- Making the coefficients positive fails only where one of them is zero, or the absolute values of
the negative ones add up to more than a bound can be. -/
theorem positiveTerms_eq_ok_iff {terms : List (Lit × Int)} {shift : Int} {r : List (Lit × Nat) × Int}
    (hlow : 0 ≤ shift) (hhigh : shift ≤ maxInt) :
    positiveTerms shift terms = .ok r ↔ r = (terms.map positiveTerm, shift + negativeSum terms) ∧
      (∀ t ∈ terms, t.2 ≠ 0) ∧ shift + negativeSum terms ≤ maxInt := by
  induction terms generalizing shift r with
  | nil => simp [positiveTerms, negativeSum, eq_comm, hhigh]
  | cons term terms ih =>
    obtain ⟨l, w⟩ := term
    have hsum := negativeSum_nonneg terms
    rw [positiveTerms, List.map_cons, positiveTerm, negativeSum, List.forall_mem_cons]
    rcases lt_trichotomy w 0 with hneg | rfl | hpos
    · rw [if_neg (ne_of_lt hneg), if_neg (lt_asymm hneg), if_pos hneg, decide_eq_true hneg]
      -- what the bound is raised by only grows, so it stays out of range once it is
      rcases hcheck : (checkedInt (-w)).bind fun v => checkedInt (shift + v) with _ | shift'
      · have hout : ¬ shift + -w ≤ maxInt := fun hle => by
          rw [(bind_checkedInt_eq_some_iff hlow hneg).mpr ⟨rfl, hle⟩] at hcheck
          cases hcheck
        simp only [reduceCtorEq, false_iff]
        omega
      · obtain ⟨rfl, hle⟩ := (bind_checkedInt_eq_some_iff hlow hneg).mp hcheck
        have hlow' : 0 ≤ shift + -w := by omega
        dsimp only
        rw [Except.map_eq_ok_iff_of_forall fun _ => ih hlow' hle, ← Int.add_assoc,
          and_iff_right (ne_of_lt hneg)]
        rfl
    · simp
    · rw [if_neg (ne_of_gt hpos), if_pos hpos, if_neg (lt_asymm hpos), Int.zero_add,
        decide_eq_false (lt_asymm hpos)]
      rw [Except.map_eq_ok_iff_of_forall fun _ => ih hlow hhigh, and_iff_right (ne_of_gt hpos)]
      rfl

theorem signTerms_eq_ok_iff {rel : Relation} {terms terms' : List (Lit × Int)} :
    (if rel.changesSigns then negateTerms terms else .ok terms) = .ok terms' ↔
      terms' = signedTerms rel terms ∧ (rel.changesSigns = true → ∀ t ∈ terms, FitsInt (-t.2)) := by
  rw [signedTerms]
  split
  · rename_i hchange
    simp only [negateTerms_eq_ok_iff, hchange, true_implies]
  · rename_i hchange
    simp [hchange, eq_comm]

theorem forall_signedTerms_ne_zero {rel : Relation} {terms : List (Lit × Int)} :
    (∀ t ∈ signedTerms rel terms, t.2 ≠ 0) ↔ ∀ t ∈ terms, t.2 ≠ 0 := by
  rw [signedTerms]
  split
  · rw [List.forall_mem_map]
    exact forall₂_congr fun t _ => not_congr Int.neg_eq_zero
  · rfl

theorem normalRelation_eq_ok {rel : Relation} {bound b : Int} {change : Bool} {rel' : PbRelation}
    (h : normalRelation rel bound = .ok (change, rel', some b)) :
    rel ≠ .ne ∧ change = rel.changesSigns ∧ rel' = rel.normal ∧ b = rel.normalBound bound := by
  cases rel <;> simp only [normalRelation, Except.ok.injEq, Prod.mk.injEq, reduceCtorEq,
    Option.some.injEq, Option.bind_eq_some_iff, checkedInt_eq_some_iff] at h
  case lt =>
    obtain ⟨rfl, rfl, b', ⟨rfl, -⟩, rfl, -⟩ := h
    simp [Relation.changesSigns, Relation.normal, Relation.normalBound]
  all_goals
    obtain ⟨rfl, rfl, hb⟩ := h
    simp [Relation.changesSigns, Relation.normal, Relation.normalBound, hb]

/-- A bound in range takes no step out of range that leads back into it. -/
theorem normalRelation_of_fits {rel : Relation} {bound : Int} (hne : rel ≠ .ne)
    (hbound : FitsInt bound) (h : FitsInt (rel.normalBound bound)) :
    normalRelation rel bound = .ok (rel.changesSigns, rel.normal, some (rel.normalBound bound)) := by
  have hcheck := checkedInt_of_fits h
  cases rel with
  | ne => exact absurd rfl hne
  | ge => rfl
  | eq => rfl
  | gt => exact congrArg (fun b? => Except.ok (false, PbRelation.ge, b?)) hcheck
  | le => exact congrArg (fun b? => Except.ok (true, PbRelation.ge, b?)) hcheck
  | lt =>
    have hstrict : FitsInt (bound - 1) := by
      simp only [FitsInt, Relation.normalBound, minInt, maxInt] at *
      omega
    rw [normalRelation, checkedInt_of_fits hstrict]
    exact congrArg (fun b? => Except.ok (true, PbRelation.ge, b?)) hcheck

/-! ## Normal forms -/

/-- The normal form of `Σ wᵢ·lᵢ rel bound`, whatever the size of the numbers in it. -/
def normalForm (terms : List (Lit × Int)) (rel : Relation) (bound : Int) : PbConstraint where
  terms := (signedTerms rel terms).map positiveTerm
  rel := rel.normal
  bound := rel.normalBound bound + negativeSum (signedTerms rel terms)

theorem normalForm_holds_iff {rel : Relation} (hne : rel ≠ .ne) (terms : List (Lit × Int))
    (bound : Int) (ν : Valuation) :
    (normalForm terms rel bound).Holds ν ↔ rel.Holds (coefficientTrue ν terms) bound := by
  rw [← Relation.normal_holds_iff hne, ← coefficientTrue_signedTerms, PbConstraint.Holds, normalForm,
    weightTrue_map_positiveTerm, PbRelation.holds_add_right]

/-- All numbers that come up on the way to the normal form are in range. -/
structure Normalizable (terms : List (Lit × Int)) (rel : Relation) (bound : Int) : Prop where
  relation_ne : rel ≠ .ne
  coefficient_ne_zero : ∀ t ∈ terms, t.2 ≠ 0
  fits_neg : rel.changesSigns = true → ∀ t ∈ terms, FitsInt (-t.2)
  negativeSum_le : negativeSum (signedTerms rel terms) ≤ maxInt
  fits_bound : FitsInt (normalForm terms rel bound).bound

variable {terms : List (Lit × Int)} {rel : Relation} {bound : Int} {c : PbConstraint}

theorem normalize_of_normalRelation {change : Bool} {rel' : PbRelation} {b : Int}
    (h : normalRelation rel bound = .ok (change, rel', some b)) :
    normalize terms rel bound =
      (if change then negateTerms terms else .ok terms) >>= fun signed =>
        positiveTerms 0 signed >>= fun r =>
          match checkedInt (b + r.2) with
          | none => .error .boundOverflow
          | some b' => .ok ⟨r.1, rel', b'⟩ := by
  rw [normalize, h]
  cases change <;> rfl

theorem normalize_eq_ok (h : normalize terms rel bound = .ok c) :
    Normalizable terms rel bound ∧ c = normalForm terms rel bound := by
  obtain ⟨⟨change, rel', bound?⟩, hrel, hrest⟩ := Except.bind_eq_ok_iff.mp h
  cases bound? with
  | none => cases hrest
  | some b =>
    rw [normalize_of_normalRelation hrel] at h
    obtain ⟨hne, rfl, rfl, rfl⟩ := normalRelation_eq_ok hrel
    obtain ⟨signed, hsigned, h⟩ := Except.bind_eq_ok_iff.mp h
    obtain ⟨weighted, hweighted, h⟩ := Except.bind_eq_ok_iff.mp h
    obtain ⟨rfl, hneg⟩ := signTerms_eq_ok_iff.mp hsigned
    obtain ⟨rfl, hzero, hsum⟩ := (positiveTerms_eq_ok_iff le_rfl (by decide)).mp hweighted
    rw [Int.zero_add] at h hsum
    split at h
    · cases h
    · rename_i b' hb
      obtain ⟨rfl, hfits⟩ := checkedInt_eq_some_iff.mp hb
      cases h
      exact ⟨⟨hne, forall_signedTerms_ne_zero.mp hzero, hneg, hsum, hfits⟩, rfl⟩

theorem normalize_of_normalizable (hbound : FitsInt bound) (h : Normalizable terms rel bound) :
    normalize terms rel bound = .ok (normalForm terms rel bound) := by
  have hsigned := signTerms_eq_ok_iff.mpr ⟨rfl, h.fits_neg⟩
  have hweighted := (positiveTerms_eq_ok_iff (Int.le_refl 0) (by decide)).mpr ⟨rfl,
    forall_signedTerms_ne_zero.mpr h.coefficient_ne_zero, by
      rw [Int.zero_add]
      exact h.negativeSum_le⟩
  have hnormal : FitsInt (rel.normalBound bound) := by
    have hfits := h.fits_bound
    have hle := negativeSum_nonneg (signedTerms rel terms)
    have hsum := h.negativeSum_le
    cases rel <;>
      simp only [FitsInt, normalForm, Relation.normalBound, minInt, maxInt] at * <;> omega
  have hcheck : checkedInt (rel.normalBound bound + negativeSum (signedTerms rel terms)) =
      some (normalForm terms rel bound).bound := checkedInt_of_fits h.fits_bound
  rw [normalize_of_normalRelation (normalRelation_of_fits h.relation_ne hbound hnormal), hsigned,
    Except.ok_bind, hweighted, Except.ok_bind, Int.zero_add]
  dsimp only
  rw [hcheck]
  rfl

theorem normalize_holds_iff (h : normalize terms rel bound = .ok c) (ν : Valuation) :
    c.Holds ν ↔ rel.Holds (coefficientTrue ν terms) bound := by
  obtain ⟨hnormalizable, rfl⟩ := normalize_eq_ok h
  exact normalForm_holds_iff hnormalizable.relation_ne terms bound ν

theorem positiveTerm_fst (t : Lit × Int) :
    (positiveTerm t).1 = t.1 ∨ (positiveTerm t).1 = t.1.flip := by
  rw [positiveTerm, Lit.flipIf]
  split
  · exact Or.inr rfl
  · exact Or.inl rfl

theorem forall₂_normalForm (terms : List (Lit × Int)) (rel : Relation) (bound : Int) :
    List.Forall₂ (fun t t' => (t'.1 = t.1 ∨ t'.1 = t.1.flip) ∧ t'.2 = t.2.natAbs) terms
      (normalForm terms rel bound).terms := by
  rw [normalForm, signedTerms]
  split
  · rw [List.map_map, List.forall₂_map_right_iff, List.forall₂_same]
    exact fun t _ => ⟨positiveTerm_fst (t.1, -t.2), Int.natAbs_neg t.2⟩
  · rw [List.forall₂_map_right_iff, List.forall₂_same]
    exact fun t _ => ⟨positiveTerm_fst t, rfl⟩

/-- **Normalization keeps the meaning.** The weights of a normal form are positive, its literals are
those of the constraint that it is made from, each flipped or not and with the absolute value of its
coefficient, and the one holds under a valuation exactly when the other does. -/
theorem normalize_preserves_meaning (h : normalize terms rel bound = .ok c) :
    (∀ t ∈ c.terms, 0 < t.2) ∧
    List.Forall₂ (fun t t' => (t'.1 = t.1 ∨ t'.1 = t.1.flip) ∧ t'.2 = t.2.natAbs) terms c.terms ∧
    c.rel = (if rel = .eq then .eq else .ge) ∧
    ∀ ν : Valuation, c.rel.Holds (weightTrue ν c.terms) c.bound ↔
      rel.Holds (coefficientTrue ν terms) bound := by
  obtain ⟨hnormalizable, hc⟩ := normalize_eq_ok h
  refine ⟨?_, ?_, ?_, normalize_holds_iff h⟩
  · rw [hc, normalForm, List.forall_mem_map]
    intro t ht
    exact Int.natAbs_pos.mpr
      (forall_signedTerms_ne_zero.mpr hnormalizable.coefficient_ne_zero t ht)
  · exact hc ▸ forall₂_normalForm terms rel bound
  · rw [hc]
    cases rel <;> rfl

/-- `3·x₁ - 2·x₁ - ¬x₂ < 2` becomes `3·¬x₁ + 2·x₁ + ¬x₂ ≥ 2`. -/
theorem normalize_preserves_meaning_mixed :
    let terms : List (Lit × Int) := [(.positive 1, 3), (.positive 1, -2), (.negative 2, -1)]
    let weighted : List (Lit × Nat) := [(.negative 1, 3), (.positive 1, 2), (.negative 2, 1)]
    normalize terms .lt 2 = .ok ⟨weighted, .ge, 2⟩ ∧
      ∀ ν, (weightTrue ν weighted : Int) ≥ 2 ↔ coefficientTrue ν terms < 2 := by
  intro terms weighted
  have h : normalize terms .lt 2 = .ok ⟨weighted, .ge, 2⟩ := rfl
  exact ⟨h, (normalize_preserves_meaning h).2.2.2⟩

end PbConstraint

end Clausal
