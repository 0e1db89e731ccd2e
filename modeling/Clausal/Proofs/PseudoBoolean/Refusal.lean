import Clausal.Proofs.PseudoBoolean

/-!
# What has no normal form

A constraint on numbers in range is refused exactly when it is stated by `≠`, a coefficient is zero,
the bound of its normal form is out of range, or a number on the way to it is (`normalize_refuses`).
The last one is not the same as the one before it: absolute values that are added to a bound far below
zero may leave the range although the result is back in it
(`exists_refusal_of_fitting_bound`).
-/

namespace Clausal

theorem fitsInt_neg_iff {x : Int} (h : FitsInt x) : FitsInt (-x) ↔ x ≠ minInt := by
  simp only [FitsInt, minInt, maxInt] at *
  omega

namespace PbConstraint

variable {terms : List (Lit × Int)} {rel : Relation} {bound : Int} {e : Error}

/-! ## When there is an error -/

/-- A number other than the bound of the normal form leaves the range: a coefficient that has no
negative, or the sum of the absolute values that is added to the bound. -/
def OverflowsOnTheWay (terms : List (Lit × Int)) (rel : Relation) : Prop :=
  (rel.changesSigns = true ∧ ∃ t ∈ terms, t.2 = minInt) ∨ maxInt < negativeSum (signedTerms rel terms)

theorem exists_normalize_eq_ok_iff (hbound : FitsInt bound) :
    (∃ c, normalize terms rel bound = .ok c) ↔ Normalizable terms rel bound := by
  constructor
  · rintro ⟨c, hc⟩
    exact (normalize_eq_ok hc).1
  · exact fun h => ⟨_, normalize_of_normalizable hbound h⟩

theorem not_normalizable_iff (hterms : ∀ t ∈ terms, FitsInt t.2) :
    ¬ Normalizable terms rel bound ↔ rel = .ne ∨ (∃ t ∈ terms, t.2 = 0) ∨
      ¬ FitsInt (normalForm terms rel bound).bound ∨ OverflowsOnTheWay terms rel := by
  constructor
  · intro hnot
    by_contra hall
    simp only [OverflowsOnTheWay, not_or, not_exists, not_and, not_not, Int.not_lt] at hall
    obtain ⟨hne, hzero, hfits, hsigns, hsum⟩ := hall
    exact hnot ⟨hne, hzero, fun hchange t ht => (fitsInt_neg_iff (hterms t ht)).mpr
      (hsigns hchange t ht), hsum, hfits⟩
  · rintro (hne | ⟨t, ht, hzero⟩ | hout | ⟨hchange, t, ht, hmin⟩ | hsum) h
    · exact h.relation_ne hne
    · exact h.coefficient_ne_zero t ht hzero
    · exact hout h.fits_bound
    · exact (fitsInt_neg_iff (hterms t ht)).mp (h.fits_neg hchange t ht) hmin
    · exact Int.not_le.mpr hsum h.negativeSum_le

/-! ## What the error says -/

theorem kind_of_negateTerms (h : negateTerms terms = .error e) : e.kind = .invalidArgument := by
  induction terms with
  | nil => cases h
  | cons term terms ih =>
    rw [negateTerms] at h
    split at h
    · cases h
      rfl
    · exact ih (Except.map_eq_error_iff.mp h)

theorem kind_of_positiveTerms {shift : Int} (h : positiveTerms shift terms = .error e) :
    e.kind = .invalidArgument := by
  induction terms generalizing shift with
  | nil => cases h
  | cons term terms ih =>
    rw [positiveTerms] at h
    split_ifs at h
    · cases h
      rfl
    · exact ih (Except.map_eq_error_iff.mp h)
    · split at h
      · cases h
        rfl
      · exact ih (Except.map_eq_error_iff.mp h)

theorem kind_of_normalRelation (h : normalRelation rel bound = .error e) :
    e.kind = .invalidArgument := by
  cases rel <;> cases h
  rfl

theorem kind_of_normalize (h : normalize terms rel bound = .error e) :
    e.kind = .invalidArgument := by
  rcases Except.bind_eq_error_iff.mp h with h' | ⟨⟨change, rel', bound?⟩, hrel, h'⟩
  · exact kind_of_normalRelation h'
  · cases bound? with
    | none =>
      cases h'
      rfl
    | some b =>
      rw [normalize_of_normalRelation hrel] at h
      rcases Except.bind_eq_error_iff.mp h with h | ⟨signed, -, h⟩
      · split at h
        · exact kind_of_negateTerms h
        · cases h
      · rcases Except.bind_eq_error_iff.mp h with h | ⟨weighted, -, h⟩
        · exact kind_of_positiveTerms h
        · split at h
          · cases h
            rfl
          · cases h

/-! ## Refusals -/

/-- **A normal form is refused for a reason.** Of the four reasons, the bound of the normal form is
meant as it is on unbounded integers. Where no number leaves the range on the way to it, the first
three are the only ones. -/
theorem normalize_refuses (hterms : ∀ t ∈ terms, FitsInt t.2) (hbound : FitsInt bound) :
    ((∃ e, normalize terms rel bound = .error e) ↔
      rel = .ne ∨ (∃ t ∈ terms, t.2 = 0) ∨ ¬ FitsInt (normalForm terms rel bound).bound ∨
        OverflowsOnTheWay terms rel) ∧
    ∀ e, normalize terms rel bound = .error e → e.kind = .invalidArgument := by
  constructor
  · rw [Except.exists_error_iff, exists_normalize_eq_ok_iff hbound, not_normalizable_iff hterms]
  · exact fun e h => kind_of_normalize h

/-- The least coefficient has no negative, so `≤` cannot be turned around. -/
theorem normalize_refuses_least :
    (∀ t ∈ [(Lit.positive 1, minInt)], FitsInt t.2) ∧ FitsInt 0 ∧
      ∃ e, normalize [(.positive 1, minInt)] .le 0 = .error e := by
  have hterms : ∀ t ∈ [(Lit.positive 1, minInt)], FitsInt t.2 := by decide
  have hbound : FitsInt 0 := by decide
  have hoverflow : OverflowsOnTheWay [(.positive 1, minInt)] .le :=
    Or.inl ⟨rfl, _, List.mem_cons_self, rfl⟩
  exact ⟨hterms, hbound,
    (normalize_refuses hterms hbound).1.mpr (Or.inr (Or.inr (Or.inr hoverflow)))⟩

/-- `-M·x₁ - M·x₂ ≥ -M - 1`, where `M` is the largest bound, is refused although the normal form
`M·¬x₁ + M·¬x₂ ≥ M - 1` is in range. -/
theorem exists_refusal_of_fitting_bound :
    ¬ ((∃ e, normalize [(.positive 1, -maxInt), (.positive 2, -maxInt)] .ge minInt = .error e) ↔
      Relation.ge = .ne ∨ (∃ t ∈ [(Lit.positive 1, -maxInt), (Lit.positive 2, -maxInt)], t.2 = 0) ∨
        ¬ FitsInt (normalForm [(.positive 1, -maxInt), (.positive 2, -maxInt)] .ge minInt).bound) := by
  intro h
  have hrefused := h.mp ⟨.boundOverflow, rfl⟩
  revert hrefused
  decide

end PbConstraint

end Clausal
