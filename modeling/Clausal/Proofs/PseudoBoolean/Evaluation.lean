import Clausal.Proofs.Constraint
import Clausal.Proofs.Encoding.Cardinality

/-!
# Evaluating constraints

An assignment satisfies a constraint on literals that it decides exactly when the sum of the weights
of the true ones, modulo the word size and cut off at the largest bound, stands in the relation to the
bound (`PbConstraint.isSat_iff`). That is the exact sum if it fits into a word, unless it exceeds the
largest bound and has to be equal to it, and in no other case (`PbConstraint.evaluatesExactly_iff`).
Clauses add up to no more than their length.
-/

namespace Clausal

/-! ## Assignments of all literals -/

namespace Assignment

/-- The assignment gives a truth value to each of the literals. -/
def Decides (a : Assignment) (lits : List Lit) : Prop :=
  ∀ l ∈ lits, a.litValue l ≠ .unset

instance (a : Assignment) (lits : List Lit) : Decidable (a.Decides lits) :=
  inferInstanceAs (Decidable (∀ l ∈ lits, a.litValue l ≠ .unset))

theorem litValue_eq_yes_iff {a : Assignment} {l : Lit} (h : a.litValue l ≠ .unset) :
    a.litValue l = .yes ↔ l.holds a.toValuation = true := by
  rw [litValue] at h ⊢
  rw [Lit.holds, toValuation]
  cases l.negated <;> cases hvalue : a.varValue l.var <;> simp [hvalue, Truth.negate] at h ⊢

end Assignment

namespace PbConstraint

variable {a : Assignment} {c : PbConstraint}

/-! ## Sums in a word -/

theorem foldl_add_weights {terms : List (Lit × Nat)} (h : a.Decides (terms.map (·.1))) {sum : Nat}
    (hsum : sum < wordSize) :
    terms.foldl (fun sum (l, w) => if a.litValue l = .yes then (sum + w) % wordSize else sum) sum =
      (sum + weightTrue a.toValuation terms) % wordSize := by
  induction terms generalizing sum with
  | nil => exact (Nat.mod_eq_of_lt hsum).symm
  | cons term terms ih =>
    obtain ⟨l, w⟩ := term
    rw [List.map_cons, Assignment.Decides, List.forall_mem_cons] at h
    rw [List.foldl_cons, weightTrue]
    simp only [Assignment.litValue_eq_yes_iff h.1]
    split
    · rw [ih h.2 (Nat.mod_lt _ (by decide)), Nat.mod_add_mod, Nat.add_assoc]
    · rw [ih h.2 hsum, Nat.zero_add]

theorem wordSum_eq (h : a.Decides c.lits) :
    c.wordSum a = weightTrue a.toValuation c.terms % wordSize := by
  rw [wordSum, foldl_add_weights h (by decide), Nat.zero_add]

/-- What an evaluation compares with the bound. -/
theorem isSat_iff (h : a.Decides c.lits) : c.isSat a = true ↔
    c.rel.Holds (countInt (weightTrue a.toValuation c.terms % wordSize)) c.bound := by
  rw [isSat, wordSum_eq h]
  cases c.rel <;> simp [PbRelation.Holds]

/-! ## Exact evaluation -/

/-- The weights of the true literals add up to a word, and to a bound where the sum has to be equal to
the largest one. -/
structure SumFits (c : PbConstraint) (ν : Valuation) : Prop where
  lt_wordSize : weightTrue ν c.terms < wordSize
  le_maxInt : c.rel = .eq → c.bound = maxInt → (weightTrue ν c.terms : Int) ≤ maxInt

/-- The sum is exact, and so is its comparison with the bound. -/
structure EvaluatesExactly (c : PbConstraint) (a : Assignment) : Prop where
  wordSum_eq : c.wordSum a = weightTrue a.toValuation c.terms
  isSat_iff : c.isSat a = true ↔ c.Holds a.toValuation

theorem evaluatesExactly_of_sumFits (hbound : c.bound ≤ maxInt) (h : a.Decides c.lits)
    (hsum : c.SumFits a.toValuation) : c.EvaluatesExactly a := by
  have hexact := Nat.mod_eq_of_lt hsum.lt_wordSize
  refine ⟨(PbConstraint.wordSum_eq h).trans hexact, ?_⟩
  rw [PbConstraint.isSat_iff h, hexact, PbConstraint.Holds, countInt]
  have hmax := hsum.le_maxInt
  cases hrel : c.rel with
  | ge =>
    simp only [PbRelation.Holds]
    omega
  | eq =>
    simp only [hrel, true_implies, PbRelation.Holds] at hmax ⊢
    omega

theorem sumFits_of_evaluatesExactly (h : a.Decides c.lits) (hexact : c.EvaluatesExactly a) :
    c.SumFits a.toValuation := by
  have hmod : weightTrue a.toValuation c.terms % wordSize = weightTrue a.toValuation c.terms :=
    (PbConstraint.wordSum_eq h).symm.trans hexact.wordSum_eq
  constructor
  · rw [← hmod]
    exact Nat.mod_lt _ (by decide)
  · intro hrel hbound
    by_contra hlarge
    -- A sum that is cut off at the bound is taken to be equal to it.
    have hcut : countInt (weightTrue a.toValuation c.terms) = maxInt :=
      min_eq_right (Int.not_le.mp hlarge).le
    have hsat : c.isSat a = true := by
      rw [PbConstraint.isSat_iff h, hmod, hcut, hrel, hbound]
      rfl
    have hholds := hexact.isSat_iff.mp hsat
    rw [PbConstraint.Holds, hrel, hbound] at hholds
    exact hlarge hholds.le

theorem evaluatesExactly_iff (hbound : c.bound ≤ maxInt) (h : a.Decides c.lits) :
    c.EvaluatesExactly a ↔ c.SumFits a.toValuation :=
  ⟨sumFits_of_evaluatesExactly h, evaluatesExactly_of_sumFits hbound h⟩

theorem sumFits_ofClause {c : Clause} (h : c.length < litLimit) (ν : Valuation) :
    (ofClause c).SumFits ν := by
  have hle := countTrue_le_length ν c
  have hsum : weightTrue ν (ofClause c).terms = countTrue ν c := weightTrue_unit ν c
  constructor
  · simp only [hsum, litLimit, wordSize] at *
    omega
  · intro hrel
    cases hrel

/-- **Evaluation is exact as long as the sums fit.** A normal form is evaluated exactly by those
assignments of its literals under which its weights add up to a word, and to a bound where the sum has
to be equal to the largest one. A clause is evaluated exactly by every assignment of its literals. -/
theorem isSat_exact (a : Assignment) :
    (∀ (terms : List (Lit × Int)) (rel : Relation) (bound : Int) (c : PbConstraint),
      normalize terms rel bound = .ok c → a.Decides c.lits →
        (c.EvaluatesExactly a ↔ c.SumFits a.toValuation)) ∧
    ∀ c : Clause, c.length < litLimit → a.Decides c → (ofClause c).EvaluatesExactly a := by
  constructor
  · intro terms rel bound c hc h
    obtain ⟨hnormalizable, rfl⟩ := normalize_eq_ok hc
    exact evaluatesExactly_iff hnormalizable.fits_bound.2 h
  · intro c hlength h
    have hbound : (1 : Int) ≤ maxInt := by decide
    refine evaluatesExactly_of_sumFits hbound ?_ (sumFits_ofClause hlength _)
    rw [lits_ofClause]
    exact h

/-- Two largest weights exceed every bound and still fit into a word. -/
theorem isSat_exact_largest :
    let terms : List (Lit × Int) := [(.positive 1, maxInt), (.positive 2, maxInt)]
    let c : PbConstraint :=
      ⟨[(.positive 1, 9223372036854775807), (.positive 2, 9223372036854775807)], .ge, maxInt⟩
    let clause : Clause := [.negative 1, .positive 1]
    let a : Assignment := .ofBits 2 3
    normalize terms .ge maxInt = .ok c ∧ a.Decides c.lits ∧ c.SumFits a.toValuation ∧
      clause.length < litLimit ∧ a.Decides clause ∧
      c.EvaluatesExactly a ∧ (ofClause clause).EvaluatesExactly a := by
  intro terms c clause a
  have hc : normalize terms .ge maxInt = .ok c := rfl
  have hdecides : a.Decides c.lits := by decide
  have hsum : c.SumFits a.toValuation := ⟨by decide, fun hrel => by cases hrel⟩
  have hlength : clause.length < litLimit := by decide
  have hclause : a.Decides clause := by decide
  exact ⟨hc, hdecides, hsum, hlength, hclause,
    ((isSat_exact a).1 terms .ge maxInt c hc hdecides).mpr hsum, (isSat_exact a).2 clause hlength hclause⟩

/-- Larger sums are evaluated wrongly: one that exceeds the largest bound counts as equal to it, and
one that leaves the word may come back to it. -/
theorem exists_wrong_evaluation :
    let w := 9223372036854775807
    let terms : List (Lit × Int) :=
      [(.positive 1, maxInt), (.positive 2, maxInt), (.positive 3, maxInt), (.positive 4, 2)]
    let c : PbConstraint :=
      ⟨[(.positive 1, w), (.positive 2, w), (.positive 3, w), (.positive 4, 2)], .eq, maxInt⟩
    normalize terms .eq maxInt = .ok c ∧
      ((Assignment.ofBits 4 9).Decides c.lits ∧ c.isSat (.ofBits 4 9) = true ∧
        ¬ c.Holds (Assignment.ofBits 4 9).toValuation) ∧
      ((Assignment.ofBits 4 15).Decides c.lits ∧ c.isSat (.ofBits 4 15) = true ∧
        ¬ c.Holds (Assignment.ofBits 4 15).toValuation) := by
  intro w terms c
  have hsum9 : (weightTrue (Assignment.ofBits 4 9).toValuation c.terms : Int) ≠ maxInt := by decide
  have hsum15 : (weightTrue (Assignment.ofBits 4 15).toValuation c.terms : Int) ≠ maxInt := by decide
  exact ⟨rfl, ⟨by decide, by decide, hsum9⟩, by decide, by decide, hsum15⟩

end PbConstraint

end Clausal
