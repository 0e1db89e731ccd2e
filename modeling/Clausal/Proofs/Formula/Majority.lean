import Clausal.Proofs.Encoding.Majority
import Clausal.Proofs.Store

/-!
# Majorities mean majorities

A majority is stated as a linear constraint whose bound is half of the number of literals, rounded
as the relation needs it (`Majority.holds_bound_iff`). Both kinds of formulas state linear
constraints exactly, so the constraints that they add for a majority say how twice the number of
true literals compares with the number of literals (`Formula.addMajority_exact`).
-/

namespace Clausal

namespace Formula

variable {K : Type} [Constraint K] {lits : List Lit}

theorem addLinear_of_known {f : Formula K} (hknown : ∀ l ∈ lits, l.var ≤ f.vars) (rel : Relation)
    (bound : Int) : f.addLinear lits rel bound =
      (.ok (), { f with store := f.store.append (Constraint.ofLinear lits rel bound) }) := by
  rw [addLinear, checkLits_eq_ok_iff.mpr hknown]
  rfl

theorem exists_addMajority [LawfulConstraint K] {f : Formula K} (hlits : lits.length < litLimit)
    (hknown : ∀ l ∈ lits, l.var ≤ f.vars) (majority : Majority) :
    ∃ added : List K,
      f.addMajority majority lits = (.ok (), { f with store := f.store.append added }) ∧
      ∀ ν : Valuation, (∀ c ∈ added, (Constraint.toPb c).Holds ν) ↔
        majority.Holds (countTrue ν lits) lits.length := by
  refine ⟨_, addLinear_of_known hknown _ _, fun ν => ?_⟩
  rw [LawfulConstraint.holds_ofLinear lits _ _ ν (Or.inl hlits)]
  refine majority.holds_bound_iff ?_ _
  simp only [litLimit, maxInt] at hlits ⊢
  omega

/-- **Majorities mean majorities.** Over literals whose variables the formula has, both kinds of
formulas add constraints that hold under a valuation exactly when twice the number of positions with
a true literal compares with the number of positions as the majority says, and change nothing
else. -/
theorem addMajority_exact (majority : Majority) (lits : List Lit)
    (hlits : lits.length < litLimit) :
    (∀ f : CnfFormula, (∀ l ∈ lits, l.var ≤ f.vars) → ∃ added : List Clause,
      f.addMajority majority lits = (.ok (), { f with store := f.store.append added }) ∧
      ∀ ν : Valuation, (∀ c ∈ added, Clause.holds c ν = true) ↔
        majority.Holds (countTrue ν lits) lits.length) ∧
    ∀ f : OpbFormula, (∀ l ∈ lits, l.var ≤ f.vars) → ∃ added : List PbConstraint,
      f.addMajority majority lits = (.ok (), { f with store := f.store.append added }) ∧
      ∀ ν : Valuation, (∀ c ∈ added, PbConstraint.Holds c ν) ↔
        majority.Holds (countTrue ν lits) lits.length := by
  refine ⟨fun f hknown => ?_, fun f hknown => exists_addMajority hlits hknown majority⟩
  obtain ⟨added, hadd, hholds⟩ := exists_addMajority hlits hknown majority
  refine ⟨added, hadd, fun ν => ?_⟩
  rw [← hholds ν]
  exact forall₂_congr fun c _ => (PbConstraint.holds_ofClause c ν).symm

/-- More than half of two literals are both of them. -/
theorem addMajority_exact_two :
    [Lit.positive 1, .negative 2].length < litLimit ∧
      (∀ l ∈ [Lit.positive 1, .negative 2], l.var ≤ ((empty : OpbFormula).raiseVars 2).vars) ∧
      ∃ added : List PbConstraint,
        ((empty : OpbFormula).raiseVars 2).addMajority .strictMajority [.positive 1, .negative 2] =
          (.ok (), { (empty : OpbFormula) with store := (Store.empty.raiseVars 2).append added }) ∧
        ∀ ν : Valuation, (∀ c ∈ added, PbConstraint.Holds c ν) ↔
          1 < countTrue ν [.positive 1, .negative 2] := by
  obtain ⟨added, hadd, hholds⟩ :=
    (addMajority_exact .strictMajority [.positive 1, .negative 2] (by decide)).2
      ((empty : OpbFormula).raiseVars 2) (by decide)
  refine ⟨by decide, by decide, added, hadd, fun ν => (hholds ν).trans ?_⟩
  rw [Majority.Holds, gt_iff_lt, List.length_cons, List.length_singleton]
  omega

end Formula

end Clausal
