import Clausal.Store

/-!
# Valuations

A valuation gives every variable a truth value. Under a valuation each constraint is true or false:
a clause by its true literals, a pseudo-boolean constraint by the sum of their weights, which is
exact here.
-/

namespace Clausal

/-- A truth value for every variable. -/
abbrev Valuation := Nat → Bool

def Lit.holds (l : Lit) (ν : Valuation) : Bool := ν l.var != l.negated

/-- The number of positions of a list with a true literal. -/
def countTrue (ν : Valuation) : List Lit → Nat
  | [] => 0
  | l :: lits => (l.holds ν).toNat + countTrue ν lits

def Clause.holds (c : Clause) (ν : Valuation) : Bool := c.any (·.holds ν)

/-- The sum of the weights of the true literals among some terms. -/
def weightTrue (ν : Valuation) : List (Lit × Nat) → Nat
  | [] => 0
  | (l, w) :: terms => (if l.holds ν then w else 0) + weightTrue ν terms

/-- The sum of the coefficients of the true literals among some terms, before normalization. -/
def coefficientTrue (ν : Valuation) : List (Lit × Int) → Int
  | [] => 0
  | (l, w) :: terms => (if l.holds ν then w else 0) + coefficientTrue ν terms

/-- Whether a sum stands in the relation of a normalized constraint to a bound. -/
def PbRelation.Holds : PbRelation → Int → Int → Prop
  | .ge, a, b => a ≥ b
  | .eq, a, b => a = b

/-- Whether the weighted sum stands in the relation of the constraint to its bound. -/
def PbConstraint.Holds (c : PbConstraint) (ν : Valuation) : Prop :=
  c.rel.Holds (weightTrue ν c.terms) c.bound

/-- Whether all constraints of a store are true. -/
def Store.Holds {K : Type} [Constraint K] (s : Store K) (ν : Valuation) : Prop :=
  ∀ c ∈ s.constraints, (Constraint.toPb c).Holds ν

/-- The valuation that makes true what an assignment makes true, and all else false. -/
def Assignment.toValuation (a : Assignment) : Valuation := fun v => a.varValue v = .yes

/-! ## Literals -/

@[simp] theorem Lit.holds_flip (l : Lit) (ν : Valuation) : l.flip.holds ν = !l.holds ν := by
  cases h : ν l.var <;> cases hn : l.negated <;> simp [Lit.holds, Lit.flip, h, hn]

theorem Lit.holds_flipIf (l : Lit) (flipped : Bool) (ν : Valuation) :
    (l.flipIf flipped).holds ν = (l.holds ν ^^ flipped) := by
  cases flipped with
  | false => rw [Bool.xor_false, flipIf, if_neg Bool.false_ne_true]
  | true => rw [Bool.xor_true, flipIf, if_pos rfl, holds_flip]

@[simp] theorem countTrue_nil (ν : Valuation) : countTrue ν [] = 0 := rfl

@[simp] theorem countTrue_cons (ν : Valuation) (l : Lit) (lits : List Lit) :
    countTrue ν (l :: lits) = (l.holds ν).toNat + countTrue ν lits := rfl

theorem countTrue_map_flip (ν : Valuation) (lits : List Lit) :
    countTrue ν (lits.map Lit.flip) + countTrue ν lits = lits.length := by
  induction lits with
  | nil => rfl
  | cons l lits ih =>
    have : (l.flip.holds ν).toNat + (l.holds ν).toNat = 1 := by
      rw [Lit.holds_flip]
      cases l.holds ν <;> rfl
    simp only [List.map_cons, countTrue_cons, List.length_cons]
    omega

/-! ## Constraints -/

theorem Clause.holds_iff (c : Clause) (ν : Valuation) : c.holds ν = true ↔ 0 < countTrue ν c := by
  induction c with
  | nil => simp [Clause.holds]
  | cons l c ih =>
    simp only [Clause.holds, List.any_cons, Bool.or_eq_true, countTrue_cons] at ih ⊢
    cases h : l.holds ν
    · simpa using ih
    · exact ⟨fun _ => Nat.lt_add_right _ Nat.one_pos, fun _ => Or.inl rfl⟩

theorem weightTrue_unit (ν : Valuation) (lits : List Lit) :
    weightTrue ν (lits.map fun l => (l, 1)) = countTrue ν lits := by
  induction lits with
  | nil => rfl
  | cons l lits ih =>
    cases h : l.holds ν <;> simp [weightTrue, h, ih]

theorem PbConstraint.holds_ofClause (c : Clause) (ν : Valuation) :
    (PbConstraint.ofClause c).Holds ν ↔ c.holds ν = true := by
  rw [Clause.holds_iff]
  simp only [PbConstraint.Holds, PbConstraint.ofClause, PbRelation.Holds, weightTrue_unit]
  omega

end Clausal
