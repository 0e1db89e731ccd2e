import Clausal.Proofs.Encoding.Cardinality
import Clausal.Proofs.PseudoBoolean

/-!
# Stores keep what they are told

A request states something about a valuation, and a store holds it in constraints of its own kind. A
kind of constraint is lawful if nothing is lost on the way; both clauses and pseudo-boolean
constraints are. So what a store states after collecting requests is what it stated before, together
with the requests (`Store.holds_collect`).
-/

namespace Clausal

/-- What a request states. -/
def Request.Holds (ν : Valuation) : Request → Prop
  | clause c => c.holds ν = true
  | linear lits rel bound => rel.Holds (countTrue ν lits) bound

/-- Every linear constraint on a list in memory can be stated, and that at most one literal is true
also of longer lists. -/
def Request.Stateable : Request → Prop
  | clause _ => True
  | linear lits rel bound => lits.length < litLimit ∨ rel = .le ∧ bound = 1

/-- A kind of constraint that states what clauses and linear constraints state. -/
class LawfulConstraint (K : Type) [Constraint K] : Prop where
  holds_ofClause (c : Clause) (ν : Valuation) :
    (Constraint.toPb (Constraint.ofClause c : K)).Holds ν ↔ c.holds ν = true
  holds_ofLinear (lits : List Lit) (rel : Relation) (bound : Int) (ν : Valuation) :
    (Request.linear lits rel bound).Stateable →
      ((∀ k ∈ (Constraint.ofLinear lits rel bound : List K), (Constraint.toPb k).Holds ν) ↔
        rel.Holds (countTrue ν lits) bound)

theorem Cardinality.clauses_holds_iff_of_stateable {lits : List Lit} {rel : Relation} {bound : Int}
    (h : (Request.linear lits rel bound).Stateable) (ν : Valuation) :
    (∀ c ∈ clauses lits rel bound, Clause.holds c ν = true) ↔
      rel.Holds (countTrue ν lits) bound := by
  rcases h with h | ⟨rfl, rfl⟩
  · exact clauses_holds_iff h rel bound
  · rw [clauses, atMost_one_holds_iff, Relation.Holds]
    omega

instance : LawfulConstraint Clause where
  holds_ofClause c ν := PbConstraint.holds_ofClause c ν
  holds_ofLinear lits rel bound ν h := by
    rw [← Cardinality.clauses_holds_iff_of_stateable h]
    exact forall₂_congr fun c _ => PbConstraint.holds_ofClause c ν

instance : LawfulConstraint PbConstraint where
  holds_ofClause c ν := PbConstraint.holds_ofClause c ν
  holds_ofLinear lits rel bound ν h := by
    simp only [Constraint.ofLinear, Constraint.toPb]
    cases hnorm : PbConstraint.normalize (lits.map fun l => (l, 1)) rel bound with
    | ok c =>
      rw [List.forall_mem_singleton, PbConstraint.normalize_holds_iff hnorm,
        PbConstraint.coefficientTrue_unit]
    | error e =>
      simp only [List.forall_mem_map, PbConstraint.holds_ofClause]
      exact Cardinality.clauses_holds_iff_of_stateable h ν

/-! ## Stores -/

section

variable {K : Type} [Constraint K]

theorem Store.holds_append (s : Store K) (cs : List K) (ν : Valuation) :
    (s.append cs).Holds ν ↔ s.Holds ν ∧ ∀ c ∈ cs, (Constraint.toPb c).Holds ν :=
  List.forall_mem_append

theorem Store.holds_raiseTo (s : Store K) (lits : List Lit) (ν : Valuation) :
    (s.raiseTo lits).Holds ν ↔ s.Holds ν := by
  rw [Store.Holds, constraints_raiseTo, Store.Holds]

variable [LawfulConstraint K]

theorem Constraint.holds_ofRequest {request : Request} (h : request.Stateable) (ν : Valuation) :
    (∀ k ∈ (Constraint.ofRequest request : List K), (Constraint.toPb k).Holds ν) ↔
      request.Holds ν := by
  cases request with
  | clause c =>
    rw [ofRequest, List.forall_mem_singleton]
    exact LawfulConstraint.holds_ofClause c ν
  | linear lits rel bound => exact LawfulConstraint.holds_ofLinear lits rel bound ν h

theorem Store.holds_collect (s : Store K) {requests : List Request}
    (h : ∀ request ∈ requests, request.Stateable) (ν : Valuation) :
    (s.collect requests).Holds ν ↔ s.Holds ν ∧ ∀ request ∈ requests, request.Holds ν := by
  rw [collect, holds_append, holds_raiseTo, List.forall_mem_flatMap]
  refine and_congr_right fun _ => forall₂_congr fun request hmem => ?_
  exact Constraint.holds_ofRequest (h request hmem) ν

theorem Store.holds_pushLinear (s : Store K) {lits : List Lit} (h : lits.length < litLimit)
    (rel : Relation) (bound : Int) (ν : Valuation) :
    (s.pushLinear lits rel bound).Holds ν ↔ s.Holds ν ∧ rel.Holds (countTrue ν lits) bound := by
  rw [pushLinear, holds_append, LawfulConstraint.holds_ofLinear lits rel bound ν (Or.inl h)]

theorem Store.holds_pushClause (s : Store K) (c : Clause) (ν : Valuation) :
    (s.pushClause c).Holds ν ↔ s.Holds ν ∧ c.holds ν = true := by
  rw [pushClause, holds_append, List.forall_mem_singleton, LawfulConstraint.holds_ofClause]

end

end Clausal
