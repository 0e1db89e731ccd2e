import Clausal.Formula.Build

/-!
# What collectors do with clauses

Every collector appends the clauses it is given, in order, to what it holds.
-/

namespace Clausal

theorem Request.flatMap_clauses (clauses : List Clause) :
    (clauses.map Request.clause).flatMap Request.clauses = clauses := by
  simp [List.flatMap_map, Request.clauses]

theorem Constraint.flatMap_ofRequest {K : Type} [Constraint K] (clauses : List Clause) :
    (clauses.map Request.clause).flatMap Constraint.ofRequest =
      clauses.map (Constraint.ofClause (K := K)) := by
  simp [List.flatMap_map, Constraint.ofRequest, ← List.map_eq_flatMap]

@[simp] theorem Store.constraints_raiseTo {K : Type} (s : Store K) (lits : List Lit) :
    (s.raiseTo lits).constraints = s.constraints := by
  rw [Store.raiseTo]
  split <;> rfl

@[simp] theorem Store.constraints_collect {K : Type} [Constraint K] (s : Store K)
    (requests : List Request) :
    (s.collect requests).constraints = s.constraints ++ requests.flatMap Constraint.ofRequest := by
  rw [Store.collect, Store.append, Store.constraints_raiseTo]

namespace Collector

variable (clauses : List Clause)

theorem addClauses_list (before : List Clause) :
    addClauses before clauses = before ++ clauses :=
  congrArg (before ++ ·) (Request.flatMap_clauses clauses)

theorem constraints_addClauses_cnf (before : Cnf) :
    (addClauses before clauses).constraints = before.constraints ++ clauses := by
  show (before.collect _).constraints = _
  rw [Store.constraints_collect, Request.flatMap_clauses, Constraint.flatMap_ofRequest]
  exact congrArg (before.constraints ++ ·) (List.map_id clauses)

theorem constraints_addClauses_opb (before : Opb) :
    (addClauses before clauses).constraints =
      before.constraints ++ clauses.map PbConstraint.ofClause := by
  show (before.collect _).constraints = _
  rw [Store.constraints_collect, Constraint.flatMap_ofRequest]
  rfl

theorem constraints_addClauses_formula {K : Type} [Constraint K] (before : Formula K) :
    (addClauses before clauses).constraints =
      before.constraints ++ clauses.map Constraint.ofClause := by
  show (before.store.collect _).constraints = _
  rw [Store.constraints_collect, Constraint.flatMap_ofRequest]
  rfl

end Collector

end Clausal
