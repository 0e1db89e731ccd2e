import Clausal.Proofs.Registry
import Clausal.Proofs.VarGroup.Made
import Clausal.Workspace

/-!
# Calls on formulas

Formulas of either kind are built by operations, formulas of pseudo-boolean constraints also by
constraints in general form (`Draft.call`). Among all of these only the creation of a group touches
the registry (`Operation.registry_run`). So whatever is registered was made by a description
(`Formula.Grounded`).
-/

namespace Clausal

/-! ## Operations and groups -/

namespace Operation

/-- What group an operation creates. -/
def spec? : Operation → Option GroupSpec
  | newVariable name => some (.singleton name)
  | newGroup spec => some spec
  | _ => none

/-- The graph of a group was built edge by edge. -/
def Made (op : Operation) : Prop := ∀ spec, op.spec? = some spec → spec.Reachable

end Operation

/-- Whatever is registered was made by a description. -/
def Formula.Grounded {K : Type} (f : Formula K) : Prop :=
  ∀ group ∈ f.registry.groups, group.value.Made

namespace Formula

variable {K : Type}

theorem registry_newVariables (f : Formula K) (count : Nat) :
    (f.newVariables count).2.registry = f.registry := by
  unfold newVariables
  split
  · rfl
  · dsimp only
    split_ifs
    · rfl
    · rfl

variable [Constraint K]

theorem registry_addLinear (f : Formula K) (lits : List Lit) (rel : Relation) (bound : Int) :
    (f.addLinear lits rel bound).2.registry = f.registry := by
  unfold addLinear
  split
  · rfl
  · rfl

end Formula

theorem Operation.registry_run {K : Type} [Constraint K] (op : Operation) (token : Nat)
    (f : Formula K) : (op.run token f).2.registry = f.registry ∨ ∃ spec group,
      op.spec? = some spec ∧ spec.create f.nextId = .ok group ∧
        (op.run token f).2.registry = ⟨f.registry.groups ++ [⟨token, group⟩]⟩ := by
  have hgroup : ∀ spec, (f.newGroup token spec).2.registry = f.registry ∨ ∃ group,
      spec.create f.nextId = .ok group ∧
        (f.newGroup token spec).2.registry = ⟨f.registry.groups ++ [⟨token, group⟩]⟩ := by
    intro spec
    rcases f.newGroup_cases token spec with ⟨e, heq⟩ | ⟨group, vars, hcreate, heq⟩
    · rw [heq]
      exact Or.inl rfl
    · rw [heq]
      exact Or.inr ⟨group, hcreate, rfl⟩
  cases op with
  | newVariable name =>
    refine (hgroup (.singleton name)).imp id ?_
    rintro ⟨group, hcreate, hregistry⟩
    exact ⟨_, group, rfl, hcreate, hregistry⟩
  | newGroup spec =>
    refine (hgroup spec).imp id ?_
    rintro ⟨group, hcreate, hregistry⟩
    exact ⟨_, group, rfl, hcreate, hregistry⟩
  | newVariables count => exact Or.inl (f.registry_newVariables count)
  | addLinear lits rel bound => exact Or.inl (f.registry_addLinear lits rel bound)
  | addMajority majority lits => exact Or.inl (f.registry_addLinear lits _ _)
  | addDimacsClause values =>
    left
    show (f.addDimacsClause values).2.registry = f.registry
    unfold Formula.addDimacsClause
    split
    · rfl
    · rfl
  | addParity lits constant =>
    left
    show (f.addParity lits constant).2.registry = f.registry
    unfold Formula.addParity
    split
    · rfl
    · split
      · rfl
      · rfl
  | force property mapping =>
    left
    show (f.force property mapping).2.registry = f.registry
    unfold Formula.force
    split_ifs
    · rfl
    · rfl
  | raiseVars | addClause | addUncheckedClause | extend | collectLinear | setHeader =>
    exact Or.inl rfl

theorem Operation.mem_registry_of_run {K : Type} [Constraint K] (op : Operation) {token : Nat}
    {f : Formula K} {group : Handle VarGroup} (h : (op.run token f).1 = .ok (.group group)) :
    group.token = token ∧ group ∈ (op.run token f).2.registry.groups := by
  cases op with
  | newGroup spec =>
    have h : (f.newGroup token spec).1.map Reply.group = .ok (.group group) := h
    show group.token = token ∧ group ∈ (f.newGroup token spec).2.registry.groups
    rcases f.newGroup_cases token spec with ⟨e, hgroup⟩ | ⟨made, vars, -, hgroup⟩
    · rw [hgroup] at h
      cases h
    · rw [hgroup] at h ⊢
      cases h
      exact ⟨rfl, List.mem_append_right _ List.mem_cons_self⟩
  | newVariable | newVariables | addDimacsClause | addParity | addLinear | addMajority | force =>
    obtain ⟨_, _, heq⟩ := Except.map_eq_ok_iff.mp h
    cases heq
  | raiseVars | addClause | addUncheckedClause | extend | collectLinear | setHeader => cases h

theorem Formula.registry_addConstraint (f : OpbFormula) (terms : List (Lit × Int)) (rel : Relation)
    (bound : Int) : (f.addConstraint terms rel bound).2.registry = f.registry := by
  unfold addConstraint
  split
  · rfl
  · rfl

/-! ## Calls -/

namespace Draft

/-- A call on a formula of either kind. -/
inductive Call where
  | run (op : Operation)
  /-- A constraint in general form, for formulas of pseudo-boolean constraints. -/
  | addConstraint (terms : List (Lit × Int)) (rel : Relation) (bound : Int)
  /-- The labels of all variables, which are only asked for. -/
  | labels (format : String)

def vars : Draft → Nat
  | cnf f => f.vars
  | opb f => f.vars

def groups : Draft → List (Handle VarGroup)
  | cnf f => f.registry.groups
  | opb f => f.registry.groups

def labelsWith (format : String) : Draft → Except Error (List String)
  | cnf f => f.labelsWith format
  | opb f => f.labelsWith format

/-- Whether a call is refused, and the formula afterwards. -/
def call (token : Nat) : Call → Draft → Option (Except Error Unit × Draft)
  | .run op, d =>
    let (r, d) := d.run op token
    some (r.map fun _ => (), d)
  | .addConstraint _ _ _, cnf _ => none
  | .addConstraint terms rel bound, opb f =>
    let (r, f) := f.addConstraint terms rel bound
    some (r, opb f)
  | .labels format, d => some ((d.labelsWith format).map fun _ => (), d)

end Draft

end Clausal
