import Clausal.Formula.Operation
import Clausal.Proofs.Encoding.Mapping

/-!
# Formulas of different constraints agree

Two formulas agree if they have the same variables, groups and header and state the same, whatever
they are formulas of. Every operation gives the same result on formulas that agree and leaves them in
agreement (`Operation.run_agrees`), so whole histories do (`Operation.runAll_agrees`): a formula of
clauses and a formula of pseudo-boolean constraints cannot be told apart by what they state.

An operation reads the number of variables and the registry only, never the constraints. What it
adds is a list of requests, which any lawful kind of constraint states in full.
-/

namespace Clausal

/-- Two formulas with the same variables, groups and header that state the same. -/
structure Formula.Agrees {K L : Type} [Constraint K] [Constraint L] (f : Formula K)
    (g : Formula L) : Prop where
  vars : f.vars = g.vars
  registry : f.registry = g.registry
  header : f.header = g.header
  holds (ν : Valuation) : f.store.Holds ν ↔ g.store.Holds ν

/-- An operation with the same result on two formulas, which agree afterwards. -/
def Formula.StepsAgree {K L α : Type} [Constraint K] [Constraint L]
    (x : Except Error α × Formula K) (y : Except Error α × Formula L) : Prop :=
  x.1 = y.1 ∧ x.2.Agrees y.2

/-- All lists of literals of an operation are in memory. -/
def Operation.InMemory : Operation → Prop
  | collectLinear lits _ _ | addLinear lits _ _ | addMajority _ lits => lits.length < litLimit
  | _ => True

/-! ## Steps -/

namespace Formula.Agrees

variable {K L : Type} [Constraint K] [Constraint L] {f : Formula K} {g : Formula L}

theorem nextId (h : f.Agrees g) : f.nextId = g.nextId := by
  rw [Formula.nextId, Formula.nextId, h.vars]

theorem checkLits (h : f.Agrees g) (lits : List Lit) : f.checkLits lits = g.checkLits lits := by
  rw [Formula.checkLits, Formula.checkLits, h.vars]

theorem fail {α : Type} (h : f.Agrees g) (e : Error) :
    StepsAgree ((.error e : Except Error α), f) (.error e, g) :=
  ⟨rfl, h⟩

theorem raiseVars (h : f.Agrees g) (n : Nat) : (f.raiseVars n).Agrees (g.raiseVars n) where
  vars := congrArg (max · n) h.vars
  registry := h.registry
  header := h.header
  holds := h.holds

theorem newGroup (h : f.Agrees g) (token : Nat) (spec : GroupSpec) :
    StepsAgree (f.newGroup token spec) (g.newGroup token spec) := by
  have hvars : f.store.vars = g.store.vars := h.vars
  rw [Formula.newGroup, Formula.newGroup, h.nextId, h.registry, Formula.vars, Formula.vars, hvars]
  split
  · exact h.fail _
  · split
    · exact h.fail _
    · exact ⟨rfl, rfl, rfl, h.header, h.holds⟩

theorem newVariable (h : f.Agrees g) (token : Nat) (name : Option String) :
    StepsAgree (f.newVariable token name) (g.newVariable token name) :=
  have hgroup := h.newGroup token (.singleton name)
  ⟨congrArg (·.map fun group => Lit.positive group.value.ids.first) hgroup.1, hgroup.2⟩

theorem newVariables (h : f.Agrees g) (count : Nat) :
    StepsAgree (f.newVariables count) (g.newVariables count) := by
  rw [Formula.newVariables, Formula.newVariables, h.nextId]
  split
  · exact h.fail _
  · refine ⟨rfl, ?_⟩
    dsimp only
    split_ifs
    · exact h
    · exact h.raiseVars _

theorem setHeader (h : f.Agrees g) (field value : String) :
    (f.setHeader field value).Agrees (g.setHeader field value) where
  vars := h.vars
  registry := h.registry
  header := congrArg (Header.put · field value) h.header
  holds := h.holds

variable [LawfulConstraint K] [LawfulConstraint L]

theorem collect (h : f.Agrees g) {requests : List Request}
    (hreq : ∀ request ∈ requests, request.Stateable) :
    (f.collect requests).Agrees (g.collect requests) where
  vars := by
    -- the variables of the requests count, not those of the constraints they become
    show ((f.store.raiseTo _).append _).vars = ((g.store.raiseTo _).append _).vars
    rw [Store.append, Store.append, Store.raiseTo, Store.raiseTo]
    split
    · exact congrArg (max · _) h.vars
    · exact h.vars
  registry := h.registry
  header := h.header
  holds ν := by
    show (f.store.collect _).Holds ν ↔ (g.store.collect _).Holds ν
    rw [Store.holds_collect _ hreq, Store.holds_collect _ hreq, h.holds]

theorem addClause (h : f.Agrees g) (c : Clause) : (f.addClause c).Agrees (g.addClause c) :=
  h.collect (List.forall_mem_singleton.mpr trivial)

theorem addClauses (h : f.Agrees g) (clauses : List Clause) :
    (Collector.addClauses f clauses).Agrees (Collector.addClauses g clauses) :=
  h.collect (List.forall_mem_map.mpr fun _ _ => trivial)

theorem addUncheckedClause (h : f.Agrees g) (c : Clause) :
    (f.addUncheckedClause c).Agrees (g.addUncheckedClause c) where
  vars := h.vars
  registry := h.registry
  header := h.header
  holds ν := by
    show (f.store.pushClause c).Holds ν ↔ (g.store.pushClause c).Holds ν
    rw [Store.holds_pushClause, Store.holds_pushClause, h.holds]

theorem addDimacsClause (h : f.Agrees g) (values : List Int) :
    StepsAgree (f.addDimacsClause values) (g.addDimacsClause values) := by
  rw [Formula.addDimacsClause, Formula.addDimacsClause]
  split
  · exact h.fail _
  · exact ⟨rfl, h.addClause _⟩

theorem addParity (h : f.Agrees g) (lits : List Lit) (constant : Nat) :
    StepsAgree (f.addParity lits constant) (g.addParity lits constant) := by
  rw [Formula.addParity, Formula.addParity, h.checkLits]
  split
  · exact h.fail _
  · split
    · exact h.fail _
    · exact ⟨rfl, h.addClauses _⟩

theorem addLinear (h : f.Agrees g) {lits : List Lit} (hlits : lits.length < litLimit)
    (rel : Relation) (bound : Int) :
    StepsAgree (f.addLinear lits rel bound) (g.addLinear lits rel bound) := by
  rw [Formula.addLinear, Formula.addLinear, h.checkLits]
  split
  · exact h.fail _
  · refine ⟨rfl, h.vars, h.registry, h.header, fun ν => ?_⟩
    show (f.store.pushLinear lits rel bound).Holds ν ↔ (g.store.pushLinear lits rel bound).Holds ν
    rw [Store.holds_pushLinear _ hlits, Store.holds_pushLinear _ hlits, h.holds]

theorem force (h : f.Agrees g) (property : MappingProperty) (mapping : Handle Mapping) :
    StepsAgree (f.force property mapping) (g.force property mapping) := by
  rw [Formula.force, Formula.force, h.registry]
  split_ifs
  · refine ⟨rfl, h.collect fun request hmem => ?_⟩
    exact Mapping.stateable_of_mem_requests (Request.mem_of_mem_untilFailure hmem)
  · exact h.fail _

end Formula.Agrees

/-! ## Histories -/

namespace Operation

variable {K L : Type} [Constraint K] [Constraint L] [LawfulConstraint K] [LawfulConstraint L]

theorem run_agrees {op : Operation} (hop : op.InMemory) (token : Nat) {f : Formula K}
    {g : Formula L} (h : f.Agrees g) : Formula.StepsAgree (op.run token f) (op.run token g) := by
  have hmap : ∀ {α : Type} {x : Except Error α × Formula K} {y : Except Error α × Formula L}
      (reply : α → Reply), Formula.StepsAgree x y →
        Formula.StepsAgree (x.1.map reply, x.2) (y.1.map reply, y.2) :=
    fun reply hsteps => ⟨congrArg (·.map reply) hsteps.1, hsteps.2⟩
  cases op with
  | newVariable name => exact hmap _ (h.newVariable token name)
  | newVariables count => exact hmap _ (h.newVariables count)
  | newGroup spec => exact hmap _ (h.newGroup token spec)
  | raiseVars n => exact ⟨rfl, h.raiseVars n⟩
  | addClause c => exact ⟨rfl, h.addClause c⟩
  | addDimacsClause values => exact hmap _ (h.addDimacsClause values)
  | addUncheckedClause c => exact ⟨rfl, h.addUncheckedClause c⟩
  | extend clauses => exact ⟨rfl, h.addClauses clauses⟩
  | collectLinear lits rel bound =>
    exact ⟨rfl, h.collect (List.forall_mem_singleton.mpr (Or.inl hop))⟩
  | addParity lits constant => exact hmap _ (h.addParity lits constant)
  | addLinear lits rel bound => exact hmap _ (h.addLinear hop rel bound)
  | addMajority majority lits => exact hmap _ (h.addLinear hop _ _)
  | force property mapping => exact hmap _ (h.force property mapping)
  | setHeader field value => exact ⟨rfl, h.setHeader field value⟩

theorem runAll_agrees {ops : List Operation} (hops : ∀ op ∈ ops, op.InMemory) (token : Nat)
    {f : Formula K} {g : Formula L} (h : f.Agrees g) :
    (runAll ops token f).1 = (runAll ops token g).1 ∧
      (runAll ops token f).2.Agrees (runAll ops token g).2 := by
  induction ops generalizing token f g with
  | nil => exact ⟨rfl, h⟩
  | cons op ops ih =>
    obtain ⟨hresult, hafter⟩ := run_agrees (hops op List.mem_cons_self) token h
    obtain ⟨hresults, hend⟩ := ih (fun op' hmem => hops op' (List.mem_cons_of_mem op hmem))
      (token + 1) hafter
    exact ⟨congrArg₂ List.cons hresult hresults, hend⟩

/-- **Clauses and pseudo-boolean constraints agree step by step.** A history that starts from the empty
formula gives, after any number of steps, the same results, the same number of variables and the same
identifiers of groups whatever its formula is made of, and the same valuations satisfy it. -/
theorem runAll_cnf_iff_opb (ops : List Operation) (hops : ∀ op ∈ ops, op.InMemory)
    (token steps : Nat) :
    let cnf := runAll (ops.take steps) token (Formula.empty : CnfFormula)
    let opb := runAll (ops.take steps) token (Formula.empty : OpbFormula)
    cnf.1 = opb.1 ∧ cnf.2.vars = opb.2.vars ∧
      cnf.2.registry.groups.map (·.value.ids) = opb.2.registry.groups.map (·.value.ids) ∧
      ∀ ν : Valuation, (∀ c ∈ cnf.2.constraints, Clause.holds c ν = true) ↔
        ∀ c ∈ opb.2.constraints, c.Holds ν := by
  intro cnf opb
  have hempty : (Formula.empty : CnfFormula).Agrees (Formula.empty : OpbFormula) :=
    ⟨rfl, rfl, rfl, fun ν => by simp [Formula.empty, Store.empty, Store.Holds]⟩
  obtain ⟨hresults, hagrees⟩ :=
    runAll_agrees (fun op hmem => hops op (List.mem_of_mem_take hmem)) token hempty
  refine ⟨hresults, hagrees.vars, congrArg (·.groups.map (·.value.ids)) hagrees.registry,
    fun ν => ?_⟩
  rw [← forall₂_congr fun c _ => PbConstraint.holds_ofClause c ν]
  exact hagrees.holds ν

/-- A bound that overflows when it is normalized and an inequality are stated by clauses, and no
valuation satisfies the first of them. -/
theorem runAll_cnf_iff_opb_overflow :
    let ops := [newVariables 2, addLinear [.positive 1, .negative 2] .lt minInt,
      collectLinear [.positive 3] .ne 1]
    let opb := runAll ops 0 (Formula.empty : OpbFormula)
    (∀ op ∈ ops, op.InMemory) ∧ opb.2.vars = 3 ∧ ∀ ν, ¬ ∀ c ∈ opb.2.constraints, c.Holds ν := by
  intro ops opb
  have hops : ∀ op ∈ ops, op.InMemory := by
    simp [ops, InMemory, litLimit]
  obtain ⟨-, hvars, -, hholds⟩ := runAll_cnf_iff_opb ops hops 0 3
  refine ⟨hops, hvars.symm.trans (by decide), fun ν hopb => ?_⟩
  have hfalse := (hholds ν).mpr hopb [] (by decide)
  cases hfalse

end Operation

end Clausal
