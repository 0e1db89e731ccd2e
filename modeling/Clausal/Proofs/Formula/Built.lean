import Clausal.Proofs.Formula.Call

/-!
# Formulas that were built

A formula is built by calls, starting from nothing, from a file, or from another formula that is
reshuffled (`Draft.Built`). Which calls are made is left open here: a fact about all of them carries
over to what they build. The groups are apart in any case (`Draft.Built.apart`), and each of them
was created by one of the calls (`Draft.Built.forall_groups`).
-/

namespace Clausal

theorem Formula.precedes_addConstraint (f : OpbFormula) (terms : List (Lit × Int)) (rel : Relation)
    (bound : Int) : f.Precedes (f.addConstraint terms rel bound).2 := by
  rw [addConstraint, Opb.addConstraint]
  cases hnorm : PbConstraint.normalize terms rel bound with
  | error e => exact precedes_refl f
  | ok c =>
    rw [Except.map_ok]
    dsimp only
    rw [Store.raiseTo]
    cases Lit.maxVar? c.lits with
    | none => exact ⟨[], rfl⟩
    | some v => exact ⟨[.raiseVars v], rfl⟩

namespace Draft

/-- The registry and the number of variables of a formula of either kind. -/
def ledger : Draft → Ledger
  | cnf f => f.ledger
  | opb f => f.ledger

def reshuffle (r : Reshuffle) : Draft → Draft
  | cnf f => cnf (f.reshuffle r)
  | opb f => opb (f.reshuffle r)

/-- The formula after a history. -/
def runAll (ops : List Operation) (token : Nat) : Draft → Draft
  | cnf f => cnf (Operation.runAll ops token f).2
  | opb f => opb (Operation.runAll ops token f).2

/-- The groups were built from graphs that were built edge by edge. -/
def Call.Made : Call → Prop
  | .run op => op.Made
  | .addConstraint _ _ _ | .labels _ => True

/-- What can be built by calls that are allowed, starting from nothing or from a file, with
reshuffles in between. -/
inductive Built (Allowed : Call → Prop) : Draft → Prop where
  | cnf : Built Allowed (.cnf .empty)
  | opb : Built Allowed (.opb .empty)
  | ofDimacs {bytes : ByteArray} {name : String} {f : CnfFormula}
      (h : Formula.ofDimacs bytes name = .ok f) : Built Allowed (.cnf f)
  | reshuffle {d : Draft} (r : Reshuffle) (hd : Built Allowed d) : Built Allowed (d.reshuffle r)
  | call {d d' : Draft} {c : Call} {token : Nat} {result : Except Error Unit}
      (hd : Built Allowed d) (hc : Allowed c) (h : d.call token c = some (result, d')) :
      Built Allowed d'

/-! ## One call -/

section Call

variable {d d' : Draft} {c : Call} {token : Nat} {result : Except Error Unit}
  (h : d.call token c = some (result, d'))

include h

theorem precedes_call : ∃ calls, d'.ledger = d.ledger.runAll calls := by
  cases c with
  | run op =>
    cases h
    cases d with
    | cnf f => exact op.precedes_run token f
    | opb f => exact op.precedes_run token f
  | addConstraint terms rel bound =>
    cases d with
    | cnf f => cases h
    | opb f =>
      cases h
      exact f.precedes_addConstraint terms rel bound
  | labels format =>
    cases h
    exact ⟨[], rfl⟩

theorem mem_groups_call {group : Handle VarGroup} (hgroup : group ∈ d'.groups) :
    group ∈ d.groups ∨ ∃ op spec start, c = .run op ∧ op.spec? = some spec ∧
      spec.create start = .ok group.value := by
  have hrun : ∀ {K : Type} [Constraint K] (op : Operation) (f : Formula K),
      group ∈ (op.run token f).2.registry.groups →
        group ∈ f.registry.groups ∨ ∃ spec start, op.spec? = some spec ∧
          spec.create start = .ok group.value := by
    intro K _ op f hmem
    rcases op.registry_run token f with hregistry | ⟨spec, g, hspec, hcreate, hregistry⟩
    · rw [hregistry] at hmem
      exact Or.inl hmem
    · rw [hregistry] at hmem
      rcases List.mem_append.mp hmem with hmem | hmem
      · exact Or.inl hmem
      · rw [List.mem_singleton.mp hmem]
        exact Or.inr ⟨spec, _, hspec, hcreate⟩
  cases c with
  | run op =>
    cases h
    cases d with
    | cnf f =>
      refine (hrun op f hgroup).imp_right ?_
      rintro ⟨spec, start, hspec, hcreate⟩
      exact ⟨op, spec, start, rfl, hspec, hcreate⟩
    | opb f =>
      refine (hrun op f hgroup).imp_right ?_
      rintro ⟨spec, start, hspec, hcreate⟩
      exact ⟨op, spec, start, rfl, hspec, hcreate⟩
  | addConstraint terms rel bound =>
    cases d with
    | cnf f => cases h
    | opb f =>
      cases h
      left
      have hgroup : group ∈ (f.addConstraint terms rel bound).2.registry.groups := hgroup
      rw [f.registry_addConstraint] at hgroup
      exact hgroup
  | labels format =>
    cases h
    exact Or.inl hgroup

end Call

/-! ## All calls -/

namespace Built

variable {Allowed : Call → Prop} {d : Draft} (h : d.Built Allowed)

include h

theorem runAll {ops : List Operation} (hops : ∀ op ∈ ops, Allowed (.run op)) (token : Nat) :
    (d.runAll ops token).Built Allowed := by
  induction ops generalizing d token with
  | nil =>
    cases d with
    | cnf f => exact h
    | opb f => exact h
  | cons op ops ih =>
    rw [List.forall_mem_cons] at hops
    have hstep : (d.run op token).2.Built Allowed := h.call hops.1 rfl
    have hrest := ih hstep hops.2 (token + 1)
    cases d with
    | cnf f => exact hrest
    | opb f => exact hrest

theorem apart : d.ledger.Apart := by
  induction h with
  | cnf => exact Ledger.apart_empty 0
  | opb => exact Ledger.apart_empty 0
  | ofDimacs h =>
    obtain ⟨⟨n, clauses⟩, -, rfl⟩ := Except.map_eq_ok_iff.mp h
    exact Ledger.apart_empty _
  | @reshuffle d r _ _ =>
    cases d with
    | cnf f => exact Ledger.apart_empty _
    | opb f => exact Ledger.apart_empty _
  | call _ _ h ih =>
    obtain ⟨calls, hcalls⟩ := precedes_call h
    rw [hcalls]
    exact Ledger.apart_runAll ih calls

/-- What holds of every group that an allowed operation creates holds of every group of the
formula. -/
theorem forall_groups {P : VarGroup → Prop} (hP : ∀ op spec start g, Allowed (.run op) →
    op.spec? = some spec → spec.create start = .ok g → P g) :
    ∀ group ∈ d.groups, P group.value := by
  induction h with
  | cnf => nofun
  | opb => nofun
  | ofDimacs h =>
    obtain ⟨⟨n, clauses⟩, -, rfl⟩ := Except.map_eq_ok_iff.mp h
    nofun
  | @reshuffle d r _ _ =>
    cases d with
    | cnf f => nofun
    | opb f => nofun
  | call _ hc h ih =>
    intro group hgroup
    rcases mem_groups_call h hgroup with hgroup | ⟨op, spec, start, rfl, hspec, hcreate⟩
    · exact ih group hgroup
    · exact hP op spec start group.value hc hspec hcreate

theorem made (hAllowed : ∀ c, Allowed c → c.Made) : ∀ group ∈ d.groups, group.value.Made := by
  refine h.forall_groups (P := VarGroup.Made) ?_
  intro op spec start g hop hspec hcreate
  exact ⟨spec, start, hAllowed (.run op) hop spec hspec, hcreate⟩

end Built

end Draft

end Clausal
