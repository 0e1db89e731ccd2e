import Clausal.Proofs.Formula.Built
import Clausal.Proofs.Formula.Refusal
import Clausal.Proofs.Formula.Sound
import Clausal.Proofs.VarGroup.Refusal

/-!
# New variables take the next identifiers

The number of variables is raised by groups, literals and calls that ask for it. No group and no
literal goes beyond the last variable there can be, so only what is asked for can
(`Draft.Built.vars_le`). As long as the next identifier fits into the counter, whatever is allocated
takes the identifiers right after the variables in use, or is refused because of its arguments
(`Formula.allocates`).
-/

namespace Clausal

/-! ## The number of variables -/

namespace Formula

variable {K : Type} {f : Formula K} {n : Nat}

theorem vars_newGroup_le (hn : Clausal.maxVar ≤ n) (hf : f.vars ≤ n) (token : Nat)
    (spec : GroupSpec) : (f.newGroup token spec).2.vars ≤ n := by
  rcases h : f.newGroup token spec with ⟨result, f'⟩
  cases result with
  | error e =>
    rw [newGroup_eq_error h]
    exact hf
  | ok group =>
    obtain ⟨hcreate, hrun⟩ := newGroup_eq_ok h
    have hstop := GroupSpec.create_stop_le hcreate
    have hlast : group.value.ids.last = group.value.ids.stop - 1 := rfl
    obtain ⟨-, ⟨-, hvars⟩ | ⟨-, -, hvars⟩⟩ := register_cases hrun
    · exact hvars.trans_le hf
    · dsimp only
      omega

theorem vars_newVariables_le (hn : Clausal.maxVar ≤ n) (hf : f.vars ≤ n) (count : Nat) :
    (f.newVariables count).2.vars ≤ n := by
  rw [newVariables]
  split
  · exact hf
  · rename_i ids hids
    obtain ⟨rfl, -, hstop⟩ := IdRange.alloc_eq_ok_iff.mp hids
    dsimp only
    split_ifs
    · exact hf
    · show max f.vars (f.nextId + count - 1) ≤ n
      omega

variable [Constraint K]

theorem vars_collect_le (hf : f.vars ≤ n) {requests : List Request}
    (h : ∀ request ∈ requests, ∀ l ∈ request.lits, l.var ≤ n) : (f.collect requests).vars ≤ n :=
  Store.vars_raiseTo_le_iff.mpr ⟨hf, List.forall_mem_flatMap.mpr h⟩

theorem vars_addDimacsClause_le (hn : Clausal.maxVar ≤ n) (hf : f.vars ≤ n) (values : List Int) :
    (f.addDimacsClause values).2.vars ≤ n := by
  rw [addDimacsClause]
  split
  · exact hf
  · rename_i c hc
    apply vars_collect_le hf
    rw [List.forall_mem_singleton]
    exact fun l hl => Nat.le_trans (Lit.valid_of_listOfDimacs hc l hl).2 hn

theorem vars_addParity_le (hf : f.vars ≤ n) (lits : List Lit) (constant : Nat) :
    (f.addParity lits constant).2.vars ≤ n := by
  rw [addParity]
  split
  · exact hf
  · rename_i hcheck
    split
    · exact hf
    · rename_i clauses hclauses
      apply vars_collect_le hf
      rw [List.forall_mem_map]
      intro c hc l hl
      obtain ⟨m, hm, hvar⟩ := List.mem_map.mp (Parity.var_mem_of_mem_clauses hclauses hc hl)
      rw [← hvar]
      exact Nat.le_trans (checkLits_eq_ok_iff.mp hcheck m hm) hf

theorem vars_addLinear (lits : List Lit) (rel : Relation) (bound : Int) :
    (f.addLinear lits rel bound).2.vars = f.vars := by
  rw [addLinear]
  split
  · rfl
  · rfl

theorem vars_force_le (hgrounded : f.Grounded) (hn : Clausal.maxVar ≤ n) (hf : f.vars ≤ n)
    (property : MappingProperty) (mapping : Handle Mapping) :
    (f.force property mapping).2.vars ≤ n := by
  rcases force_cases hgrounded property mapping with ⟨hmem, heq⟩ | ⟨-, heq⟩
  · rw [heq]
    apply vars_collect_le hf
    intro request hrequest l hl
    have hids := Mapping.var_mem_of_made (hgrounded _ hmem) property
      (Request.mem_of_mem_untilFailure hrequest) l hl
    have hstop : mapping.value.toGroup.ids.stop ≤ Clausal.maxVar + 1 := (hgrounded _ hmem).stop_le
    rw [IdRange.toList, List.mem_range'_1] at hids
    rw [IdRange.stop] at hstop
    omega
  · rw [heq]
    exact hf

omit [Constraint K] in
theorem vars_addConstraint_le {f : OpbFormula} (hf : f.vars ≤ n) {terms : List (Lit × Int)}
    (hterms : ∀ term ∈ terms, term.1.var ≤ n) (rel : Relation) (bound : Int) :
    (f.addConstraint terms rel bound).2.vars ≤ n := by
  rw [addConstraint, Opb.addConstraint]
  cases hnorm : PbConstraint.normalize terms rel bound with
  | error e => exact hf
  | ok c =>
    refine Store.vars_raiseTo_le_iff.mpr ⟨hf, fun l hl => ?_⟩
    have hdrawn := PbConstraint.drawn_normalize hnorm
    obtain ⟨term, hterm, hvar⟩ := List.mem_map.mp (hdrawn.var_mem l hl)
    rw [← hvar]
    exact hterms term hterm

end Formula

/-- What an operation is given stays within bounds: no more than `limit` variables are asked for,
literals that count as used are over variables that can be, and graphs were built edge by edge. -/
def Operation.Bounded (limit : Nat) : Operation → Prop
  | newGroup spec => spec.Buildable
  | raiseVars n => n ≤ limit
  | addClause c => ∀ l ∈ c, l.var ≤ maxVar
  | extend clauses => ∀ c ∈ clauses, ∀ l ∈ c, l.var ≤ maxVar
  | collectLinear lits _ _ => ∀ l ∈ lits, l.var ≤ maxVar
  | newVariable _ | newVariables _ | addDimacsClause _ | addUncheckedClause _ | addParity _ _
  | addLinear _ _ _ | addMajority _ _ | force _ _ | setHeader _ _ => True

theorem Operation.Bounded.made {limit : Nat} {op : Operation} (h : op.Bounded limit) :
    op.Made := by
  intro spec hspec
  cases op with
  | newGroup spec' =>
    cases hspec
    exact GroupSpec.Buildable.reachable h
  | newVariable name =>
    cases hspec
    exact trivial
  | newVariables | addDimacsClause | addParity | addLinear | addMajority | force | raiseVars
  | addClause | addUncheckedClause | extend | collectLinear | setHeader => cases hspec

theorem Operation.vars_run_le {K : Type} [Constraint K] {op : Operation} {limit : Nat}
    (hlimit : maxVar ≤ limit) (hop : op.Bounded limit) (token : Nat) {f : Formula K}
    (hgrounded : f.Grounded) (hf : f.vars ≤ limit) : (op.run token f).2.vars ≤ limit := by
  have hlits : ∀ {lits : List Lit}, (∀ l ∈ lits, l.var ≤ maxVar) → ∀ l ∈ lits, l.var ≤ limit :=
    fun h l hl => Nat.le_trans (h l hl) hlimit
  cases op with
  | newVariable name => exact f.vars_newGroup_le hlimit hf token (.singleton name)
  | newVariables count => exact f.vars_newVariables_le hlimit hf count
  | newGroup spec => exact f.vars_newGroup_le hlimit hf token spec
  | raiseVars n => exact Nat.max_le.mpr ⟨hf, hop⟩
  | addClause c => exact f.vars_collect_le hf (List.forall_mem_singleton.mpr (hlits hop))
  | addDimacsClause values => exact f.vars_addDimacsClause_le hlimit hf values
  | addUncheckedClause c => exact hf
  | extend clauses =>
    exact f.vars_collect_le hf (List.forall_mem_map.mpr fun c hc => hlits (hop c hc))
  | collectLinear lits rel bound =>
    exact f.vars_collect_le hf (List.forall_mem_singleton.mpr (hlits hop))
  | addParity lits constant => exact f.vars_addParity_le hf lits constant
  | addLinear lits rel bound => exact (f.vars_addLinear lits rel bound).trans_le hf
  | addMajority majority lits => exact (f.vars_addLinear lits _ _).trans_le hf
  | force property mapping => exact f.vars_force_le hgrounded hlimit hf property mapping
  | setHeader field value => exact hf

/-! ## Allocations -/

namespace Formula

variable {K : Type} {f f' : Formula K}

/-- A call is refused because of its arguments, and nothing has changed. -/
def Refused {α : Type} (f : Formula K) (outcome : Except Error α × Formula K) : Prop :=
  ∃ e, outcome = (.error e, f) ∧ e.Refuses

/-- Whatever is allocated takes the identifiers right after the variables in use, and they are
valid. What cannot be allocated is refused. -/
structure Allocates (f : Formula K) : Prop where
  next : f.nextId = f.vars + 1
  single (token : Nat) (name : Option String) : f.Refused (f.newVariable token name) ∨
    ∃ f', f.newVariable token name = (.ok (.positive (f.vars + 1)), f') ∧
      f'.vars = f.vars + 1 ∧ f'.vars ≤ Clausal.maxVar
  several (count : Nat) : f.Refused (f.newVariables count) ∨
    ∃ f', f.newVariables count = (.ok ((List.range' (f.vars + 1) count).map .positive), f') ∧
      f'.vars = f.vars + count ∧ f'.vars ≤ Clausal.maxVar
  group (token : Nat) (spec : GroupSpec) (hspec : spec.Buildable) :
    f.Refused (f.newGroup token spec) ∨
      ∃ g f', f.newGroup token spec = (.ok ⟨token, g⟩, f') ∧ g.ids = ⟨f.vars + 1, g.size⟩ ∧
        f'.vars = f.vars + g.size ∧ f'.vars ≤ Clausal.maxVar

section Next

variable (hnext : f.nextId = f.vars + 1)

include hnext

theorem refuses_of_newGroup {token : Nat} {spec : GroupSpec} (hspec : spec.Buildable) {e : Error}
    (h : f.newGroup token spec = (.error e, f')) : e.Refuses := by
  rw [newGroup] at h
  split at h
  · rename_i hcreate
    cases h
    exact GroupSpec.refuses_of_create hspec hcreate
  · rename_i g hcreate
    have hfirst : g.ids.first = f.vars + 1 := by
      rw [GroupSpec.create_first hcreate, hnext]
    split at h
    · -- the group starts right after the variables in use, so it does not start too low
      rename_i hregister
      rcases f.registry.register_cases ⟨token, g⟩ f.vars with
        ⟨-, hcase⟩ | ⟨⟨-, hlow⟩, -⟩ | ⟨-, hcase⟩
      · cases hcase.symm.trans hregister
      · dsimp only at hlow
        omega
      · cases hcase.symm.trans hregister
    · cases h

theorem newGroup_allocates (token : Nat) {spec : GroupSpec} (hspec : spec.Buildable) :
    f.Refused (f.newGroup token spec) ∨
      ∃ g f', f.newGroup token spec = (.ok ⟨token, g⟩, f') ∧ g.ids = ⟨f.vars + 1, g.size⟩ ∧
        f'.vars = f.vars + g.size ∧ f'.vars ≤ Clausal.maxVar := by
  rcases f.newGroup_cases token spec with ⟨e, heq⟩ | ⟨g, vars, hcreate, heq⟩
  · exact Or.inl ⟨e, heq, refuses_of_newGroup hnext hspec heq⟩
  · obtain ⟨hids, hvars⟩ := newGroup_ids_of_nextId hnext heq
    have hstop := GroupSpec.create_stop_le hcreate
    have hend : g.ids.stop = f.vars + 1 + g.size := congrArg IdRange.stop hids
    refine Or.inr ⟨g, _, heq, hids, hvars, ?_⟩
    rw [hvars]
    dsimp only
    omega

theorem newVariable_allocates (token : Nat) (name : Option String) :
    f.Refused (f.newVariable token name) ∨
      ∃ f', f.newVariable token name = (.ok (.positive (f.vars + 1)), f') ∧
        f'.vars = f.vars + 1 ∧ f'.vars ≤ Clausal.maxVar := by
  have hspec : (GroupSpec.singleton name).Buildable := trivial
  rcases newGroup_allocates hnext token hspec with
    ⟨e, heq, hrefuses⟩ | ⟨g, f', heq, -, -, hle⟩
  · left
    refine ⟨e, ?_, hrefuses⟩
    rw [newVariable, heq]
    rfl
  · right
    have hvariable : f.newVariable token name = (.ok (.positive g.ids.first), f') := by
      rw [newVariable, heq]
      rfl
    obtain ⟨hlit, hvars⟩ := newVariable_ids_of_nextId hnext hvariable
    rw [hlit] at hvariable
    exact ⟨f', hvariable, hvars, hle⟩

theorem newVariables_allocates (count : Nat) : f.Refused (f.newVariables count) ∨
    ∃ f', f.newVariables count = (.ok ((List.range' (f.vars + 1) count).map .positive), f') ∧
      f'.vars = f.vars + count ∧ f'.vars ≤ Clausal.maxVar := by
  rcases hvariables : f.newVariables count with ⟨result, f'⟩
  have h := hvariables
  rw [newVariables, hnext] at h
  cases halloc : IdRange.alloc (f.vars + 1) count with
  | error e =>
    rw [halloc] at h
    cases h
    exact Or.inl ⟨e, rfl, Or.inl (IdRange.kind_of_alloc halloc)⟩
  | ok ids =>
    obtain ⟨rfl, -, hstop⟩ := IdRange.alloc_eq_ok_iff.mp halloc
    rw [halloc] at h
    dsimp only at h
    rw [mapM_ofVouched (Nat.le_add_left 1 f.vars) hstop] at h
    obtain ⟨rfl, -⟩ := Prod.mk.inj h
    obtain ⟨-, hvars⟩ := newVariables_ids_of_nextId hnext hvariables
    refine Or.inr ⟨f', rfl, hvars, ?_⟩
    omega

end Next

theorem allocates (h : f.vars + 1 < counterSize) : f.Allocates := by
  have hnext : f.nextId = f.vars + 1 := Nat.mod_eq_of_lt h
  exact ⟨hnext, newVariable_allocates hnext, newVariables_allocates hnext,
    fun token _ hspec => newGroup_allocates hnext token hspec⟩

end Formula

namespace Draft

def Call.Bounded (limit : Nat) : Call → Prop
  | .run op => op.Bounded limit
  | .addConstraint terms _ _ => ∀ term ∈ terms, term.1.var ≤ maxVar
  | .labels _ => True

theorem Call.Bounded.made {limit : Nat} {c : Call} (h : c.Bounded limit) : c.Made := by
  cases c with
  | run op => exact Operation.Bounded.made h
  | addConstraint | labels => exact trivial

theorem Built.vars_le {limit : Nat} (hlimit : maxVar ≤ limit) {d : Draft}
    (h : d.Built (Call.Bounded limit)) : d.vars ≤ limit := by
  induction h with
  | cnf => exact Nat.zero_le limit
  | opb => exact Nat.zero_le limit
  | ofDimacs h => exact Nat.le_trans (Formula.sound_ofDimacs h).vars_le hlimit
  | @reshuffle d r _ ih =>
    cases d with
    | cnf f => exact ih
    | opb f => exact ih
  | @call d d' c token result hd hc h ih =>
    have hgrounded := hd.made fun _ hc => hc.made
    cases c with
    | run op =>
      cases h
      cases d with
      | cnf f => exact op.vars_run_le hlimit hc token hgrounded ih
      | opb f => exact op.vars_run_le hlimit hc token hgrounded ih
    | addConstraint terms rel bound =>
      cases d with
      | cnf f => cases h
      | opb f =>
        cases h
        have hterms : ∀ term ∈ terms, term.1.var ≤ limit :=
          fun term hterm => Nat.le_trans (hc term hterm) hlimit
        exact Formula.vars_addConstraint_le ih hterms rel bound
    | labels format =>
      cases h
      exact ih

def Allocates : Draft → Prop
  | cnf f => f.Allocates
  | opb f => f.Allocates

/-- **Identifiers stay valid.** However a formula was built, it has no more variables than there can
be, unless more were asked for. As long as the number that was asked for has a successor in the
counter, every allocation takes the identifiers right after the variables in use, all of them valid,
or is refused because of its arguments and changes nothing. -/
theorem allocations_stay_valid {limit : Nat} (hlimit : maxVar ≤ limit) {d : Draft}
    (h : d.Built (Call.Bounded limit)) :
    d.vars ≤ limit ∧ (limit + 1 < counterSize → d.Allocates) := by
  have hvars := h.vars_le hlimit
  refine ⟨hvars, fun hfits => ?_⟩
  cases d with
  | cnf f => exact Formula.allocates (Nat.lt_of_le_of_lt (Nat.succ_le_succ hvars) hfits)
  | opb f => exact Formula.allocates (Nat.lt_of_le_of_lt (Nat.succ_le_succ hvars) hfits)

/-- One variable short of the last one. -/
theorem allocations_stay_valid_last : ∃ d : Draft, d.Built (Call.Bounded maxVar) ∧
    d.vars = 2147483646 ∧ d.Allocates := by
  let ops : List Operation := [.newGroup (.block [2] none), .raiseVars 2147483646]
  have hops : ∀ op ∈ ops, Call.Bounded maxVar (.run op) := by
    simp [ops, Call.Bounded, Operation.Bounded, GroupSpec.Buildable, maxVar]
  have hbuilt := (Built.cnf : Built (Call.Bounded maxVar) _).runAll hops 0
  obtain ⟨-, hallocates⟩ := allocations_stay_valid (Nat.le_refl maxVar) hbuilt
  exact ⟨_, hbuilt, by decide +kernel, hallocates (by decide)⟩

/-- The largest number that a counter holds can be asked for. Then the next identifier is 0, and a
group that starts there overlaps the variables in use. -/
theorem exists_overlap : ∃ d : Draft, d.Built (Call.Bounded 4294967295) ∧ maxVar < d.vars ∧
    d.run (.newGroup (.block [1] none)) 1 = (.error (.overlap 0 0 4294967295), d) ∧
    d.run (.newVariables 1) 1 = (.error (.invalidIdentifier 0), d) := by
  let ops : List Operation := [.raiseVars 4294967295]
  have hops : ∀ op ∈ ops, Call.Bounded 4294967295 (.run op) := by
    simp [ops, Call.Bounded, Operation.Bounded]
  refine ⟨.runAll ops 0 (.cnf .empty), Built.cnf.runAll hops 0, ?_, ?_, ?_⟩
  · decide +kernel
  · decide +kernel
  · decide +kernel

end Draft

end Clausal
