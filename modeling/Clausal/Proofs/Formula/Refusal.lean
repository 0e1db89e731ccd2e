import Clausal.Proofs.Encoding.Mapping.Made
import Clausal.Proofs.Request
import Clausal.Proofs.Workspace

/-!
# Refused calls change nothing

A call that is refused leaves a formula as it was. Most calls check what they are given before they
touch the formula. A property of a mapping is stated by many constraints, each of which could fail;
but none of them does for a mapping that was made by a description, and only such mappings are
registered. So forcing a property is refused for mappings of others only, and not halfway through
(`Draft.force_cases`).
-/

namespace Clausal

/-! ## Operations -/

namespace Formula

variable {K : Type} {f f' : Formula K} {e : Error}

theorem newGroup_eq_error {token : Nat} {spec : GroupSpec}
    (h : f.newGroup token spec = (.error e, f')) : f' = f := by
  rcases f.newGroup_cases token spec with ⟨_, heq⟩ | ⟨group, vars, -, heq⟩
  · cases h.symm.trans heq
    rfl
  · cases h.symm.trans heq

theorem newVariables_eq_error {count : Nat}
    (hvars : f.vars ≤ Clausal.maxVar) (h : f.newVariables count = (.error e, f')) : f' = f := by
  rw [newVariables, nextId_eq_of_le hvars] at h
  split at h
  · cases h
    rfl
  · rename_i ids hids
    obtain ⟨rfl, -, hstop⟩ := IdRange.alloc_eq_ok_iff.mp hids
    rw [mapM_ofVouched (Nat.le_add_left 1 f.vars) hstop] at h
    cases h

variable [Constraint K]

theorem addDimacsClause_eq_error {values : List Int}
    (h : f.addDimacsClause values = (.error e, f')) : f' = f := by
  rw [addDimacsClause] at h
  split at h
  · cases h
    rfl
  · cases h

theorem addParity_eq_error {lits : List Lit} {constant : Nat}
    (h : f.addParity lits constant = (.error e, f')) : f' = f := by
  rw [addParity] at h
  split at h
  · cases h
    rfl
  · split at h
    · cases h
      rfl
    · cases h

theorem addLinear_eq_error {lits : List Lit} {rel : Relation} {bound : Int}
    (h : f.addLinear lits rel bound = (.error e, f')) : f' = f := by
  rw [addLinear] at h
  split at h
  · cases h
    rfl
  · cases h

omit [Constraint K] in
theorem addConstraint_eq_error {f f' : OpbFormula} {terms : List (Lit × Int)} {rel : Relation}
    {bound : Int} (h : f.addConstraint terms rel bound = (.error e, f')) : f' = f := by
  rw [addConstraint] at h
  split at h
  · cases h
    rfl
  · cases h

theorem force_cases (hf : f.Grounded) (property : MappingProperty)
    (mapping : Handle Mapping) :
    (mapping.map Mapping.toGroup ∈ f.registry.groups ∧
      f.force property mapping =
        (.ok (), f.collect (Request.untilFailure (mapping.value.requests property)).1)) ∨
    (mapping.map Mapping.toGroup ∉ f.registry.groups ∧
      f.force property mapping = (.error .foreignMapping, f)) := by
  by_cases hmem : mapping.map Mapping.toGroup ∈ f.registry.groups
  · left
    have howns : f.registry.owns (mapping.map Mapping.toGroup) = true :=
      List.contains_iff_mem.mpr hmem
    have hbuilt := Mapping.built_of_made (hf _ hmem) property
    refine ⟨hmem, ?_⟩
    rw [force, if_pos howns, Collector.addAll]
    dsimp only
    rw [(Request.untilFailure_of_built hbuilt).1]
    rfl
  · right
    have howns : ¬ f.registry.owns (mapping.map Mapping.toGroup) = true :=
      mt List.contains_iff_mem.mp hmem
    refine ⟨hmem, ?_⟩
    rw [force, if_neg howns]

theorem force_eq_error (hf : f.Grounded) {property : MappingProperty} {mapping : Handle Mapping}
    (h : f.force property mapping = (.error e, f')) : f' = f := by
  rcases force_cases hf property mapping with ⟨-, heq⟩ | ⟨-, heq⟩
  · cases h.symm.trans heq
  · cases h.symm.trans heq
    rfl

end Formula

namespace Operation

variable {K : Type} {f f' : Formula K} {e : Error}

theorem run_eq_error [Constraint K] {op : Operation} {token : Nat} (hf : f.Grounded)
    (hvars : f.vars ≤ maxVar) (h : op.run token f = (.error e, f')) : f' = f := by
  cases op with
  | newVariable name =>
    -- the result of creating the group is turned into a literal first
    have hvariable : f.newVariable token name = (.error e, f') := Except.eq_error_of_map h
    exact Formula.newGroup_eq_error (Except.eq_error_of_map hvariable)
  | newVariables count => exact Formula.newVariables_eq_error hvars (Except.eq_error_of_map h)
  | newGroup spec => exact Formula.newGroup_eq_error (Except.eq_error_of_map h)
  | addDimacsClause values => exact Formula.addDimacsClause_eq_error (Except.eq_error_of_map h)
  | addParity lits constant => exact Formula.addParity_eq_error (Except.eq_error_of_map h)
  | addLinear lits rel bound => exact Formula.addLinear_eq_error (Except.eq_error_of_map h)
  | addMajority majority lits => exact Formula.addLinear_eq_error (Except.eq_error_of_map h)
  | force property mapping => exact Formula.force_eq_error hf (Except.eq_error_of_map h)
  | raiseVars | addClause | addUncheckedClause | extend | collectLinear | setHeader => cases h

theorem force_cases [Constraint K] (hf : f.Grounded) (property : MappingProperty)
    (mapping : Handle Mapping) (token : Nat) :
    (mapping.map Mapping.toGroup ∈ f.registry.groups ∧
      ((force property mapping).run token f).1 = .ok .done) ∨
    (mapping.map Mapping.toGroup ∉ f.registry.groups ∧
      (force property mapping).run token f = (.error .foreignMapping, f)) := by
  refine (Formula.force_cases hf property mapping).imp ?_ ?_
  · rintro ⟨hmem, heq⟩
    refine ⟨hmem, ?_⟩
    rw [run, heq]
    rfl
  · rintro ⟨hmem, heq⟩
    refine ⟨hmem, ?_⟩
    rw [run, heq]
    rfl

end Operation

/-! ## Calls -/

namespace Draft

theorem run_eq_error {d d' : Draft} {op : Operation} {token : Nat} {e : Error} (hd : d.Grounded)
    (hvars : d.vars ≤ maxVar) (h : d.run op token = (.error e, d')) : d' = d := by
  cases d with
  | cnf f =>
    obtain ⟨hresult, rfl⟩ := Prod.mk.inj h
    exact congrArg cnf (op.run_eq_error hd hvars (Prod.ext hresult rfl))
  | opb f =>
    obtain ⟨hresult, rfl⟩ := Prod.mk.inj h
    exact congrArg opb (op.run_eq_error hd hvars (Prod.ext hresult rfl))

/-- A call that is refused changes nothing. -/
theorem call_eq_error {d d' : Draft} {c : Call} {token : Nat} {e : Error} (hd : d.Grounded)
    (hvars : d.vars ≤ maxVar) (h : d.call token c = some (.error e, d')) : d' = d := by
  cases c with
  | run op =>
    exact run_eq_error hd hvars (Except.eq_error_of_map (Option.some.inj h))
  | addConstraint terms rel bound =>
    cases d with
    | cnf f => cases h
    | opb f =>
      obtain ⟨hresult, rfl⟩ := Prod.mk.inj (Option.some.inj h)
      exact congrArg opb (Formula.addConstraint_eq_error (Prod.ext hresult rfl))
  | labels format =>
    obtain ⟨-, rfl⟩ := Prod.mk.inj (Option.some.inj h)
    rfl

theorem force_cases {d : Draft} (hd : d.Grounded) (property : MappingProperty)
    (mapping : Handle Mapping) (token : Nat) :
    (mapping.map Mapping.toGroup ∈ d.groups ∧
      (d.run (.force property mapping) token).1 = .ok .done) ∨
    (mapping.map Mapping.toGroup ∉ d.groups ∧
      d.run (.force property mapping) token = (.error .foreignMapping, d)) := by
  cases d with
  | cnf f =>
    refine (Operation.force_cases hd property mapping token).imp id (And.imp_right fun heq => ?_)
    rw [run, heq]
  | opb f =>
    refine (Operation.force_cases hd property mapping token).imp id (And.imp_right fun heq => ?_)
    rw [run, heq]

end Draft

/-- **Refused calls change nothing.** In every workspace that can be reached, a call that is refused
by a formula whose variables have not run out leaves it as it was. Forcing a property of a mapping
is refused exactly if the mapping is not registered in the formula, and otherwise goes through. No
formula ever registers a group that was created on its own, and of the formulas there are, exactly
the one that creates a group has it from then on. -/
theorem Workspace.refused_calls_change_nothing {w : Workspace} (h : w.Reachable) {i : Nat}
    {d : Draft} (hd : w.drafts[i]? = some d) :
    (d.vars ≤ maxVar →
      ∀ c token e d', d.call token c = some (.error e, d') → d' = d) ∧
    (∀ property mapping token,
      (mapping.map Mapping.toGroup ∈ d.groups ∧
        (d.run (.force property mapping) token).1 = .ok .done) ∨
      (mapping.map Mapping.toGroup ∉ d.groups ∧
        d.run (.force property mapping) token = (.error .foreignMapping, d))) ∧
    (∀ start spec group w' w'', w.standalone start spec = (.ok group, w') → w'.Reaches w'' →
      ∀ d'' ∈ w''.drafts, group ∉ d''.groups) ∧
    (∀ op group w' w'', w.run i op = some (.ok (.group group), w') → w'.Reaches w'' →
      ∀ j d'', j < w.drafts.length → w''.drafts[j]? = some d'' →
        (group ∈ d''.groups ↔ j = i)) := by
  have htidy := tidy_of_reachable h
  have hgrounded : d.Grounded :=
    fun group hgroup => (htidy d (List.mem_of_getElem? hd) group hgroup).1
  refine ⟨?_, ?_, ?_, ?_⟩
  · exact fun hvars c token e d' => Draft.call_eq_error hgrounded hvars
  · exact fun property mapping token => Draft.force_cases hgrounded property mapping token
  · exact fun start spec group w' w'' => not_mem_of_standalone htidy
  · intro op group w' w'' hrun hreaches j d'' hj hd''
    exact mem_groups_iff_of_run htidy hrun hreaches hj hd''

/-- Two formulas create equal mappings. Each of them refuses the mapping of the other. -/
theorem Workspace.refused_calls_change_nothing_twins :
    let twin (token : Nat) : Handle Mapping :=
      ⟨token, .binary ⟨⟨1, 2⟩, 2, 2, 1, ⟨[.char 'v', .char '(', .argument 0, .char ',',
        .argument 1, .char ')']⟩⟩⟩
    let formula (token : Nat) : Draft :=
      .cnf ⟨⟨[], 2⟩, ⟨[(twin token).map Mapping.toGroup]⟩, []⟩
    let w : Workspace := ⟨[formula 0, formula 1],
      [(twin 0).map Mapping.toGroup, (twin 1).map Mapping.toGroup], 2, .empty⟩
    w.Reachable ∧
      (formula 0).run (.force .injective (twin 1)) 2 = (.error .foreignMapping, formula 0) ∧
      ((formula 0).run (.force .injective (twin 0)) 2).1 = .ok .done := by
  intro twin formula w
  let spec : GroupSpec := .binaryMapping 2 2 none
  have hspec : (Operation.newGroup spec).Made := by
    rintro spec' ⟨⟩
    trivial
  have hbegun : ((empty.addDraft (.cnf .empty)).addDraft (.cnf .empty)).Reachable :=
    (Relation.ReflTransGen.single (.start rfl)).tail (.start rfl)
  have hfirst : ((empty.addDraft (.cnf .empty)).addDraft (.cnf .empty)).run 0 (.newGroup spec) =
      some (.ok (.group ((twin 0).map Mapping.toGroup)),
        ⟨[formula 0, .cnf .empty], [(twin 0).map Mapping.toGroup], 1, .empty⟩) := by
    decide +kernel
  have hsecond : run ⟨[formula 0, .cnf .empty], [(twin 0).map Mapping.toGroup], 1, .empty⟩ 1
      (.newGroup spec) = some (.ok (.group ((twin 1).map Mapping.toGroup)), w) := by
    decide +kernel
  have h : w.Reachable := (hbegun.tail (.run hspec hfirst)).tail (.run hspec hsecond)
  have hd : w.drafts[0]? = some (formula 0) := rfl
  obtain ⟨-, hforce, -, -⟩ := refused_calls_change_nothing h hd
  refine ⟨h, ?_, ?_⟩
  · rcases hforce .injective (twin 1) 2 with ⟨hmem, -⟩ | ⟨-, hrefused⟩
    · exact absurd hmem (by decide +kernel)
    · exact hrefused
  · rcases hforce .injective (twin 0) 2 with ⟨-, hdone⟩ | ⟨hnot, -⟩
    · exact hdone
    · exact absurd List.mem_cons_self hnot

end Clausal
