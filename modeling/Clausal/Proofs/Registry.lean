import Clausal.Formula.Operation
import Clausal.Proofs.VarGroup

/-!
# Registered groups do not overlap

What a registration does is said once (`Registry.register_cases`). A ledger is a registry together
with the number of variables in use. Two calls change it: a group is registered, or the number is
raised. That the groups ascend among the variables in use is kept by every call and so holds after
all of them (`Ledger.apart_runAll`).

An operation of a formula makes such calls on the ledger of the formula or none at all
(`Operation.precedes_run`), so the groups of a formula do not overlap either
(`Operation.runAll_apart`). A formula starts its groups right after the variables in use.
-/

namespace Clausal

/-- A group without variables is entered as it is. One that starts too low is refused. Any other
group raises the number of variables to its last one. -/
theorem Registry.register_cases (r : Registry) (group : Handle VarGroup) (vars : Nat) :
    (group.value.ids.size = 0 ∧
      r.register group vars = .ok (⟨r.groups ++ [group]⟩, vars)) ∨
    ((group.value.ids.size ≠ 0 ∧ group.value.ids.first ≤ vars) ∧
      r.register group vars =
        .error (.overlap group.value.ids.first group.value.ids.last vars)) ∨
    ((group.value.ids.size ≠ 0 ∧ vars < group.value.ids.first) ∧
      r.register group vars =
        .ok (⟨r.groups ++ [group]⟩, max vars group.value.ids.last)) := by
  rw [register]
  by_cases hsize : group.value.ids.size = 0
  · left
    rw [if_pos hsize]
    exact ⟨hsize, rfl⟩
  · right
    rw [if_neg hsize]
    by_cases hfirst : group.value.ids.first ≤ vars
    · left
      rw [if_pos hfirst]
      exact ⟨⟨hsize, hfirst⟩, rfl⟩
    · right
      rw [if_neg hfirst]
      exact ⟨⟨hsize, Nat.lt_of_not_le hfirst⟩, rfl⟩

/-- A registry with the number of variables in use. -/
structure Ledger where
  registry : Registry
  vars : Nat

/-- A call that changes a ledger. -/
inductive Ledger.Call where
  | register (group : Handle VarGroup)
  | raiseVars (n : Nat)

namespace Ledger

def run (s : Ledger) : Call → Except Error Unit × Ledger
  | .register group =>
    match s.registry.register group s.vars with
    | .error e => (.error e, s)
    | .ok (registry, vars) => (.ok (), ⟨registry, vars⟩)
  | .raiseVars n => (.ok (), { s with vars := max s.vars n })

def runAll (s : Ledger) : List Call → Ledger
  | [] => s
  | call :: calls => (s.run call).2.runAll calls

/-- The identifiers of the groups that have some, in the order of registration. -/
def occupied (s : Ledger) : List IdRange :=
  (s.registry.groups.map (·.value.ids)).filter (·.size ≠ 0)

/-- The ledger after a group has been appended. -/
def enter (s : Ledger) (group : Handle VarGroup) (vars : Nat) : Ledger :=
  ⟨⟨s.registry.groups ++ [group]⟩, vars⟩

/-! ## One call -/

variable {s : Ledger} {group : Handle VarGroup}

theorem run_register_cases (s : Ledger) (group : Handle VarGroup) :
    (group.value.ids.size = 0 ∧
      s.run (.register group) = (.ok (), s.enter group s.vars)) ∨
    ((group.value.ids.size ≠ 0 ∧ group.value.ids.first ≤ s.vars) ∧
      s.run (.register group) =
        (.error (.overlap group.value.ids.first group.value.ids.last s.vars), s)) ∨
    ((group.value.ids.size ≠ 0 ∧ s.vars < group.value.ids.first) ∧
      s.run (.register group) = (.ok (), s.enter group (max s.vars group.value.ids.last))) := by
  rcases s.registry.register_cases group s.vars with
    ⟨hsize, hregister⟩ | ⟨hlow, hregister⟩ | ⟨hhigh, hregister⟩
  · refine Or.inl ⟨hsize, ?_⟩
    rw [run, hregister]
    rfl
  · refine Or.inr (Or.inl ⟨hlow, ?_⟩)
    rw [run, hregister]
  · refine Or.inr (Or.inr ⟨hhigh, ?_⟩)
    rw [run, hregister]
    rfl

theorem vars_le_run (s : Ledger) (call : Call) : s.vars ≤ (s.run call).2.vars := by
  cases call with
  | raiseVars n => exact Nat.le_max_left _ _
  | register group =>
    rcases run_register_cases s group with ⟨-, hrun⟩ | ⟨-, hrun⟩ | ⟨-, hrun⟩
    · rw [hrun]
      exact Nat.le_refl _
    · rw [hrun]
    · rw [hrun]
      exact Nat.le_max_left _ _

theorem run_eq_error {call : Call} {e : Error} (h : (s.run call).1 = .error e) :
    e.kind = .overlapViolation ∧ (s.run call).2 = s := by
  cases call with
  | raiseVars n => cases h
  | register group =>
    rcases run_register_cases s group with ⟨-, hrun⟩ | ⟨-, hrun⟩ | ⟨-, hrun⟩
    · rw [hrun] at h
      cases h
    · rw [hrun] at h ⊢
      cases h
      exact ⟨rfl, rfl⟩
    · rw [hrun] at h
      cases h

theorem exists_error_iff : (∃ e, (s.run (.register group)).1 = .error e) ↔
    group.value.ids.size ≠ 0 ∧ group.value.ids.first ≤ s.vars := by
  rcases run_register_cases s group with ⟨hsize, hrun⟩ | ⟨hrefused, hrun⟩ | ⟨⟨hsize, hlt⟩, hrun⟩
  · rw [hrun]
    simp [hsize]
  · rw [hrun]
    simp [hrefused]
  · rw [hrun]
    simp [hsize, hlt]

/-- A group that is registered comes after all others. Unless it has no variables, it starts above
those in use, and ends them. -/
theorem run_register_eq_ok {s' : Ledger} (h : s.run (.register group) = (.ok (), s')) :
    s'.registry.groups = s.registry.groups ++ [group] ∧
      ((group.value.ids.size = 0 ∧ s'.vars = s.vars) ∨
        (group.value.ids.size ≠ 0 ∧ s.vars < group.value.ids.first ∧
          s'.vars = group.value.ids.last)) := by
  rcases run_register_cases s group with ⟨hsize, hrun⟩ | ⟨-, hrun⟩ | ⟨⟨hsize, hlt⟩, hrun⟩
  · obtain rfl : s' = _ := (Prod.mk.inj (h.symm.trans hrun)).2
    exact ⟨rfl, Or.inl ⟨hsize, rfl⟩⟩
  · cases h.symm.trans hrun
  · obtain rfl : s' = _ := (Prod.mk.inj (h.symm.trans hrun)).2
    have hlast : s.vars ≤ group.value.ids.last := by
      rw [IdRange.last, IdRange.stop]
      omega
    exact ⟨rfl, Or.inr ⟨hsize, hlt, Nat.max_eq_right hlast⟩⟩

/-! ## Groups that are kept apart -/

/-- The groups ascend, among the variables in use. -/
structure Apart (s : Ledger) : Prop where
  ascending : s.occupied.Pairwise fun a b => a.last < b.first
  first_pos : ∀ r ∈ s.occupied, 1 ≤ r.first
  last_le : ∀ r ∈ s.occupied, r.last ≤ s.vars

theorem apart_empty (vars : Nat) : Apart ⟨.empty, vars⟩ where
  ascending := List.Pairwise.nil
  first_pos := by simp [occupied, Registry.empty]
  last_le := by simp [occupied, Registry.empty]

theorem occupied_enter (s : Ledger) (group : Handle VarGroup) (vars : Nat) :
    (s.enter group vars).occupied =
      s.occupied ++ if group.value.ids.size = 0 then [] else [group.value.ids] := by
  rw [occupied, enter, List.map_append, List.filter_append, occupied]
  congr 1
  by_cases hsize : group.value.ids.size = 0
  · simp [hsize]
  · simp [hsize]

theorem apart_run (h : s.Apart) (call : Call) : (s.run call).2.Apart := by
  cases call with
  | raiseVars n =>
    refine ⟨h.ascending, h.first_pos, fun r hr => ?_⟩
    exact Nat.le_trans (h.last_le r hr) (Nat.le_max_left _ _)
  | register group =>
    rcases run_register_cases s group with ⟨hsize, hrun⟩ | ⟨-, hrun⟩ | ⟨⟨hsize, hlt⟩, hrun⟩
    · have hoccupied : (s.enter group s.vars).occupied = s.occupied := by
        rw [occupied_enter, if_pos hsize, List.append_nil]
      rw [hrun]
      refine ⟨?_, ?_, ?_⟩
      · rw [hoccupied]
        exact h.ascending
      · rw [hoccupied]
        exact h.first_pos
      · rw [hoccupied]
        exact h.last_le
    · rw [hrun]
      exact h
    · have hoccupied : (s.enter group (max s.vars group.value.ids.last)).occupied =
          s.occupied ++ [group.value.ids] := by
        rw [occupied_enter, if_neg hsize]
      rw [hrun]
      refine ⟨?_, ?_, ?_⟩
      · -- what was there before ends at the variables in use, the group starts above them
        rw [hoccupied, List.pairwise_append]
        refine ⟨h.ascending, List.pairwise_singleton _ _, fun a ha b hb => ?_⟩
        rw [List.mem_singleton.mp hb]
        exact Nat.lt_of_le_of_lt (h.last_le a ha) hlt
      · rw [hoccupied, List.forall_mem_append, List.forall_mem_singleton]
        exact ⟨h.first_pos, Nat.lt_of_le_of_lt (Nat.zero_le _) hlt⟩
      · rw [hoccupied, List.forall_mem_append, List.forall_mem_singleton]
        refine ⟨fun r hr => ?_, Nat.le_max_right _ _⟩
        exact Nat.le_trans (h.last_le r hr) (Nat.le_max_left _ _)

/-! ## Runs -/

theorem apart_runAll (h : s.Apart) (calls : List Call) : (s.runAll calls).Apart := by
  induction calls generalizing s with
  | nil => exact h
  | cons call calls ih => exact ih (apart_run h call)

theorem vars_le_runAll (s : Ledger) (calls : List Call) : s.vars ≤ (s.runAll calls).vars := by
  induction calls generalizing s with
  | nil => exact Nat.le_refl _
  | cons call calls ih => exact Nat.le_trans (vars_le_run s call) (ih _)

theorem runAll_append (s : Ledger) (calls calls' : List Call) :
    s.runAll (calls ++ calls') = (s.runAll calls).runAll calls' := by
  induction calls generalizing s with
  | nil => rfl
  | cons call calls ih => exact ih _

theorem disjoint_of_lt {a b : IdRange} (h : a.last < b.first) :
    List.Disjoint a.toList b.toList := by
  intro id ha hb
  rw [IdRange.toList, List.mem_range'_1] at ha hb
  rw [IdRange.last, IdRange.stop] at h
  omega

end Ledger

/-! ## Formulas -/

namespace Formula

variable {K : Type} {f : Formula K}

/-- The registry and the number of variables of a formula. -/
def ledger (f : Formula K) : Ledger := ⟨f.registry, f.vars⟩

theorem nextId_eq_of_le (h : f.vars ≤ Clausal.maxVar) : f.nextId = f.vars + 1 := by
  rw [nextId, Nat.mod_eq_of_lt]
  rw [Clausal.maxVar] at h
  rw [counterSize]
  omega

theorem nextId_eq (h : f.vars < Clausal.maxVar) : f.nextId = f.vars + 1 :=
  nextId_eq_of_le (Nat.le_of_lt h)

theorem newGroup_eq_ok {token : Nat} {spec : GroupSpec} {group : Handle VarGroup} {f' : Formula K}
    (h : f.newGroup token spec = (.ok group, f')) :
    spec.create f.nextId = .ok group.value ∧
      f.ledger.run (.register group) = (.ok (), f'.ledger) := by
  unfold newGroup at h
  split at h
  · cases h
  · rename_i g hcreate
    split at h
    · cases h
    · rename_i registry vars hregister
      cases h
      refine ⟨hcreate, ?_⟩
      have hledger : f.ledger.registry.register ⟨token, g⟩ f.ledger.vars = .ok (registry, vars) :=
        hregister
      rw [Ledger.run, hledger]
      rfl

theorem register_cases {f' : Formula K} {group : Handle VarGroup}
    (h : f.ledger.run (.register group) = (.ok (), f'.ledger)) :
    f'.registry.groups = f.registry.groups ++ [group] ∧
      ((group.value.ids.size = 0 ∧ f'.vars = f.vars) ∨
        (group.value.ids.size ≠ 0 ∧ f.vars < group.value.ids.first ∧
          f'.vars = group.value.ids.last)) :=
  Ledger.run_register_eq_ok h

/-- Nothing changes where no group is created, and else the group is appended to the others. -/
theorem newGroup_cases (f : Formula K) (token : Nat) (spec : GroupSpec) :
    (∃ e, f.newGroup token spec = (.error e, f)) ∨
    ∃ group vars, spec.create f.nextId = .ok group ∧
      f.newGroup token spec = (.ok ⟨token, group⟩, { f with
        registry := ⟨f.registry.groups ++ [⟨token, group⟩]⟩
        store := { f.store with vars } }) := by
  unfold newGroup
  split
  · exact Or.inl ⟨_, rfl⟩
  · rename_i group hcreate
    split
    · exact Or.inl ⟨_, rfl⟩
    · rename_i registry vars hregister
      refine Or.inr ⟨group, vars, hcreate, ?_⟩
      rcases f.registry.register_cases ⟨token, group⟩ f.vars with
        ⟨-, hcase⟩ | ⟨-, hcase⟩ | ⟨-, hcase⟩
      · cases hcase.symm.trans hregister
        rfl
      · cases hcase.symm.trans hregister
      · cases hcase.symm.trans hregister
        rfl

theorem newGroup_of_create {spec : GroupSpec} {g : VarGroup} (token : Nat)
    (hvars : f.vars < Clausal.maxVar) (h : spec.create (f.vars + 1) = .ok g) :
    ∃ f', f.newGroup token spec = (.ok ⟨token, g⟩, f') ∧
      f'.registry = ⟨f.registry.groups ++ [⟨token, g⟩]⟩ ∧ f'.constraints = f.constraints := by
  have hfirst : f.vars < g.ids.first := by
    rw [GroupSpec.create_first h]
    exact Nat.lt_succ_self f.vars
  have hregister : ∃ vars, f.registry.register ⟨token, g⟩ f.vars =
      .ok (⟨f.registry.groups ++ [⟨token, g⟩]⟩, vars) := by
    rcases f.registry.register_cases ⟨token, g⟩ f.vars with
      ⟨-, hcase⟩ | ⟨⟨-, hle⟩, -⟩ | ⟨-, hcase⟩
    · exact ⟨_, hcase⟩
    · exact absurd hfirst (Nat.not_lt_of_le hle)
    · exact ⟨_, hcase⟩
  obtain ⟨vars, hregister⟩ := hregister
  rw [newGroup, nextId_eq hvars, h]
  dsimp only
  rw [hregister]
  exact ⟨_, rfl, rfl, rfl⟩

theorem mapM_ofVouched {start count : Nat} (hstart : 1 ≤ start)
    (hstop : start + count ≤ Clausal.maxVar + 1) :
    (IdRange.toList ⟨start, count⟩).mapM (Lit.ofVouched · false) =
      .ok ((List.range' start count).map .positive) := by
  apply Except.mapM_eq_ok
  intro id hid
  have hid : start ≤ id ∧ id < start + count := List.mem_range'_1.mp hid
  rw [Lit.ofVouched, vouchedVar, if_neg (by omega)]
  rfl

theorem newGroup_ids_of_nextId {token : Nat} {spec : GroupSpec} {group : Handle VarGroup}
    {f' : Formula K} (hnext : f.nextId = f.vars + 1)
    (h : f.newGroup token spec = (.ok group, f')) :
    group.value.ids = ⟨f.vars + 1, group.value.size⟩ ∧ f'.vars = f.vars + group.value.size := by
  obtain ⟨hcreate, hrun⟩ := newGroup_eq_ok h
  have hfirst : group.value.ids.first = f.vars + 1 := by
    rw [GroupSpec.create_first hcreate, hnext]
  refine ⟨?_, ?_⟩
  · rw [← hfirst]
    rfl
  · obtain ⟨-, ⟨hsize, hvars⟩ | ⟨hsize, -, hvars⟩⟩ := register_cases hrun
    · rw [hvars, VarGroup.size, hsize, Nat.add_zero]
    · rw [hvars, VarGroup.size, IdRange.last, IdRange.stop, hfirst]
      omega

theorem newGroup_ids {token : Nat} {spec : GroupSpec} {group : Handle VarGroup} {f' : Formula K}
    (hvars : f.vars < Clausal.maxVar) (h : f.newGroup token spec = (.ok group, f')) :
    group.value.ids = ⟨f.vars + 1, group.value.size⟩ ∧ f'.vars = f.vars + group.value.size :=
  newGroup_ids_of_nextId (nextId_eq hvars) h

theorem newVariable_ids_of_nextId {token : Nat} {name : Option String} {l : Lit} {f' : Formula K}
    (hnext : f.nextId = f.vars + 1) (h : f.newVariable token name = (.ok l, f')) :
    l = .positive (f.vars + 1) ∧ f'.vars = f.vars + 1 := by
  rw [newVariable] at h
  rcases hgroup : f.newGroup token (.singleton name) with ⟨result, after⟩
  rw [hgroup] at h
  obtain ⟨hresult, rfl⟩ := Prod.mk.inj h
  obtain ⟨group, rfl, rfl⟩ := Except.map_eq_ok_iff.mp hresult
  obtain ⟨hids, hafter⟩ := newGroup_ids_of_nextId hnext hgroup
  obtain ⟨g, -, hvalue⟩ := Except.map_eq_ok_iff.mp (newGroup_eq_ok hgroup).1
  have hsize : group.value.size = 1 := by
    rw [← hvalue]
    rfl
  rw [hsize] at hids hafter
  exact ⟨congrArg (fun ids : IdRange => Lit.positive ids.first) hids, hafter⟩

theorem newVariable_ids {token : Nat} {name : Option String} {l : Lit} {f' : Formula K}
    (hvars : f.vars < Clausal.maxVar) (h : f.newVariable token name = (.ok l, f')) :
    l = .positive (f.vars + 1) ∧ f'.vars = f.vars + 1 :=
  newVariable_ids_of_nextId (nextId_eq hvars) h

theorem newVariables_ids_of_nextId {count : Nat} {lits : List Lit} {f' : Formula K}
    (hnext : f.nextId = f.vars + 1) (h : f.newVariables count = (.ok lits, f')) :
    lits = (List.range' (f.vars + 1) count).map .positive ∧ f'.vars = f.vars + count := by
  rw [newVariables, hnext] at h
  split at h
  · cases h
  · rename_i ids hids
    obtain ⟨rfl, -, hstop⟩ := IdRange.alloc_eq_ok_iff.mp hids
    rw [mapM_ofVouched (Nat.le_add_left 1 f.vars) hstop] at h
    cases h
    refine ⟨rfl, ?_⟩
    by_cases hcount : count = 0
    · rw [if_pos hcount, hcount]
      rfl
    · rw [if_neg hcount]
      show max f.vars (f.vars + 1 + count - 1) = f.vars + count
      omega

theorem newVariables_ids {count : Nat} {lits : List Lit} {f' : Formula K}
    (hvars : f.vars < Clausal.maxVar) (h : f.newVariables count = (.ok lits, f')) :
    lits = (List.range' (f.vars + 1) count).map .positive ∧ f'.vars = f.vars + count :=
  newVariables_ids_of_nextId (nextId_eq hvars) h

/-! ## Histories -/

/-- Some calls turn the ledger of one formula into that of the other. -/
def Precedes (f f' : Formula K) : Prop := ∃ calls, f'.ledger = f.ledger.runAll calls

theorem precedes_refl (f : Formula K) : f.Precedes f := ⟨[], rfl⟩

theorem precedes_raiseVars (f : Formula K) (n : Nat) : f.Precedes (f.raiseVars n) :=
  ⟨[.raiseVars n], rfl⟩

theorem precedes_newGroup (f : Formula K) (token : Nat) (spec : GroupSpec) :
    f.Precedes (f.newGroup token spec).2 := by
  rcases f.newGroup_cases token spec with ⟨e, heq⟩ | ⟨group, vars, -, heq⟩
  · rw [heq]
    exact precedes_refl f
  · refine ⟨[.register ⟨token, group⟩], ?_⟩
    rw [Ledger.runAll, (newGroup_eq_ok heq).2, heq]
    rfl

theorem precedes_newVariables (f : Formula K) (count : Nat) :
    f.Precedes (f.newVariables count).2 := by
  rw [newVariables]
  split
  · exact precedes_refl f
  · dsimp only
    split_ifs
    · exact precedes_refl f
    · exact precedes_raiseVars f _

theorem precedes_collect [Constraint K] (f : Formula K) (requests : List Request) :
    f.Precedes (f.collect requests) := by
  cases hmax : Lit.maxVar? (requests.flatMap Request.lits) with
  | none =>
    refine ⟨[], ?_⟩
    rw [collect, Store.collect, Store.raiseTo, hmax]
    rfl
  | some v =>
    refine ⟨[.raiseVars v], ?_⟩
    rw [collect, Store.collect, Store.raiseTo, hmax]
    rfl

theorem precedes_addLinear [Constraint K] (f : Formula K) (lits : List Lit) (rel : Relation)
    (bound : Int) : f.Precedes (f.addLinear lits rel bound).2 := by
  rw [addLinear]
  split
  · exact precedes_refl f
  · exact precedes_refl f

end Formula

namespace Operation

variable {K : Type} [Constraint K]

theorem precedes_run (op : Operation) (token : Nat) (f : Formula K) :
    f.Precedes (op.run token f).2 := by
  cases op with
  | newVariable name => exact f.precedes_newGroup token (.singleton name)
  | newVariables count => exact f.precedes_newVariables count
  | newGroup spec => exact f.precedes_newGroup token spec
  | raiseVars n => exact f.precedes_raiseVars n
  | addClause c => exact f.precedes_collect _
  | addDimacsClause values =>
    show f.Precedes (f.addDimacsClause values).2
    rw [Formula.addDimacsClause]
    split
    · exact f.precedes_refl
    · exact f.precedes_collect _
  | addUncheckedClause c => exact f.precedes_refl
  | extend clauses => exact f.precedes_collect _
  | collectLinear lits rel bound => exact f.precedes_collect _
  | addParity lits constant =>
    show f.Precedes (f.addParity lits constant).2
    rw [Formula.addParity]
    split
    · exact f.precedes_refl
    · split
      · exact f.precedes_refl
      · exact f.precedes_collect _
  | addLinear lits rel bound => exact f.precedes_addLinear lits rel bound
  | addMajority majority lits => exact f.precedes_addLinear lits _ _
  | force property mapping =>
    show f.Precedes (f.force property mapping).2
    rw [Formula.force]
    split
    · exact f.precedes_collect _
    · exact f.precedes_refl
  | setHeader field value => exact f.precedes_refl

theorem precedes_runAll (ops : List Operation) (token : Nat) (f : Formula K) :
    f.Precedes (runAll ops token f).2 := by
  induction ops generalizing token f with
  | nil => exact f.precedes_refl
  | cons op ops ih =>
    obtain ⟨calls, hcalls⟩ := precedes_run op token f
    obtain ⟨calls', hcalls'⟩ := ih (token + 1) (op.run token f).2
    refine ⟨calls ++ calls', ?_⟩
    rw [Ledger.runAll_append, ← hcalls]
    exact hcalls'

theorem runAll_apart (ops : List Operation) (token : Nat) :
    (runAll ops token (Formula.empty : Formula K)).2.ledger.Apart := by
  obtain ⟨calls, hcalls⟩ := precedes_runAll ops token (Formula.empty : Formula K)
  rw [hcalls]
  exact Ledger.apart_runAll (Ledger.apart_empty 0) calls

end Operation

namespace Ledger

/-- **Groups never overlap.** Whatever calls were made, the groups that have identifiers ascend
among the variables in use and share none. The number of variables does not go down, and a
registration is refused exactly for a group that starts too low, which changes nothing. Any other
group is appended to those before it, and ends the variables in use unless it has none. What a
formula creates takes the identifiers right after the variables in use, as many as it needs. -/
theorem groups_never_overlap {K : Type} (initial : Nat) (calls : List Call) (f : Formula K) :
    let s := runAll ⟨.empty, initial⟩ calls
    (s.occupied.Pairwise fun a b => a.last < b.first ∧ List.Disjoint a.toList b.toList) ∧
    (∀ r ∈ s.occupied, ∀ id ∈ r.toList, 1 ≤ id ∧ id ≤ s.vars) ∧
    (∀ more, s.vars ≤ (s.runAll more).vars) ∧
    (∀ group, (∃ e, (s.run (.register group)).1 = .error e) ↔
      group.value.ids.size ≠ 0 ∧ group.value.ids.first ≤ s.vars) ∧
    (∀ call e, (s.run call).1 = .error e → e.kind = .overlapViolation ∧ (s.run call).2 = s) ∧
    (∀ group s', s.run (.register group) = (.ok (), s') →
      s'.registry.groups = s.registry.groups ++ [group] ∧
        ((group.value.ids.size = 0 ∧ s'.vars = s.vars) ∨
          (group.value.ids.size ≠ 0 ∧ s.vars < group.value.ids.first ∧
            s'.vars = group.value.ids.last))) ∧
    (f.vars < maxVar →
      (∀ token spec group f', f.newGroup token spec = (.ok group, f') →
        group.value.ids = ⟨f.vars + 1, group.value.size⟩ ∧
          f'.vars = f.vars + group.value.size) ∧
      (∀ token name l f', f.newVariable token name = (.ok l, f') →
        l = .positive (f.vars + 1) ∧ f'.vars = f.vars + 1) ∧
      ∀ count lits f', f.newVariables count = (.ok lits, f') →
        lits = (List.range' (f.vars + 1) count).map .positive ∧ f'.vars = f.vars + count) := by
  intro s
  have hapart : s.Apart := apart_runAll (apart_empty initial) calls
  refine ⟨?_, ?_, fun more => vars_le_runAll s more, fun group => exists_error_iff,
    fun call e => run_eq_error, fun group s' => run_register_eq_ok, fun hvars => ⟨?_, ?_, ?_⟩⟩
  · exact hapart.ascending.imp fun hlt => ⟨hlt, disjoint_of_lt hlt⟩
  · intro r hr id hid
    have hfirst := hapart.first_pos r hr
    have hlast := hapart.last_le r hr
    rw [IdRange.toList, List.mem_range'_1] at hid
    rw [IdRange.last, IdRange.stop] at hlast
    omega
  · exact fun token spec group f' => Formula.newGroup_ids hvars
  · exact fun token name l f' => Formula.newVariable_ids hvars
  · exact fun count lits f' => Formula.newVariables_ids hvars

/-- A group below the variables in use is refused. A formula with as many variables starts its group
above them. -/
theorem groups_never_overlap_seven :
    let s := runAll ⟨.empty, 2⟩ [.register ⟨0, .singleton ⟨4, none⟩⟩, .raiseVars 7]
    let f : CnfFormula := Formula.empty.raiseVars 7
    (s.run (.register ⟨1, .singleton ⟨5, none⟩⟩)).2 = s ∧
    ∃ group f', f.newGroup 2 (.block [2, 3] none) = (.ok group, f') ∧
      group.value.ids = ⟨8, 6⟩ ∧ f'.vars = 13 := by
  intro s f
  obtain ⟨-, -, -, -, hfailed, -, hformula⟩ :=
    groups_never_overlap 2 [.register ⟨0, .singleton ⟨4, none⟩⟩, .raiseVars 7] f
  refine ⟨(hfailed (.register ⟨1, .singleton ⟨5, none⟩⟩) (.overlap 5 5 7) ?_).2, ?_⟩
  · rfl
  · let block : Handle VarGroup := ⟨2, .block ⟨⟨8, 6⟩, [2, 3], [3, 1],
      ⟨[.char 'X', .char '(', .argument 0, .char ',', .argument 1, .char ')']⟩⟩⟩
    have hgroup : f.newGroup 2 (.block [2, 3] none) =
        (.ok block, ⟨⟨[], 13⟩, ⟨[block]⟩, []⟩) := by
      decide +kernel
    obtain ⟨hids, hafter⟩ := (hformula (by decide)).1 _ _ _ _ hgroup
    exact ⟨block, _, hgroup, hids, hafter⟩

end Ledger

end Clausal
