import Clausal.Proofs.Constraint
import Clausal.Proofs.Dimacs.Parser
import Clausal.Proofs.Encoding.Mapping.Made
import Clausal.Proofs.Formula.Audit
import Clausal.Proofs.Formula.Call
import Clausal.Proofs.Request

/-!
# Formulas stay sound

A formula is sound if its constraints are over the variables in use, with positive coefficients, and
its groups are among these variables as well. What operations do to a formula comes down to a few
changes (`Formula.Change`): a group is registered, the number of variables is raised, or constraints
are added that some literals account for. Each change keeps a formula sound and only adds to it, so
every formula that can be built is sound (`Draft.sound_of_reachable`).

An operation has to be given literals that have a variable, and a clause that is added without a
look at its variables may be about others. These are the calls that are not `Regular`.
-/

namespace Clausal

/-! ## Literals -/

/-- The variable of the literal has a valid identifier. -/
def Lit.Valid (l : Lit) : Prop := 1 ≤ l.var ∧ l.var ≤ maxVar

theorem Lit.valid_of_ofDimacs {value : Int} {l : Lit} (h : ofDimacs value = .ok l) : l.Valid := by
  rw [ofDimacs] at h
  split_ifs at h
  obtain ⟨var, hvar, rfl⟩ := Except.map_eq_ok_iff.mp h
  rw [checkVar] at hvar
  split_ifs at hvar with hrange
  cases hvar
  constructor
  · show 1 ≤ value.natAbs
    omega
  · show value.natAbs ≤ maxVar
    omega

theorem Lit.valid_of_listOfDimacs {values : List Int} {lits : List Lit}
    (h : listOfDimacs values = .ok lits) : ∀ l ∈ lits, l.Valid := by
  induction values generalizing lits with
  | nil =>
    cases h
    simp
  | cons value values ih =>
    rw [listOfDimacs, List.mapM_cons] at h
    obtain ⟨l, hl, h⟩ := Except.bind_eq_ok_iff.mp h
    obtain ⟨rest, hrest, h⟩ := Except.bind_eq_ok_iff.mp h
    cases h
    exact List.forall_mem_cons.mpr ⟨valid_of_ofDimacs hl, ih hrest⟩

theorem Store.vars_raiseTo_le_iff {K : Type} {s : Store K} {lits : List Lit} {n : Nat} :
    (s.raiseTo lits).vars ≤ n ↔ s.vars ≤ n ∧ ∀ l ∈ lits, l.var ≤ n := by
  have hmax : (∀ v, Lit.maxVar? lits = some v → v ≤ n) ↔ ∀ l ∈ lits, l.var ≤ n := by
    rw [Lit.maxVar?]
    cases hvars : (lits.map Lit.var).max? with
    | none =>
      rw [List.max?_eq_none_iff, List.map_eq_nil_iff] at hvars
      simp [hvars]
    | some v =>
      simp [List.max?_le_iff hvars]
  rw [raiseTo, ← hmax]
  cases Lit.maxVar? lits with
  | none => simp
  | some v => simp [raiseVars]

theorem Store.raiseTo_of_le {K : Type} {s : Store K} {lits : List Lit}
    (h : ∀ l ∈ lits, l.var ≤ s.vars) : s.raiseTo lits = s := by
  have hvars : (s.raiseTo lits).vars ≤ s.vars := vars_raiseTo_le_iff.mpr ⟨Nat.le_refl _, h⟩
  rw [raiseTo] at hvars ⊢
  cases hmax : Lit.maxVar? lits with
  | none => rfl
  | some v =>
    rw [hmax] at hvars
    have hle : max s.vars v ≤ s.vars := hvars
    show (⟨s.constraints, max s.vars v⟩ : Store K) = s
    rw [Nat.le_antisymm hle (Nat.le_max_left s.vars v)]

/-! ## Changes -/

namespace Formula

variable {K : Type} [Constraint K]

omit [Constraint K] in
/-- The variables in use. -/
def inUse (f : Formula K) : List Nat := List.range' 1 f.vars

/-- Whatever the formula consists of is among the variables in use. -/
structure Sound (f : Formula K) : Prop where
  vars_le : f.vars ≤ Clausal.maxVar
  grounded : f.Grounded
  ids_subset : ∀ group ∈ f.registry.groups, group.value.ids.toList ⊆ f.inUse
  drawn : ∀ k ∈ f.constraints, (Constraint.toPb k).Drawn f.inUse

/-- What operations can do to a formula. -/
inductive Change (f : Formula K) : Formula K → Prop where
  | stay : Change f f
  | describe (header : Header) : Change f { f with header }
  | register {group : Handle VarGroup} {f' : Formula K} (hmade : group.value.Made)
      (hrun : f.ledger.run (.register group) = (.ok (), f'.ledger))
      (hconstraints : f'.constraints = f.constraints) : Change f f'
  | raise {n : Nat} (hn : n ≤ Clausal.maxVar) : Change f (f.raiseVars n)
  /-- The constraints are made from the literals, whose variables are in use from then on. -/
  | grow {lits : List Lit} {cs : List K} (hlits : ∀ l ∈ lits, l.Valid)
      (hcs : ∀ k ∈ cs, (Constraint.toPb k).Drawn (lits.map Lit.var)) :
      Change f { f with store := (f.store.raiseTo lits).append cs }

omit [Constraint K] in
/-- The other formula goes on from this one. -/
structure Extends (f f' : Formula K) : Prop where
  constraints : f.constraints <+: f'.constraints
  groups : f.registry.groups <+: f'.registry.groups
  vars_le : f.vars ≤ f'.vars

omit [Constraint K] in
theorem mem_inUse {f : Formula K} {v : Nat} : v ∈ f.inUse ↔ 1 ≤ v ∧ v ≤ f.vars := by
  rw [inUse, List.mem_range'_1]
  omega

omit [Constraint K] in
theorem inUse_subset {f f' : Formula K} (h : f.vars ≤ f'.vars) : f.inUse ⊆ f'.inUse := by
  intro v hv
  rw [mem_inUse] at hv ⊢
  omega

theorem Change.extends {f f' : Formula K} (h : f.Change f') : f.Extends f' := by
  cases h with
  | stay | describe => exact ⟨List.prefix_refl _, List.prefix_refl _, Nat.le_refl _⟩
  | register hmade hrun hconstraints =>
    obtain ⟨hgroups, hvars⟩ := register_cases hrun
    simp only [IdRange.last, IdRange.stop] at hvars
    refine ⟨?_, ?_, ?_⟩
    · exact hconstraints.symm ▸ List.prefix_refl _
    · rw [hgroups]
      exact List.prefix_append _ _
    · omega
  | raise hn => exact ⟨List.prefix_refl _, List.prefix_refl _, Nat.le_max_left _ _⟩
  | @grow lits cs hlits hcs =>
    refine ⟨?_, List.prefix_refl _, ?_⟩
    · show f.store.constraints <+: (f.store.raiseTo lits).constraints ++ cs
      rw [Store.constraints_raiseTo]
      exact List.prefix_append _ _
    · exact (Store.vars_raiseTo_le_iff.mp (Nat.le_refl _)).1

theorem Change.sound {f f' : Formula K} (h : f.Change f') (hf : f.Sound) : f'.Sound := by
  have hused : f.inUse ⊆ f'.inUse := inUse_subset h.extends.vars_le
  have hdrawn : ∀ k ∈ f.constraints, (Constraint.toPb k).Drawn f'.inUse :=
    fun k hk => (hf.drawn k hk).mono hused
  have hids : ∀ group ∈ f.registry.groups, group.value.ids.toList ⊆ f'.inUse :=
    fun group hgroup => List.Subset.trans (hf.ids_subset group hgroup) hused
  cases h with
  | stay | describe => exact ⟨hf.vars_le, hf.grounded, hids, hdrawn⟩
  | @register group _ hmade hrun hconstraints =>
    obtain ⟨hgroups, hvars⟩ := register_cases hrun
    have hstop := hmade.stop_le
    rw [IdRange.stop] at hstop
    simp only [IdRange.last, IdRange.stop] at hvars
    have hvars_le := hf.vars_le
    refine ⟨by omega, ?_, ?_, ?_⟩
    · rw [Grounded, hgroups, List.forall_mem_append, List.forall_mem_singleton]
      exact ⟨hf.grounded, hmade⟩
    · rw [hgroups, List.forall_mem_append, List.forall_mem_singleton]
      refine ⟨hids, fun id hid => ?_⟩
      rw [IdRange.toList, List.mem_range'_1] at hid
      rw [mem_inUse]
      omega
    · rw [hconstraints]
      exact hdrawn
  | @raise n hn => exact ⟨Nat.max_le.mpr ⟨hf.vars_le, hn⟩, hf.grounded, hids, hdrawn⟩
  | @grow lits cs hlits hcs =>
    refine ⟨?_, hf.grounded, hids, ?_⟩
    · exact Store.vars_raiseTo_le_iff.mpr ⟨hf.vars_le, fun l hl => (hlits l hl).2⟩
    · show ∀ k ∈ (f.store.raiseTo lits).constraints ++ cs, _
      rw [Store.constraints_raiseTo, List.forall_mem_append]
      refine ⟨hdrawn, fun k hk => (hcs k hk).mono fun v hv => ?_⟩
      obtain ⟨l, hl, rfl⟩ := List.mem_map.mp hv
      rw [mem_inUse]
      exact ⟨(hlits l hl).1, (Store.vars_raiseTo_le_iff.mp (Nat.le_refl _)).2 l hl⟩

/-! ## Changes by operations -/

section Changes

variable [LawfulLiterals K] {f : Formula K}

theorem drawn_ofRequest (request : Request) :
    ∀ k ∈ (Constraint.ofRequest request : List K),
      (Constraint.toPb k).Drawn (request.lits.map Lit.var) := by
  cases request with
  | clause c =>
    rw [Constraint.ofRequest, List.forall_mem_singleton]
    exact LawfulLiterals.drawn_ofClause c
  | linear lits rel bound => exact LawfulLiterals.drawn_ofLinear lits rel bound

theorem change_collect {requests : List Request}
    (h : ∀ request ∈ requests, ∀ l ∈ request.lits, l.Valid) : f.Change (f.collect requests) := by
  have hvalid : ∀ l ∈ requests.flatMap Request.lits, l.Valid := List.forall_mem_flatMap.mpr h
  refine Change.grow hvalid ?_
  intro k hk
  obtain ⟨request, hrequest, hk⟩ := List.mem_flatMap.mp hk
  refine (drawn_ofRequest request k hk).mono fun v hv => ?_
  obtain ⟨l, hl, rfl⟩ := List.mem_map.mp hv
  exact List.mem_map_of_mem (List.mem_flatMap.mpr ⟨request, hrequest, hl⟩)

theorem change_addClauses {clauses : List Clause} (h : ∀ c ∈ clauses, ∀ l ∈ c, l.Valid) :
    f.Change (Collector.addClauses f clauses) :=
  change_collect (List.forall_mem_map.mpr h)

omit [LawfulLiterals K] in
theorem change_newGroup {spec : GroupSpec} (hspec : spec.Reachable) (token : Nat) :
    f.Change (f.newGroup token spec).2 := by
  rcases f.newGroup_cases token spec with ⟨e, heq⟩ | ⟨group, vars, hcreate, heq⟩
  · rw [heq]
    exact .stay
  · have hrun := (newGroup_eq_ok heq).2
    rw [heq]
    exact .register ⟨spec, _, hspec, hcreate⟩ hrun rfl

omit [LawfulLiterals K] in
theorem change_newVariables (count : Nat) : f.Change (f.newVariables count).2 := by
  rw [newVariables]
  split
  · exact .stay
  · rename_i ids hids
    obtain ⟨rfl, -, hstop⟩ := IdRange.alloc_eq_ok_iff.mp hids
    dsimp only
    split_ifs
    · exact .stay
    · apply Change.raise
      show f.nextId + count - 1 ≤ Clausal.maxVar
      omega

theorem change_addLinear {lits : List Lit} (hlits : ∀ l ∈ lits, l.Valid) (rel : Relation)
    (bound : Int) : f.Change (f.addLinear lits rel bound).2 := by
  rw [addLinear]
  split
  · exact .stay
  · rename_i hcheck
    -- the variables are in use already, so covering the literals does not raise their number
    have hraise := Store.raiseTo_of_le (s := f.store) (checkLits_eq_ok_iff.mp hcheck)
    have hgrow : f.Change { f with store := (f.store.raiseTo lits).append _ } :=
      .grow hlits (LawfulLiterals.drawn_ofLinear lits rel bound)
    rw [hraise] at hgrow
    exact hgrow

theorem change_addParity {lits : List Lit} (hlits : ∀ l ∈ lits, l.Valid) (constant : Nat) :
    f.Change (f.addParity lits constant).2 := by
  rw [addParity]
  split
  · exact .stay
  · split
    · exact .stay
    · rename_i clauses hclauses
      refine change_addClauses fun c hc l hl => ?_
      obtain ⟨m, hm, hvar⟩ := List.mem_map.mp (Parity.var_mem_of_mem_clauses hclauses hc hl)
      rw [Lit.Valid, ← hvar]
      exact hlits m hm

theorem change_addDimacsClause (values : List Int) : f.Change (f.addDimacsClause values).2 := by
  rw [addDimacsClause]
  split
  · exact .stay
  · rename_i c hc
    refine change_collect ?_
    rw [List.forall_mem_singleton]
    exact Lit.valid_of_listOfDimacs hc

theorem change_force (hf : f.Sound) (property : MappingProperty) (mapping : Handle Mapping) :
    f.Change (f.force property mapping).2 := by
  rw [force]
  split_ifs with howns
  · have hmem : mapping.map Mapping.toGroup ∈ f.registry.groups := List.contains_iff_mem.mp howns
    refine change_collect fun request hrequest l hl => ?_
    -- a constraint is about variables of the mapping, and these are in use as it is registered
    have hids := Mapping.var_mem_of_made (hf.grounded _ hmem) property
      (Request.mem_of_mem_untilFailure hrequest) l hl
    obtain ⟨hpos, hle⟩ := mem_inUse.mp (hf.ids_subset _ hmem hids)
    exact ⟨hpos, Nat.le_trans hle hf.vars_le⟩
  · exact .stay

end Changes

theorem change_addConstraint {f : OpbFormula} {terms : List (Lit × Int)}
    (hterms : ∀ term ∈ terms, term.1.Valid) (rel : Relation) (bound : Int) :
    f.Change (f.addConstraint terms rel bound).2 := by
  rw [addConstraint, Opb.addConstraint]
  cases hnorm : PbConstraint.normalize terms rel bound with
  | error e => exact .stay
  | ok c =>
    have hdrawn := PbConstraint.drawn_normalize hnorm
    have hvalid : ∀ l ∈ c.lits, l.Valid := by
      intro l hl
      obtain ⟨term, hterm, hvar⟩ := List.mem_map.mp (hdrawn.var_mem l hl)
      rw [Lit.Valid, ← hvar]
      exact hterms term hterm
    refine Change.grow hvalid ?_
    rw [List.forall_mem_singleton]
    exact ⟨fun l hl => List.mem_map_of_mem hl, hdrawn.weight_pos⟩

end Formula

/-! ## Calls -/

/-- What an operation must be told to keep a formula sound: literals that have a variable, a number
of variables that can be, graphs that were built edge by edge. -/
def Operation.Regular : Operation → Prop
  | newVariable _ | newVariables _ | addDimacsClause _ | force _ _ | setHeader _ _ => True
  | newGroup spec => spec.Reachable
  | raiseVars n => n ≤ maxVar
  | addClause c => ∀ l ∈ c, l.Valid
  | addUncheckedClause _ => False
  | extend clauses => ∀ c ∈ clauses, ∀ l ∈ c, l.Valid
  | collectLinear lits _ _ | addParity lits _ | addLinear lits _ _ | addMajority _ lits =>
    ∀ l ∈ lits, l.Valid

theorem Operation.change_run {K : Type} [Constraint K] [LawfulLiterals K] {op : Operation}
    (hop : op.Regular) (token : Nat) {f : Formula K} (hf : f.Sound) :
    f.Change (op.run token f).2 := by
  cases op with
  | newVariable name =>
    have hspec : (GroupSpec.singleton name).Reachable := trivial
    exact Formula.change_newGroup hspec token
  | newVariables count => exact Formula.change_newVariables count
  | newGroup spec => exact Formula.change_newGroup hop token
  | raiseVars n => exact .raise hop
  | addClause c => exact Formula.change_collect (List.forall_mem_singleton.mpr hop)
  | addDimacsClause values => exact Formula.change_addDimacsClause values
  | addUncheckedClause c => exact hop.elim
  | extend clauses => exact Formula.change_addClauses hop
  | collectLinear lits rel bound =>
    exact Formula.change_collect (List.forall_mem_singleton.mpr hop)
  | addParity lits constant => exact Formula.change_addParity hop constant
  | addLinear lits rel bound => exact Formula.change_addLinear hop rel bound
  | addMajority majority lits => exact Formula.change_addLinear hop _ _
  | force property mapping => exact Formula.change_force hf property mapping
  | setHeader field value => exact .describe _

namespace Draft

def Call.Regular : Call → Prop
  | .run op => op.Regular
  | .addConstraint terms _ _ => ∀ term ∈ terms, term.1.Valid
  | .labels _ => True

/-- What can be built by regular calls, starting from nothing or from a file. -/
inductive Reachable : Draft → Prop where
  | cnf : Reachable (.cnf .empty)
  | opb : Reachable (.opb .empty)
  | ofDimacs {bytes : ByteArray} {name : String} {f : CnfFormula}
      (h : Formula.ofDimacs bytes name = .ok f) : Reachable (.cnf f)
  | call {d d' : Draft} {c : Call} {token : Nat} {result : Except Error Unit} (hd : Reachable d)
      (hc : c.Regular) (h : d.call token c = some (result, d')) : Reachable d'

def Sound : Draft → Prop
  | cnf f => f.Sound
  | opb f => f.Sound

/-- The other formula is of the same kind and goes on from this one. -/
def Extends : Draft → Draft → Prop
  | cnf f, cnf f' => f.Extends f'
  | opb f, opb f' => f.Extends f'
  | _, _ => False

/-- Every literal of a constraint is over a variable in use, and every coefficient is positive. -/
def InUse : Draft → Prop
  | cnf f => ∀ c ∈ f.constraints, ∀ l ∈ c, 1 ≤ l.var ∧ l.var ≤ f.vars
  | opb f => ∀ c ∈ f.constraints, ∀ term ∈ c.terms,
      (1 ≤ term.1.var ∧ term.1.var ≤ f.vars) ∧ 0 < term.2

def isWellFormed (opts : AuditOptions) : Draft → Bool
  | cnf f => f.isWellFormed opts
  | opb f => f.isWellFormed opts

/-- One call keeps a formula sound and only adds to it. -/
theorem sound_call {d d' : Draft} {c : Call} {token : Nat} {result : Except Error Unit}
    (hd : d.Sound) (hc : c.Regular) (h : d.call token c = some (result, d')) :
    d'.Sound ∧ d.Extends d' := by
  cases c with
  | run op =>
    cases h
    cases d with
    | cnf f =>
      have hchange := op.change_run hc token hd
      exact ⟨hchange.sound hd, hchange.extends⟩
    | opb f =>
      have hchange := op.change_run hc token hd
      exact ⟨hchange.sound hd, hchange.extends⟩
  | addConstraint terms rel bound =>
    cases d with
    | cnf f => cases h
    | opb f =>
      cases h
      have hchange := Formula.change_addConstraint (f := f) hc rel bound
      exact ⟨hchange.sound hd, hchange.extends⟩
  | labels format =>
    cases h
    cases d with
    | cnf f => exact ⟨hd, Formula.Change.stay.extends⟩
    | opb f => exact ⟨hd, Formula.Change.stay.extends⟩

end Draft

/-! ## Formulas that can be built -/

namespace Formula

variable {K : Type} [Constraint K]

theorem sound_empty : (empty : Formula K).Sound where
  vars_le := Nat.zero_le _
  grounded := nofun
  ids_subset := nofun
  drawn := nofun

theorem sound_ofDimacs {bytes : ByteArray} {name : String} {f : CnfFormula}
    (h : ofDimacs bytes name = .ok f) : f.Sound := by
  obtain ⟨⟨n, clauses⟩, hparse, rfl⟩ := Except.map_eq_ok_iff.mp h
  obtain ⟨hn, hclauses⟩ := Dimacs.var_le_of_parse hparse
  have hvalid : ∀ c ∈ clauses, ∀ l ∈ c, l.Valid := by
    intro c hc l hl
    obtain ⟨hpos, hle⟩ := hclauses c hc l hl
    exact ⟨hpos, Nat.le_trans hle hn⟩
  have hdescribed : (describedAs ("Formula from DIMACS file " ++ name) : CnfFormula).Sound :=
    (Change.describe _).sound sound_empty
  exact (change_addClauses hvalid).sound ((Change.raise hn).sound hdescribed)

theorem isWellFormed_of_sound [LawfulLiterals K] {f : Formula K} (hf : f.Sound) :
    f.isWellFormed ⟨true, true⟩ = true := by
  rw [isWellFormed_iff]
  intro k hk
  have hdrawn := hf.drawn k hk
  refine ⟨?_, ?_, Or.inl rfl, Or.inl rfl⟩
  · exact fun term hterm => (hdrawn.weight_pos term hterm).ne'
  · intro l hl
    rw [← LawfulLiterals.lits_toPb] at hl
    exact (mem_inUse.mp (hdrawn.var_mem l hl)).2

end Formula

namespace Draft

theorem sound_of_reachable {d : Draft} (h : d.Reachable) : d.Sound := by
  induction h with
  | cnf => exact Formula.sound_empty
  | opb => exact Formula.sound_empty
  | ofDimacs h => exact Formula.sound_ofDimacs h
  | call _ hc h ih => exact (sound_call ih hc h).1

theorem inUse_of_sound {d : Draft} (h : d.Sound) : d.InUse := by
  cases d with
  | cnf f =>
    intro c hc l hl
    apply Formula.mem_inUse.mp
    apply (h.drawn c hc).var_mem
    rw [LawfulLiterals.lits_toPb]
    exact hl
  | opb f =>
    intro c hc term hterm
    refine ⟨Formula.mem_inUse.mp ?_, (h.drawn c hc).weight_pos term hterm⟩
    exact (h.drawn c hc).var_mem term.1 (List.mem_map_of_mem hterm)

theorem isWellFormed_of_sound {d : Draft} (h : d.Sound) : d.isWellFormed ⟨true, true⟩ = true := by
  cases d with
  | cnf f => exact Formula.isWellFormed_of_sound h
  | opb f => exact Formula.isWellFormed_of_sound h

/-- **Formulas stay sound.** After any regular calls, refused ones included, every constraint is
over the variables in use and has positive coefficients, so the audit finds nothing. Each call keeps
the constraints and the groups that were there in front, and never lowers the number of
variables. -/
theorem reachable_sound {d : Draft} (h : d.Reachable) :
    d.InUse ∧ d.isWellFormed ⟨true, true⟩ = true ∧
      ∀ token c result d', c.Regular → d.call token c = some (result, d') → d.Extends d' := by
  have hsound := sound_of_reachable h
  refine ⟨inUse_of_sound hsound, isWellFormed_of_sound hsound, ?_⟩
  intro token c result d' hc hcall
  exact (sound_call hsound hc hcall).2

/-- Two variables of a group, and a constraint in general form that is also about a third one. -/
theorem reachable_sound_third : ∃ d₁ d₂ : Draft,
    Draft.call 0 (.run (.newGroup (.block [2] none))) (.opb .empty) = some (.ok (), d₁) ∧
    Draft.call 1 (.addConstraint [(.positive 3, -3), (.negative 1, 2)] .le 1) d₁ =
      some (.ok (), d₂) ∧
    d₁.Extends d₂ ∧ d₂.InUse ∧ d₂.vars = 3 := by
  let format : LabelFormat := ⟨[.char 'X', .char '(', .argument 0, .char ')']⟩
  let group : Handle VarGroup := ⟨0, .block ⟨⟨1, 2⟩, [2], [1], format⟩⟩
  let c : PbConstraint := ⟨[(.positive 3, 3), (.positive 1, 2)], .ge, 1⟩
  have hgroup : Draft.call 0 (.run (.newGroup (.block [2] none))) (.opb .empty) =
      some (.ok (), .opb ⟨⟨[], 2⟩, ⟨[group]⟩, []⟩) := by
    decide +kernel
  have hconstraint : Draft.call 1 (.addConstraint [(.positive 3, -3), (.negative 1, 2)] .le 1)
      (.opb ⟨⟨[], 2⟩, ⟨[group]⟩, []⟩) = some (.ok (), .opb ⟨⟨[c], 3⟩, ⟨[group]⟩, []⟩) := by
    decide +kernel
  have hregular : Call.Regular (.addConstraint [(.positive 3, -3), (.negative 1, 2)] .le 1) := by
    simp [Call.Regular, Lit.Valid, Lit.positive, Lit.negative, maxVar]
  have hspec : Call.Regular (.run (.newGroup (.block [2] none))) := trivial
  have hreachable := Reachable.call .opb hspec hgroup
  have hextends := (reachable_sound hreachable).2.2 _ _ _ _ hregular hconstraint
  have hinUse := (reachable_sound (hreachable.call hregular hconstraint)).1
  exact ⟨_, _, hgroup, hconstraint, hextends, hinUse, rfl⟩

/-- A group that starts at 0 hands out a literal over no variable, and a formula takes it. -/
theorem not_inUse_of_standalone_zero : ∃ group l,
    (Workspace.empty.standalone 0 (.block [1] none)).1 = .ok group ∧
    group.value.lits [] = .ok [l] ∧
    ¬ (Draft.run (.addClause [l]) 1 (.cnf .empty)).2.InUse := by
  let format : LabelFormat := ⟨[.char 'X', .char '(', .argument 0, .char ')']⟩
  refine ⟨⟨0, .block ⟨⟨0, 1⟩, [1], [1], format⟩⟩, .positive 0, by decide +kernel,
    by decide +kernel, fun h => ?_⟩
  have hzero : 1 ≤ (Lit.positive 0).var :=
    (h [.positive 0] List.mem_cons_self (.positive 0) List.mem_cons_self).1
  cases hzero

end Draft

end Clausal
