import Clausal.Proofs.Formula.Call
import Mathlib.Logic.Relation

/-!
# Who owns a group

In a workspace formulas are begun and copied, built further, and groups are created on their own
(`Workspace.Step`). Every group that is registered was made by a description, and its token was
handed out before (`Workspace.Tidy`). Since tokens are not handed out twice, a group that exists
comes into the registry of a formula only by copying a formula that has it (`Reaches.mem_groups`). So
no formula ever owns a group that was created on its own, or by another formula besides it.
-/

namespace Clausal

/-! ## Formulas -/

namespace Draft

/-- Whatever is registered was made by a description. -/
def Grounded (d : Draft) : Prop := ∀ group ∈ d.groups, group.value.Made

theorem groups_run (op : Operation) (token : Nat) (d : Draft) :
    (d.run op token).2.groups = d.groups ∨ ∃ spec start group,
      op.spec? = some spec ∧ spec.create start = .ok group ∧
        (d.run op token).2.groups = d.groups ++ [⟨token, group⟩] := by
  cases d with
  | cnf f =>
    refine (op.registry_run token f).imp (congrArg Registry.groups) ?_
    rintro ⟨spec, group, hspec, hcreate, hregistry⟩
    exact ⟨spec, _, group, hspec, hcreate, congrArg Registry.groups hregistry⟩
  | opb f =>
    refine (op.registry_run token f).imp (congrArg Registry.groups) ?_
    rintro ⟨spec, group, hspec, hcreate, hregistry⟩
    exact ⟨spec, _, group, hspec, hcreate, congrArg Registry.groups hregistry⟩

theorem mem_groups_of_run {op : Operation} {token : Nat} {d : Draft} {group : Handle VarGroup}
    (h : (d.run op token).1 = .ok (.group group)) :
    group.token = token ∧ group ∈ (d.run op token).2.groups := by
  cases d with
  | cnf f => exact op.mem_registry_of_run h
  | opb f => exact op.mem_registry_of_run h

end Draft

namespace Workspace

/-! ## Steps -/

/-- What can be done in a workspace. A formula that is begun has no groups: it is new, comes from a
file, or is another formula reshuffled. -/
inductive Step (w : Workspace) : Workspace → Prop where
  | run {i : Nat} {op : Operation} {result : Except Error Reply} {w' : Workspace} (hop : op.Made)
      (h : w.run i op = some (result, w')) : Step w w'
  | addConstraint {i : Nat} {f : OpbFormula} (h : w.drafts[i]? = some (.opb f))
      (terms : List (Lit × Int)) (rel : Relation) (bound : Int) :
      Step w (w.setDraft i (.opb (f.addConstraint terms rel bound).2))
  | standalone {spec : GroupSpec} (hspec : spec.Reachable) (start : Nat) :
      Step w (w.standalone start spec).2
  | start {d : Draft} (h : d.groups = []) : Step w (w.addDraft d)
  | copy {i : Nat} {d : Draft} (h : w.drafts[i]? = some d) : Step w (w.addDraft d)

abbrev Reaches : Workspace → Workspace → Prop := Relation.ReflTransGen Step

def Reachable (w : Workspace) : Prop := empty.Reaches w

variable {w w' w'' : Workspace}

theorem run_eq_some {i : Nat} {op : Operation} {result : Except Error Reply}
    (h : w.run i op = some (result, w')) : ∃ d, w.drafts[i]? = some d ∧
      result = (d.run op w.nextToken).1 ∧
      w'.drafts = w.drafts.set i (d.run op w.nextToken).2 ∧ w'.nextToken = w.nextToken + 1 := by
  rw [run, Option.map_eq_some_iff] at h
  obtain ⟨d, hd, h⟩ := h
  refine ⟨d, hd, ?_⟩
  dsimp only at h
  split at h
  · rename_i group hgroup
    cases h
    exact ⟨rfl, rfl, rfl⟩
  · cases h
    exact ⟨rfl, rfl, rfl⟩

theorem standalone_cases (w : Workspace) (start : Nat) (spec : GroupSpec) :
    (w.standalone start spec).2 = w ∨
      ((w.standalone start spec).2.drafts = w.drafts ∧
        (w.standalone start spec).2.nextToken = w.nextToken + 1) := by
  unfold standalone
  split
  · exact Or.inl rfl
  · exact Or.inr ⟨rfl, rfl⟩

theorem standalone_eq_ok {start : Nat} {spec : GroupSpec} {group : Handle VarGroup}
    (h : w.standalone start spec = (.ok group, w')) :
    group.token = w.nextToken ∧ w'.drafts = w.drafts ∧ w'.nextToken = w.nextToken + 1 := by
  unfold standalone at h
  split at h
  · cases h
  · cases h
    exact ⟨rfl, rfl, rfl⟩

/-- A formula after a step was there before and may have got a group with a new token, or it is a
new one. -/
theorem Step.cases_draft (h : w.Step w') {j : Nat} {d' : Draft} (hd' : w'.drafts[j]? = some d') :
    (∃ i d, w.drafts[i]? = some d ∧ (j < w.drafts.length → i = j) ∧ d'.groups = d.groups) ∨
    (∃ d group, w.drafts[j]? = some d ∧ group.Made ∧ w.nextToken < w'.nextToken ∧
      d'.groups = d.groups ++ [⟨w.nextToken, group⟩]) ∨
    (w.drafts.length ≤ j ∧ d'.groups = []) := by
  have hsame : w'.drafts = w.drafts →
      ∃ i d, w.drafts[i]? = some d ∧ (j < w.drafts.length → i = j) ∧ d'.groups = d.groups := by
    intro heq
    rw [heq] at hd'
    exact ⟨j, d', hd', fun _ => rfl, rfl⟩
  -- where a formula is put in place of another one, the others stay as they are
  have hset : ∀ {i : Nat} {d : Draft}, (w.drafts.set i d)[j]? = some d' →
      (i = j ∧ d' = d) ∨ w.drafts[j]? = some d' := by
    intro i d hget
    rw [List.getElem?_set] at hget
    split_ifs at hget with hij hi
    · cases hget
      exact Or.inl ⟨hij, rfl⟩
    · exact Or.inr hget
  have hnew : ∀ {d : Draft}, (w.drafts ++ [d])[j]? = some d' →
      w.drafts[j]? = some d' ∨ (w.drafts.length ≤ j ∧ d' = d) := by
    intro d hget
    rw [List.getElem?_append] at hget
    split_ifs at hget with hj
    · exact Or.inl hget
    · refine Or.inr ⟨Nat.le_of_not_lt hj, ?_⟩
      exact (List.mem_singleton.mp (List.mem_of_getElem? hget))
  cases h with
  | @run i op result _ hop h =>
    obtain ⟨d, hd, -, hdrafts, htoken⟩ := run_eq_some h
    rw [hdrafts] at hd'
    rcases hset hd' with ⟨rfl, rfl⟩ | hd'
    · rcases d.groups_run op w.nextToken with
        hgroups | ⟨spec, start, group, hspec, hcreate, hgroups⟩
      · exact Or.inl ⟨i, d, hd, fun _ => rfl, hgroups⟩
      · refine Or.inr (Or.inl ⟨d, group, hd, ⟨spec, start, hop spec hspec, hcreate⟩, ?_, hgroups⟩)
        omega
    · exact Or.inl ⟨j, d', hd', fun _ => rfl, rfl⟩
  | @addConstraint i f h terms rel bound =>
    rcases hset hd' with ⟨rfl, rfl⟩ | hd'
    · have hgroups := congrArg Registry.groups (f.registry_addConstraint terms rel bound)
      exact Or.inl ⟨i, _, h, fun _ => rfl, hgroups⟩
    · exact Or.inl ⟨j, d', hd', fun _ => rfl, rfl⟩
  | standalone hspec start =>
    rcases w.standalone_cases start _ with heq | ⟨hdrafts, -⟩
    · exact Or.inl (hsame (congrArg drafts heq))
    · exact Or.inl (hsame hdrafts)
  | start h =>
    rcases hnew hd' with hd' | ⟨hj, rfl⟩
    · exact Or.inl ⟨j, d', hd', fun _ => rfl, rfl⟩
    · exact Or.inr (Or.inr ⟨hj, h⟩)
  | @copy i d h =>
    rcases hnew hd' with hd' | ⟨hj, rfl⟩
    · exact Or.inl ⟨j, d', hd', fun _ => rfl, rfl⟩
    · exact Or.inl ⟨i, d', h, fun hlt => absurd hlt (Nat.not_lt.mpr hj), rfl⟩

theorem Step.nextToken_le (h : w.Step w') : w.nextToken ≤ w'.nextToken := by
  cases h with
  | run hop h =>
    obtain ⟨d, -, -, -, htoken⟩ := run_eq_some h
    omega
  | standalone hspec start =>
    rcases w.standalone_cases start _ with heq | ⟨-, htoken⟩
    · rw [heq]
    · omega
  | addConstraint | start | copy => exact Nat.le_refl _

theorem Step.length_le (h : w.Step w') : w.drafts.length ≤ w'.drafts.length := by
  cases h with
  | run hop h =>
    obtain ⟨d, -, -, hdrafts, -⟩ := run_eq_some h
    rw [hdrafts, List.length_set]
  | addConstraint => exact (List.length_set ..).ge
  | standalone hspec start =>
    rcases w.standalone_cases start _ with heq | ⟨hdrafts, -⟩
    · rw [heq]
    · rw [hdrafts]
  | start | copy =>
    rw [addDraft, List.length_append]
    exact Nat.le_add_right _ _

/-! ## Histories -/

/-- Every registered group was made by a description and has a token that was handed out. -/
def Tidy (w : Workspace) : Prop :=
  ∀ d ∈ w.drafts, ∀ group ∈ d.groups, group.value.Made ∧ group.token < w.nextToken

theorem Step.tidy (h : w.Step w') (hw : w.Tidy) : w'.Tidy := by
  have hle := h.nextToken_le
  intro d' hd' group hgroup
  obtain ⟨j, hj⟩ := List.mem_iff_getElem?.mp hd'
  have hold : ∀ d ∈ w.drafts, group ∈ d.groups → group.value.Made ∧ group.token < w'.nextToken := by
    intro d hd hmem
    obtain ⟨hmade, htoken⟩ := hw d hd group hmem
    exact ⟨hmade, Nat.lt_of_lt_of_le htoken hle⟩
  rcases h.cases_draft hj with ⟨i, d, hd, -, heq⟩ | ⟨d, made, hd, hmade, hlt, heq⟩ | ⟨-, heq⟩
  · rw [heq] at hgroup
    exact hold d (List.mem_of_getElem? hd) hgroup
  · rw [heq] at hgroup
    rcases List.mem_append.mp hgroup with hgroup | hgroup
    · exact hold d (List.mem_of_getElem? hd) hgroup
    · cases List.mem_singleton.mp hgroup
      exact ⟨hmade, hlt⟩
  · rw [heq] at hgroup
    cases hgroup

theorem tidy_of_reachable (h : w.Reachable) : w.Tidy := by
  induction h with
  | refl =>
    intro d hd
    cases hd
  | tail _ hstep ih => exact hstep.tidy ih

/-- A group whose token was handed out before a step is in a formula after it only if it was in that
formula before, or in the one that it copies. -/
theorem Step.mem_groups (h : w.Step w') {j : Nat} {d' : Draft} (hd' : w'.drafts[j]? = some d')
    {group : Handle VarGroup} (htoken : group.token < w.nextToken) (hgroup : group ∈ d'.groups) :
    ∃ i d, w.drafts[i]? = some d ∧ (j < w.drafts.length → i = j) ∧ group ∈ d.groups := by
  rcases h.cases_draft hd' with ⟨i, d, hd, hij, heq⟩ | ⟨d, made, hd, -, -, heq⟩ | ⟨-, heq⟩
  · exact ⟨i, d, hd, hij, heq ▸ hgroup⟩
  · rw [heq] at hgroup
    rcases List.mem_append.mp hgroup with hgroup | hgroup
    · exact ⟨j, d, hd, fun _ => rfl, hgroup⟩
    · cases List.mem_singleton.mp hgroup
      exact absurd htoken (Nat.lt_irrefl _)
  · rw [heq] at hgroup
    cases hgroup

theorem Reaches.nextToken_le (h : w.Reaches w') : w.nextToken ≤ w'.nextToken := by
  induction h with
  | refl => exact Nat.le_refl _
  | tail _ hstep ih => exact Nat.le_trans ih hstep.nextToken_le

theorem Reaches.length_le (h : w.Reaches w') : w.drafts.length ≤ w'.drafts.length := by
  induction h with
  | refl => exact Nat.le_refl _
  | tail _ hstep ih => exact Nat.le_trans ih hstep.length_le

theorem Reaches.mem_groups (h : w.Reaches w') {j : Nat} {d' : Draft}
    (hd' : w'.drafts[j]? = some d') {group : Handle VarGroup} (htoken : group.token < w.nextToken)
    (hgroup : group ∈ d'.groups) :
    ∃ i d, w.drafts[i]? = some d ∧ (j < w.drafts.length → i = j) ∧ group ∈ d.groups := by
  induction h generalizing j d' with
  | refl => exact ⟨j, d', hd', fun _ => rfl, hgroup⟩
  | tail hreaches hstep ih =>
    have hbetween := Nat.lt_of_lt_of_le htoken (Reaches.nextToken_le hreaches)
    obtain ⟨k, e, he, hkj, hmem⟩ := hstep.mem_groups hd' hbetween hgroup
    obtain ⟨i, d, hd, hik, hmem⟩ := ih he hmem
    refine ⟨i, d, hd, fun hj => ?_, hmem⟩
    have heq : k = j := hkj (Nat.lt_of_lt_of_le hj (Reaches.length_le hreaches))
    rw [heq] at hik
    exact hik hj

theorem Step.groups_isPrefix (h : w.Step w') {j : Nat} {d : Draft} (hd : w.drafts[j]? = some d) :
    ∃ d', w'.drafts[j]? = some d' ∧ d.groups <+: d'.groups := by
  obtain ⟨hj, -⟩ := List.getElem?_eq_some_iff.mp hd
  have hj' : j < w'.drafts.length := Nat.lt_of_lt_of_le hj h.length_le
  refine ⟨w'.drafts[j], List.getElem?_eq_getElem hj', ?_⟩
  rcases h.cases_draft (List.getElem?_eq_getElem hj') with
    ⟨i, d₀, hd₀, hij, heq⟩ | ⟨d₀, made, hd₀, -, -, heq⟩ | ⟨hle, -⟩
  · rw [hij hj, hd] at hd₀
    cases hd₀
    exact heq.symm ▸ List.prefix_refl _
  · rw [hd] at hd₀
    cases hd₀
    rw [heq]
    exact List.prefix_append _ _
  · omega

theorem Reaches.groups_isPrefix (h : w.Reaches w') {j : Nat} {d : Draft}
    (hd : w.drafts[j]? = some d) : ∃ d', w'.drafts[j]? = some d' ∧ d.groups <+: d'.groups := by
  induction h with
  | refl => exact ⟨d, hd, List.prefix_refl _⟩
  | tail _ hstep ih =>
    obtain ⟨d₁, hd₁, hprefix⟩ := ih
    obtain ⟨d₂, hd₂, hprefix'⟩ := hstep.groups_isPrefix hd₁
    exact ⟨d₂, hd₂, hprefix.trans hprefix'⟩

/-! ## Groups of others -/

/-- No formula ever owns a group that was created on its own. -/
theorem not_mem_of_standalone (hw : w.Tidy) {start : Nat} {spec : GroupSpec}
    {group : Handle VarGroup} (h : w.standalone start spec = (.ok group, w'))
    (hreaches : w'.Reaches w'') : ∀ d ∈ w''.drafts, group ∉ d.groups := by
  intro d hd hgroup
  obtain ⟨htoken, hdrafts, hnext⟩ := standalone_eq_ok h
  obtain ⟨j, hj⟩ := List.mem_iff_getElem?.mp hd
  obtain ⟨i, d', hd', -, hmem⟩ := hreaches.mem_groups hj (by omega) hgroup
  rw [hdrafts] at hd'
  have hlt := (hw d' (List.mem_of_getElem? hd') group hmem).2
  omega

/-- Of the formulas there are, exactly the one that created a group owns it from then on. -/
theorem mem_groups_iff_of_run (hw : w.Tidy) {i j : Nat} {op : Operation} {group : Handle VarGroup}
    (h : w.run i op = some (.ok (.group group), w')) (hreaches : w'.Reaches w'')
    (hj : j < w.drafts.length) {d : Draft} (hd : w''.drafts[j]? = some d) :
    group ∈ d.groups ↔ j = i := by
  obtain ⟨e, he, hresult, hdrafts, hnext⟩ := run_eq_some h
  obtain ⟨htoken, hmem⟩ := Draft.mem_groups_of_run hresult.symm
  constructor
  · intro hgroup
    obtain ⟨k, d', hd', hkj, hmem'⟩ := hreaches.mem_groups hd (by omega) hgroup
    rw [hdrafts, List.length_set] at hkj
    rw [hkj hj, hdrafts, List.getElem?_set] at hd'
    by_contra hne
    rw [if_neg (Ne.symm hne)] at hd'
    have hlt := (hw d' (List.mem_of_getElem? hd') group hmem').2
    omega
  · rintro rfl
    have hset : w'.drafts[j]? = some (e.run op w.nextToken).2 := by
      rw [hdrafts, List.getElem?_set, if_pos rfl, if_pos hj]
    obtain ⟨d', hd', hprefix⟩ := hreaches.groups_isPrefix hset
    rw [hd] at hd'
    cases hd'
    exact hprefix.subset hmem

end Workspace

end Clausal
