import Clausal.Proofs.Formula.Built

/-!
# Labels line up with identifiers

The labels of a formula are put together in one pass over its groups. The groups ascend and each
lists as many labels as it has identifiers, so a label stands at the place of its identifier
(`Registry.forall₂_labelsFrom`), whatever lies between the groups and whichever of them are empty.
-/

namespace Clausal

/-- A single variable without a name. -/
def VarGroup.Unnamed (g : VarGroup) : Prop := ∃ id, g = .singleton ⟨id, none⟩

/-- The label that a variable should have: that of its index in the group that it belongs to, or
else the default format filled in with its identifier. -/
structure IsLabel (groups : List (Handle VarGroup)) (format : LabelFormat) (id : Nat)
    (text : String) : Prop where
  grouped : ∀ group ∈ groups, group.value.contains (.positive id) = true →
    ¬ group.value.Unnamed →
      (group.value.toIndex (.positive id) >>= group.value.label) = .ok text
  other : (∀ group ∈ groups, group.value.contains (.positive id) = true → group.value.Unnamed) →
    text = format.render [toString id]

theorem VarGroup.isAnonymous_iff {g : VarGroup} : g.isAnonymous = true ↔ g.Unnamed := by
  constructor
  · intro h
    cases g with
    | singleton g =>
      obtain ⟨id, name⟩ := g
      cases name with
      | none => exact ⟨id, rfl⟩
      | some name => cases h
    | block | words | bipartite | graph | digraph | unary | binary => cases h
  · rintro ⟨id, rfl⟩
    rfl

theorem VarGroup.contains_positive_iff {g : VarGroup} {id : Nat} :
    g.contains (.positive id) = true ↔ g.ids.first ≤ id ∧ id < g.ids.stop :=
  IdRange.contains_iff

/-! ## One group more -/

section Cons

variable {group : Handle VarGroup} {groups : List (Handle VarGroup)} {format : LabelFormat}
  {id : Nat} {text : String}

theorem isLabel_cons_of_not_contains (h : group.value.contains (.positive id) ≠ true)
    (htext : IsLabel groups format id text) : IsLabel (group :: groups) format id text := by
  refine ⟨fun g hg hcontains hnamed => ?_, fun hunnamed => ?_⟩
  · rcases List.mem_cons.mp hg with rfl | hg
    · exact absurd hcontains h
    · exact htext.grouped g hg hcontains hnamed
  · exact htext.other fun g hg => hunnamed g (List.mem_cons_of_mem group hg)

theorem isLabel_render (h : ∀ g ∈ groups, g.value.contains (.positive id) ≠ true) :
    IsLabel groups format id (format.render [toString id]) :=
  ⟨fun g hg hcontains _ => absurd hcontains (h g hg), fun _ => rfl⟩

section Contains

variable (hcontains : group.value.contains (.positive id) = true)
  (hothers : ∀ g ∈ groups, g.value.contains (.positive id) ≠ true)

include hcontains hothers

theorem isLabel_cons_of_unnamed (h : group.value.Unnamed) :
    IsLabel (group :: groups) format id (format.render [toString id]) := by
  refine ⟨fun g hg hcontains hnamed => ?_, fun _ => rfl⟩
  rcases List.mem_cons.mp hg with rfl | hg
  · exact absurd h hnamed
  · exact absurd hcontains (hothers g hg)

theorem isLabel_cons_of_named (h : ¬ group.value.Unnamed)
    (htext : (group.value.toIndex (.positive id) >>= group.value.label) = .ok text) :
    IsLabel (group :: groups) format id text := by
  refine ⟨fun g hg hcontains _ => ?_, fun hunnamed => ?_⟩
  · rcases List.mem_cons.mp hg with rfl | hg
    · exact htext
    · exact absurd hcontains (hothers g hg)
  · exact absurd (hunnamed group List.mem_cons_self hcontains) h

end Contains

end Cons

/-! ## The labels of one group -/

theorem forall₂_map_self {α β : Type} {R : α → β → Prop} {f : α → β} {xs : List α}
    (h : ∀ x ∈ xs, R x (f x)) : List.Forall₂ R xs (xs.map f) := by
  rw [List.forall₂_map_right_iff, List.forall₂_same]
  exact h

namespace Registry

theorem forall₂_defaultLabels {groups : List (Handle VarGroup)} (format : LabelFormat)
    {first size : Nat} (h : ∀ id ∈ List.range' first size, ∀ g ∈ groups,
      g.value.contains (.positive id) ≠ true) :
    List.Forall₂ (IsLabel groups format) (List.range' first size)
      (defaultLabels format first size) :=
  forall₂_map_self fun id hid => isLabel_render (h id hid)

/-- A group that enumerates a table labels its variables in the order of their identifiers. -/
theorem forall₂_groupLabels {group : Handle VarGroup} {groups : List (Handle VarGroup)}
    (format : LabelFormat) {table : List Index} (htable : group.value.Enumerates table)
    (hothers : ∀ id ∈ group.value.ids.toList, ∀ g ∈ groups,
      g.value.contains (.positive id) ≠ true) :
    List.Forall₂ (IsLabel (group :: groups) format) group.value.ids.toList
      (groupLabels format group.value) := by
  have hcontains : ∀ id ∈ group.value.ids.toList, group.value.contains (.positive id) = true :=
    fun id hid => VarGroup.contains_positive_iff.mpr (List.mem_range'_1.mp hid)
  rw [groupLabels]
  by_cases hanonymous : group.value.isAnonymous = true
  · rw [if_pos hanonymous]
    refine forall₂_map_self fun id hid => ?_
    exact isLabel_cons_of_unnamed (hcontains id hid) (hothers id hid)
      (VarGroup.isAnonymous_iff.mp hanonymous)
  · have hnamed := mt VarGroup.isAnonymous_iff.mpr hanonymous
    rw [if_neg hanonymous, VarGroup.labels, htable.indices_nil, Except.map_ok]
    dsimp only
    -- both lists are read off the rows of the table with their numbers
    have hids := htable.ids_toList
    have htexts : table.map group.value.renderLabel =
        (table.zipIdx group.value.ids.first).map fun e => group.value.renderLabel e.1 := by
      rw [← Function.comp_def, ← List.map_map, List.zipIdx_map_fst]
    rw [htexts]
    rw [hids] at hcontains hothers ⊢
    rw [List.forall₂_map_left_iff]
    refine forall₂_map_self fun e he => ?_
    have hid : e.2 ∈ (table.zipIdx group.value.ids.first).map (·.2) := List.mem_map_of_mem he
    refine isLabel_cons_of_named (hcontains e.2 hid) (hothers e.2 hid) hnamed ?_
    rw [htable.toIndex_eq e he (.positive e.2) rfl, Except.ok_bind]
    exact htable.label_eq (List.fst_mem_of_mem_zipIdx he)

/-! ## The labels of all groups -/

theorem range'_eq_append {next vars : Nat} {r : IdRange} (hfirst : next ≤ r.first)
    (hstop : r.stop ≤ vars + 1) : List.range' next (vars + 1 - next) =
      List.range' next (r.first - next) ++ r.toList ++ List.range' r.stop (vars + 1 - r.stop) := by
  have hdef : r.stop = r.first + r.size := rfl
  have hgap := List.range'_append_1 (s := next) (m := r.first - next) (n := r.size)
  have hrest := List.range'_append_1 (s := next) (m := r.first - next + r.size)
    (n := vars + 1 - r.stop)
  rw [Nat.add_sub_cancel' hfirst] at hgap
  rw [show next + (r.first - next + r.size) = r.stop by omega] at hrest
  rw [IdRange.toList, hgap, hrest]
  congr 1
  omega

/-- What `Ledger.occupied` lists, here of some groups only. -/
abbrev occupied (groups : List (Handle VarGroup)) : List IdRange :=
  (groups.map (·.value.ids)).filter (·.size ≠ 0)

theorem not_contains_of_lt_stop {groups : List (Handle VarGroup)} {r : IdRange}
    (h : ∀ r' ∈ occupied groups, r.last < r'.first) {id : Nat} (hid : id < r.stop) :
    ∀ g ∈ groups, g.value.contains (.positive id) ≠ true := by
  intro g hg hcontains
  rw [VarGroup.contains_positive_iff, IdRange.stop] at hcontains
  have hoccupied : g.value.ids ∈ occupied groups := by
    refine List.mem_filter.mpr ⟨List.mem_map_of_mem hg, ?_⟩
    rw [decide_eq_true_eq]
    omega
  have hafter := h _ hoccupied
  rw [IdRange.last] at hafter
  omega

/-- Groups that ascend between `next` and `vars` label the variables from `next` on, one after the
other. -/
theorem forall₂_labelsFrom (format : LabelFormat) (vars : Nat) {groups : List (Handle VarGroup)}
    (hmade : ∀ group ∈ groups, ∃ table, group.value.Enumerates table) {next : Nat}
    (hascending : (occupied groups).Pairwise fun a b => a.last < b.first)
    (hbounds : ∀ r ∈ occupied groups, next ≤ r.first ∧ r.last ≤ vars) :
    List.Forall₂ (IsLabel groups format) (List.range' next (vars + 1 - next))
      (labelsFrom format vars next groups) := by
  induction groups generalizing next with
  | nil => exact forall₂_defaultLabels format fun _ _ => nofun
  | cons group groups ih =>
    rw [List.forall_mem_cons] at hmade
    rw [occupied, List.map_cons] at hascending hbounds
    rw [labelsFrom]
    by_cases hsize : group.value.ids.size = 0
    · rw [List.filter_cons_of_neg (by simpa using hsize)] at hascending hbounds
      rw [if_pos hsize]
      refine (ih hmade.2 hascending hbounds).imp fun id text htext => ?_
      apply isLabel_cons_of_not_contains _ htext
      rw [ne_eq, VarGroup.contains_positive_iff, IdRange.stop, hsize]
      omega
    · rw [List.filter_cons_of_pos (by simpa using hsize), List.pairwise_cons] at hascending
      rw [List.filter_cons_of_pos (by simpa using hsize), List.forall_mem_cons] at hbounds
      obtain ⟨⟨hfirst, hlast⟩, hrest⟩ := hbounds
      have hlater := fun {id} => @not_contains_of_lt_stop groups _ hascending.1 id
      have hstop : group.value.ids.stop = group.value.ids.first + group.value.ids.size := rfl
      have hlast' : group.value.ids.last = group.value.ids.stop - 1 := rfl
      rw [if_neg hsize, range'_eq_append hfirst (by omega)]
      refine List.rel_append (List.rel_append ?_ ?_) ?_
      · apply forall₂_defaultLabels
        intro id hid
        rw [List.mem_range'_1] at hid
        rw [List.forall_mem_cons]
        refine ⟨?_, hlater (by omega)⟩
        rw [ne_eq, VarGroup.contains_positive_iff]
        omega
      · obtain ⟨table, htable⟩ := hmade.1
        apply forall₂_groupLabels format htable
        intro id hid
        exact hlater (List.mem_range'_1.mp hid).2
      · have hbounds : ∀ r ∈ occupied groups, group.value.ids.stop ≤ r.first ∧ r.last ≤ vars := by
          intro r hr
          have hafter := hascending.1 r hr
          exact ⟨by omega, (hrest r hr).2⟩
        have hfrom : ∀ id ∈ List.range' group.value.ids.stop (vars + 1 - group.value.ids.stop),
            group.value.ids.stop ≤ id := fun id hid => (List.mem_range'_1.mp hid).1
        have hlabels := ih hmade.2 hascending.2 hbounds
        refine ((List.forall₂_and_left _ _).mpr ⟨hfrom, hlabels⟩).imp fun id text htext => ?_
        apply isLabel_cons_of_not_contains _ htext.2
        rw [ne_eq, VarGroup.contains_positive_iff]
        omega

end Registry

theorem Ledger.forall₂_labels {s : Ledger} (h : s.Apart)
    (hmade : ∀ group ∈ s.registry.groups, group.value.Made) (format : LabelFormat) :
    List.Forall₂ (IsLabel s.registry.groups format) (List.range' 1 s.vars)
      (s.registry.labels s.vars format) := by
  have htables : ∀ group ∈ s.registry.groups, ∃ table, group.value.Enumerates table := by
    intro group hgroup
    obtain ⟨spec, start, hspec, hcreate⟩ := hmade group hgroup
    exact GroupSpec.create_enumerates hspec hcreate
  exact Registry.forall₂_labelsFrom format s.vars htables h.ascending
    fun r hr => ⟨h.first_pos r hr, h.last_le r hr⟩

namespace Draft

/-- **Labels line up with identifiers.** Whatever calls built a formula, each format that can be
read labels all of its variables. The label at the place of an identifier is that of its index in
the group that it belongs to, unless this group is a single variable without a name; then, and where
there is no group, it is the format filled in with the identifier. -/
theorem labels_line_up {d : Draft} (h : d.Built Call.Made) {format : String} {filled : LabelFormat}
    (hformat : LabelFormat.parse format 1 = .ok filled) :
    ∃ labels, d.labelsWith format = .ok labels ∧ labels.length = d.vars ∧
      ∀ id, 1 ≤ id → id ≤ d.vars →
        ∃ text, labels[id - 1]? = some text ∧ IsLabel d.groups filled id text := by
  have hmade := h.made fun _ hc => hc
  have hlabels : ∃ labels, d.labelsWith format = .ok labels ∧
      List.Forall₂ (IsLabel d.groups filled) (List.range' 1 d.vars) labels := by
    cases d with
    | cnf f =>
      refine ⟨f.labels filled, ?_, Ledger.forall₂_labels h.apart hmade filled⟩
      rw [labelsWith, Formula.labelsWith, hformat, Except.map_ok]
    | opb f =>
      refine ⟨f.labels filled, ?_, Ledger.forall₂_labels h.apart hmade filled⟩
      rw [labelsWith, Formula.labelsWith, hformat, Except.map_ok]
  obtain ⟨labels, hlabels, hforall⟩ := hlabels
  have hlength := hforall.length_eq
  rw [List.length_range'] at hlength
  refine ⟨labels, hlabels, hlength.symm, fun id hpos hle => ?_⟩
  have hplace : id - 1 < labels.length := by omega
  refine ⟨labels[id - 1], List.getElem?_eq_getElem hplace, ?_⟩
  have hlabel := hforall.get (by simpa using by omega) hplace
  rw [List.get_eq_getElem, List.getElem_range', Nat.one_mul] at hlabel
  rwa [Nat.add_sub_cancel' hpos] at hlabel

/-- Gaps, single variables with a name and without one, an empty group and a block. -/
theorem labels_line_up_gaps : ∃ d : Draft, d.Built Call.Made ∧
    d.labelsWith "x\x7b\x7d" = .ok ["x1", "X", "x3", "x4", "y1", "y2", "x7", "x8"] ∧
    IsLabel d.groups .plain 5 "y1" := by
  let ops : List Operation := [.raiseVars 1, .newVariable (some "X"), .raiseVars 3,
    .newVariable none, .newGroup (.binaryMapping 3 1 none),
    .newGroup (.block [2] (some "y\x7b\x7d")), .raiseVars 8]
  let d : Draft := .runAll ops 0 (.cnf .empty)
  have hbuilt : d.Built Call.Made := by
    apply Built.cnf.runAll
    simp [ops, Call.Made, Operation.Made, Operation.spec?, GroupSpec.Reachable]
  have hlabels : d.labelsWith "x\x7b\x7d" =
      .ok ["x1", "X", "x3", "x4", "y1", "y2", "x7", "x8"] := by
    decide +kernel
  have hformat : LabelFormat.parse "x\x7b\x7d" 1 = .ok .plain := by decide +kernel
  obtain ⟨labels, heq, -, hall⟩ := labels_line_up hbuilt hformat
  cases hlabels.symm.trans heq
  obtain ⟨text, htext, hlabel⟩ := hall 5 (by decide) (by decide +kernel)
  cases htext
  exact ⟨d, hbuilt, hlabels, hlabel⟩

end Draft

end Clausal
