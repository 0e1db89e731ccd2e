import Clausal.Formula.Audit
import Clausal.Formula.Build
import Clausal.Proofs.Literal.Packed
import Mathlib.Data.List.Nodup

/-!
# What an audit finds

An audit sorts the literals of a constraint and compares neighbors. That is enough: in the order of
literals nothing lies between a literal and its negation, so wherever a list holds two equal or two
opposite literals, some neighbors are equal or opposite (`neighborFault_eq_none_iff`). A formula is
well-formed exactly when all of its constraints are (`Formula.isWellFormed_iff`), and what is reported
of another one occurs in its first constraint that is not (`firstFault_eq_some`).
-/

namespace Clausal

namespace Lit

theorem le_trans (a b c : Lit) (hab : a.le b = true) (hbc : b.le c = true) : a.le c = true := by
  rw [le, decide_eq_true_eq] at *
  exact Nat.le_trans hab hbc

theorem le_total (a b : Lit) : (a.le b || b.le a) = true := by
  rw [Bool.or_eq_true, le, le, decide_eq_true_eq, decide_eq_true_eq]
  exact Nat.le_total a.rank b.rank

theorem sort_perm (lits : List Lit) : (sort lits).Perm lits := List.mergeSort_perm lits le

theorem sort_pairwise (lits : List Lit) : (sort lits).Pairwise fun a b => a.rank ≤ b.rank := by
  have hsorted := List.pairwise_mergeSort le_trans le_total lits
  exact hsorted.imp fun h => of_decide_eq_true h

theorem sort_eq {lits sorted : List Lit} (hperm : lits.Perm sorted)
    (hsorted : sorted.Pairwise fun a b => a.rank ≤ b.rank) : sort lits = sorted := by
  refine ((sort_perm lits).trans hperm).eq_of_pairwise ?_ (sort_pairwise lits) hsorted
  intro a b _ _ hab hba
  exact rank_inj (Nat.le_antisymm hab hba)

theorem flip_ne (l : Lit) : l.flip ≠ l := by
  obtain ⟨v, negated⟩ := l
  cases negated <;> simp [flip]

/-- Only the negation comes between a literal and its negation. -/
theorem eq_or_eq_flip_of_rank {l m : Lit} (hlow : l.rank ≤ m.rank) (hhigh : m.rank ≤ l.flip.rank) :
    m = l ∨ m = l.flip := by
  have hflip : l.flip.rank ≤ l.rank + 1 := by
    obtain ⟨v, negated⟩ := l
    cases negated with
    | false => simp [rank, flip]
    | true =>
      simp only [rank, flip, Bool.not_true, Bool.toNat_false, Bool.toNat_true]
      omega
  rcases Nat.eq_or_lt_of_le hlow with heq | hlt
  · exact Or.inl (rank_inj heq.symm)
  · exact Or.inr (rank_inj (by omega))

end Lit

/-! ## Neighbors -/

/-- No position holds the negation of what another one holds. -/
def Consistent (lits : List Lit) : Prop := ∀ l ∈ lits, l.flip ∉ lits

section Neighbors

variable {l m : Lit} {rest : List Lit}
  (hsorted : (l :: m :: rest).Pairwise fun a b => a.rank ≤ b.rank)

include hsorted

theorem nodup_cons_cons_iff : (l :: m :: rest).Nodup ↔ l ≠ m ∧ (m :: rest).Nodup := by
  rw [List.nodup_cons]
  apply and_congr_left
  intro _
  obtain ⟨hl, hrest⟩ := List.pairwise_cons.mp hsorted
  constructor
  · intro hnot heq
    exact hnot (heq ▸ List.mem_cons_self)
  · intro hne hmem
    rcases List.mem_cons.mp hmem with heq | hmem
    · exact hne heq
    · -- an equal literal further on has the same rank, and so has what lies between
      have hle := (List.pairwise_cons.mp hrest).1 l hmem
      exact hne (Lit.rank_inj (Nat.le_antisymm (hl m List.mem_cons_self) hle))

theorem consistent_cons_cons_iff :
    Consistent (l :: m :: rest) ↔ l ≠ m.flip ∧ Consistent (m :: rest) := by
  obtain ⟨hl, hrest⟩ := List.pairwise_cons.mp hsorted
  constructor
  · intro h
    refine ⟨fun heq => ?_, fun k hk hflip => ?_⟩
    · refine h m (List.mem_cons_of_mem _ List.mem_cons_self) ?_
      rw [← heq]
      exact List.mem_cons_self
    · exact h k (List.mem_cons_of_mem _ hk) (List.mem_cons_of_mem _ hflip)
  · rintro ⟨hne, h⟩
    -- the negation of the first literal would be its neighbor, or else that of its neighbor
    have hfirst : l.flip ∉ m :: rest := by
      intro hmem
      have hrank : m.rank ≤ l.flip.rank := by
        rcases List.mem_cons.mp hmem with heq | hmem
        · exact heq ▸ Nat.le_refl _
        · exact (List.pairwise_cons.mp hrest).1 _ hmem
      rcases Lit.eq_or_eq_flip_of_rank (hl m List.mem_cons_self) hrank with heq | heq
      · rw [← heq] at hmem
        exact h m List.mem_cons_self hmem
      · exact hne (by rw [heq, Lit.flip_flip])
    intro k hk hflip
    rcases List.mem_cons.mp hk with rfl | hk
    · rcases List.mem_cons.mp hflip with heq | hflip
      · exact k.flip_ne heq
      · exact hfirst hflip
    · rcases List.mem_cons.mp hflip with heq | hflip
      · rw [← heq, Lit.flip_flip] at hfirst
        exact hfirst hk
      · exact h k hk hflip

end Neighbors

theorem neighborFault_cons_cons (opts : AuditOptions) (l m : Lit) (rest : List Lit) :
    neighborFault opts (l :: m :: rest) = none ↔
      (opts.allowRepetition = true ∨ l ≠ m) ∧ (opts.allowOpposite = true ∨ l ≠ m.flip) ∧
        neighborFault opts (m :: rest) = none := by
  have hallowed : ∀ (p : Prop) (b : Bool), ¬ (p ∧ (!b) = true) ↔ b = true ∨ ¬ p := by
    intro p b
    cases b <;> simp
  rw [neighborFault, ← hallowed, ← hallowed]
  by_cases hrepeated : l = m ∧ (!opts.allowRepetition) = true
  · rw [if_pos hrepeated]
    exact ⟨nofun, fun h => absurd hrepeated h.1⟩
  · rw [if_neg hrepeated]
    by_cases hopposite : l = m.flip ∧ (!opts.allowOpposite) = true
    · rw [if_pos hopposite]
      exact ⟨nofun, fun h => absurd hopposite h.2.1⟩
    · rw [if_neg hopposite, and_iff_right hrepeated, and_iff_right hopposite]

/-- Among sorted literals equal or opposite ones are found at neighbors. -/
theorem neighborFault_eq_none_iff {opts : AuditOptions} {lits : List Lit}
    (hsorted : lits.Pairwise fun a b => a.rank ≤ b.rank) :
    neighborFault opts lits = none ↔
      (opts.allowRepetition = true ∨ lits.Nodup) ∧
        (opts.allowOpposite = true ∨ Consistent lits) := by
  induction lits with
  | nil => simp [neighborFault, Consistent]
  | cons l rest ih =>
    cases rest with
    | nil => simp [neighborFault, Consistent, Lit.flip_ne]
    | cons m rest =>
      rw [neighborFault_cons_cons, ih (List.pairwise_cons.mp hsorted).2,
        nodup_cons_cons_iff hsorted, consistent_cons_cons_iff hsorted, or_and_left, or_and_left,
        ← and_assoc, and_and_and_comm]

/-! ## Constraints and formulas -/

section

variable {K : Type} [Constraint K]

/-- What an audit asks of a constraint of a formula with `vars` variables. -/
structure Constraint.WellFormed (opts : AuditOptions) (vars : Nat) (k : K) : Prop where
  weight_ne_zero : ∀ term ∈ (Constraint.toPb k).terms, term.2 ≠ 0
  var_le : ∀ l ∈ Constraint.lits k, l.var ≤ vars
  nodup : opts.allowRepetition = true ∨ (Constraint.lits k).Nodup
  consistent : opts.allowOpposite = true ∨ Consistent (Constraint.lits k)

theorem consistent_of_perm {lits lits' : List Lit} (h : lits.Perm lits') :
    Consistent lits ↔ Consistent lits' :=
  forall_congr' fun _ => imp_congr h.mem_iff (not_congr h.mem_iff)

theorem constraintFault_eq_none_iff {opts : AuditOptions} {vars : Nat} {k : K} :
    constraintFault opts vars k = none ↔ Constraint.WellFormed opts vars k := by
  have hperm := Lit.sort_perm (Constraint.lits k)
  have hneighbors :=
    @neighborFault_eq_none_iff opts _ (Lit.sort_pairwise (Constraint.lits k))
  rw [hperm.nodup_iff, consistent_of_perm hperm] at hneighbors
  rw [constraintFault]
  split
  · rename_i l w hterm
    constructor
    · intro h
      cases h
    · intro h
      have hzero : w = 0 := by simpa using List.find?_some hterm
      exact absurd hzero (h.weight_ne_zero _ (List.mem_of_find?_eq_some hterm))
  · rename_i hweights
    split
    · rename_i l hl
      constructor
      · intro h
        cases h
      · intro h
        have hlarge : vars < l.var := by simpa using List.find?_some hl
        exact absurd hlarge (Nat.not_lt.mpr (h.var_le l (List.mem_of_find?_eq_some hl)))
    · rename_i hvars
      rw [List.find?_eq_none] at hweights hvars
      rw [hneighbors]
      constructor
      · rintro ⟨hnodup, hconsistent⟩
        refine ⟨fun term hterm hzero => ?_, fun l hl => ?_, hnodup, hconsistent⟩
        · exact hweights term hterm (decide_eq_true hzero)
        · exact Nat.le_of_not_lt fun hlt => hvars l hl (decide_eq_true hlt)
      · intro h
        exact ⟨h.nodup, h.consistent⟩

theorem firstFault_eq_none_iff {opts : AuditOptions} {vars index : Nat} {ks : List K} :
    firstFault opts vars index ks = none ↔ ∀ k ∈ ks, Constraint.WellFormed opts vars k := by
  induction ks generalizing index with
  | nil => simp [firstFault]
  | cons k ks ih =>
    rw [firstFault, List.forall_mem_cons, ← constraintFault_eq_none_iff]
    split
    · rename_i fault hfault
      rw [hfault]
      simp
    · rename_i hfault
      rw [ih, hfault]
      simp

theorem Formula.isWellFormed_iff {f : Formula K} {opts : AuditOptions} :
    f.isWellFormed opts = true ↔
      ∀ k ∈ f.constraints, Constraint.WellFormed opts f.vars k := by
  rw [isWellFormed, Option.isNone_iff_eq_none, audit, firstFault_eq_none_iff]

/-! ## Positions -/

theorem nodup_iff_positions {lits : List Lit} : lits.Nodup ↔
    ∀ (i j : Nat) (l m : Lit), i ≠ j → lits[i]? = some l → lits[j]? = some m → l ≠ m := by
  constructor
  · rintro hnodup i j l _ hij hi hj rfl
    obtain ⟨hlt, -⟩ := List.getElem?_eq_some_iff.mp hi
    exact hij ((List.getElem?_inj hlt hnodup).mp (hi.trans hj.symm))
  · intro h
    rw [List.nodup_iff_getElem?_ne_getElem?]
    intro i j hij hj heq
    have hget := List.getElem?_eq_getElem hj
    exact h i j _ _ hij.ne (heq.trans hget) hget rfl

/-- A literal is not its own negation, so opposite literals are at different positions. -/
theorem consistent_iff_positions {lits : List Lit} : Consistent lits ↔
    ∀ (i j : Nat) (l m : Lit), i ≠ j → lits[i]? = some l → lits[j]? = some m → l ≠ m.flip := by
  constructor
  · rintro hconsistent i j _ m - hi hj rfl
    exact hconsistent m (List.mem_of_getElem? hj) (List.mem_of_getElem? hi)
  · intro h m hm hflip
    obtain ⟨i, hi⟩ := List.mem_iff_getElem?.mp hflip
    obtain ⟨j, hj⟩ := List.mem_iff_getElem?.mp hm
    refine h i j _ m ?_ hi hj rfl
    rintro rfl
    exact m.flip_ne (Option.some.inj (hi.symm.trans hj))

/-! ## Reported faults -/

/-- What a fault says about a constraint of a formula with `vars` variables. -/
def Fault.Occurs (opts : AuditOptions) (vars : Nat) (k : K) : Fault → Prop
  | zeroWeight l => (l, 0) ∈ (Constraint.toPb k).terms
  | unknownVariable l n => l ∈ Constraint.lits k ∧ n = vars ∧ vars < l.var
  | repeated l => opts.allowRepetition = false ∧ 2 ≤ (Constraint.lits k).count l
  | opposite l => opts.allowOpposite = false ∧ l ∈ Constraint.lits k ∧ l.flip ∈ Constraint.lits k

theorem neighborFault_eq_some {opts : AuditOptions} {lits : List Lit} {fault : Fault}
    (h : neighborFault opts lits = some fault) :
    (∃ l, fault = .repeated l ∧ opts.allowRepetition = false ∧ 2 ≤ lits.count l) ∨
      ∃ l, fault = .opposite l ∧ opts.allowOpposite = false ∧ l ∈ lits ∧ l.flip ∈ lits := by
  induction lits using neighborFault.induct opts with
  | case1 l m rest hrepeated =>
    rw [neighborFault, if_pos hrepeated] at h
    obtain ⟨rfl, hforbidden⟩ := hrepeated
    refine Or.inl ⟨l, (Option.some.inj h).symm, by simpa using hforbidden, ?_⟩
    rw [List.count_cons_self, List.count_cons_self]
    omega
  | case2 l m rest hrepeated hopposite =>
    rw [neighborFault, if_neg hrepeated, if_pos hopposite] at h
    obtain ⟨rfl, hforbidden⟩ := hopposite
    refine Or.inr ⟨m.flip, (Option.some.inj h).symm, by simpa using hforbidden, ?_⟩
    simp
  | case3 l m rest hrepeated hopposite ih =>
    rw [neighborFault, if_neg hrepeated, if_neg hopposite] at h
    rcases ih h with ⟨k, rfl, hforbidden, hcount⟩ | ⟨k, rfl, hforbidden, hk, hflip⟩
    · have hle := List.count_le_count_cons (a := k) (b := l) (l := m :: rest)
      exact Or.inl ⟨k, rfl, hforbidden, Nat.le_trans hcount hle⟩
    · exact Or.inr ⟨k, rfl, hforbidden, List.mem_cons_of_mem l hk, List.mem_cons_of_mem l hflip⟩
  | case4 lits hshort =>
    rw [neighborFault] at h
    · cases h
    · exact hshort

theorem constraintFault_eq_some {opts : AuditOptions} {vars : Nat} {k : K} {fault : Fault}
    (h : constraintFault opts vars k = some fault) : fault.Occurs opts vars k := by
  rw [constraintFault] at h
  split at h
  · rename_i l w hterm
    cases h
    obtain rfl : w = 0 := by simpa using List.find?_some hterm
    exact List.mem_of_find?_eq_some hterm
  · split at h
    · rename_i l hl
      cases h
      have hlarge : vars < l.var := by simpa using List.find?_some hl
      exact ⟨List.mem_of_find?_eq_some hl, rfl, hlarge⟩
    · have hperm := Lit.sort_perm (Constraint.lits k)
      rcases neighborFault_eq_some h with
        ⟨l, rfl, hforbidden, hcount⟩ | ⟨l, rfl, hforbidden, hl, hflip⟩
      · exact ⟨hforbidden, hperm.count_eq l ▸ hcount⟩
      · exact ⟨hforbidden, hperm.mem_iff.mp hl, hperm.mem_iff.mp hflip⟩

theorem firstFault_eq_some {opts : AuditOptions} {vars index i : Nat} {ks : List K} {fault : Fault}
    (h : firstFault opts vars index ks = some (i, fault)) :
    ∃ before k after, ks = before ++ k :: after ∧ i = index + before.length ∧
      (∀ k' ∈ before, Constraint.WellFormed opts vars k') ∧ fault.Occurs opts vars k := by
  induction ks generalizing index with
  | nil => cases h
  | cons k ks ih =>
    rw [firstFault] at h
    split at h
    · rename_i hfault
      cases h
      exact ⟨[], k, ks, rfl, rfl, nofun, constraintFault_eq_some hfault⟩
    · rename_i hnone
      obtain ⟨before, k', after, rfl, rfl, hbefore, hoccurs⟩ := ih h
      refine ⟨k :: before, k', after, rfl, ?_, ?_, hoccurs⟩
      · rw [List.length_cons]
        omega
      · exact List.forall_mem_cons.mpr ⟨constraintFault_eq_none_iff.mp hnone, hbefore⟩

end

/-! ## Neighbors in words -/

namespace PackedLit

/-- The first fault among neighbors of a sorted list of words. -/
def neighborFault (opts : AuditOptions) : List PackedLit → Option Fault
  | p :: q :: rest =>
    if p = q ∧ !opts.allowRepetition then some (.repeated p.unpack)
    else if p = q.flip ∧ !opts.allowOpposite then some (.opposite p.unpack)
    else neighborFault opts (q :: rest)
  | _ => none

theorem neighborFault_pack {opts : AuditOptions} {lits : List Lit}
    (h : ∀ l ∈ lits, l.var ≤ maxVar) :
    neighborFault opts (lits.map Lit.pack) = Clausal.neighborFault opts lits := by
  induction lits with
  | nil => rfl
  | cons l rest ih =>
    rw [List.forall_mem_cons] at h
    cases rest with
    | nil => rfl
    | cons m rest =>
      have hm : m.var ≤ maxVar := h.2 m List.mem_cons_self
      have hflip : m.flip.var ≤ maxVar := hm
      rw [List.map_cons] at ih
      rw [List.map_cons, List.map_cons, neighborFault, Clausal.neighborFault, ih h.2,
        unpack_pack h.1, flip_pack hm]
      simp only [pack_inj h.1 hm, pack_inj h.1 hflip]

end PackedLit

/-- **Audits are exact.** An audit, which only reads the formula, finds nothing exactly when in all
constraints the weights are not zero, the variables are in use, and no two positions hold equal or
opposite literals, unless these are let pass. What it reports occurs in the first constraint that is
not well-formed. It sees the same whether literals are compared as such or by their words. -/
theorem Formula.audit_exact {K : Type} [Constraint K] (f : Formula K) (opts : AuditOptions) :
    (f.isWellFormed opts = true ↔ ∀ k ∈ f.constraints,
      (∀ term ∈ (Constraint.toPb k).terms, term.2 ≠ 0) ∧
      (∀ l ∈ Constraint.lits k, l.var ≤ f.vars) ∧
      ∀ (i j : Nat) (l m : Lit), i ≠ j →
        (Constraint.lits k)[i]? = some l → (Constraint.lits k)[j]? = some m →
          (opts.allowRepetition = true ∨ l ≠ m) ∧ (opts.allowOpposite = true ∨ l ≠ m.flip)) ∧
    (∀ (i : Nat) (fault : Fault), f.audit opts = some (i, fault) → ∃ before k after,
      f.constraints = before ++ k :: after ∧ i = before.length ∧
        (∀ k' ∈ before, Constraint.WellFormed opts f.vars k') ∧ fault.Occurs opts f.vars k) ∧
    ∀ lits : List Lit, (∀ l ∈ lits, l.var ≤ Clausal.maxVar) →
      PackedLit.neighborFault opts (PackedLit.sort (lits.map Lit.pack)) =
        neighborFault opts (Lit.sort lits) := by
  refine ⟨?_, fun i fault h => ?_, fun lits h => ?_⟩
  · rw [isWellFormed_iff]
    refine forall₂_congr fun k _ => ?_
    constructor
    · rintro ⟨hweight, hvar, hnodup, hconsistent⟩
      rw [nodup_iff_positions] at hnodup
      rw [consistent_iff_positions] at hconsistent
      refine ⟨hweight, hvar, fun i j l m hij hi hj => ⟨?_, ?_⟩⟩
      · exact hnodup.imp_right fun h => h i j l m hij hi hj
      · exact hconsistent.imp_right fun h => h i j l m hij hi hj
    · rintro ⟨hweight, hvar, hpairs⟩
      refine ⟨hweight, hvar, ?_, ?_⟩
      · rw [nodup_iff_positions, or_iff_not_imp_left]
        intro hforbidden i j l m hij hi hj
        exact (hpairs i j l m hij hi hj).1.resolve_left hforbidden
      · rw [consistent_iff_positions, or_iff_not_imp_left]
        intro hforbidden i j l m hij hi hj
        exact (hpairs i j l m hij hi hj).2.resolve_left hforbidden
  · obtain ⟨before, k, after, hsplit, hindex, hbefore, hoccurs⟩ := firstFault_eq_some h
    rw [Nat.zero_add] at hindex
    exact ⟨before, k, after, hsplit, hindex, hbefore, hoccurs⟩
  · have hsorted : ∀ l ∈ Lit.sort lits, l.var ≤ Clausal.maxVar :=
      fun l hl => h l ((Lit.sort_perm lits).mem_iff.mp hl)
    rw [PackedLit.sort_pack h, PackedLit.neighborFault_pack hsorted]

/-- Two equal literals with their negation between them, in a clause that was added unchecked: the
repetition is found where opposite literals are let pass. -/
theorem Formula.audit_exact_between :
    let f : CnfFormula := (Formula.empty.raiseVars 2).addUncheckedClause
      [.positive 2, .negative 2, .positive 1, .positive 2]
    f.audit ⟨true, false⟩ = some (0, .repeated (.positive 2)) ∧
      (∃ before k after, f.constraints = before ++ k :: after ∧ 0 = before.length ∧
        (Fault.repeated (.positive 2)).Occurs ⟨true, false⟩ f.vars k) ∧
      (∀ l ∈ [Lit.positive 2, .negative 2], l.var ≤ Clausal.maxVar) ∧
      PackedLit.neighborFault ⟨true, false⟩
        (PackedLit.sort ([Lit.positive 2, .negative 2].map Lit.pack)) = none := by
  intro f
  let c : Clause := [.positive 2, .negative 2, .positive 1, .positive 2]
  have hsort : Lit.sort c = [.positive 1, .positive 2, .positive 2, .negative 2] :=
    Lit.sort_eq (by decide) (by decide)
  have hclause : constraintFault ⟨true, false⟩ 2 c = some (.repeated (.positive 2)) := by
    show neighborFault ⟨true, false⟩ (Lit.sort c) = _
    rw [hsort]
    decide
  have hfault : f.audit ⟨true, false⟩ = some (0, .repeated (.positive 2)) := by
    show firstFault ⟨true, false⟩ 2 0 [c] = _
    rw [firstFault, hclause]
  have hvalid : ∀ l ∈ [Lit.positive 2, .negative 2], l.var ≤ Clausal.maxVar := by decide
  obtain ⟨-, hreport, hwords⟩ := f.audit_exact ⟨true, false⟩
  obtain ⟨before, k, after, hsplit, hindex, -, hoccurs⟩ := hreport 0 _ hfault
  refine ⟨hfault, ⟨before, k, after, hsplit, hindex, hoccurs⟩, hvalid, ?_⟩
  rw [hwords _ hvalid, Lit.sort_eq (List.Perm.refl _) (by decide)]
  decide

end Clausal
