import Clausal.Proofs.Collector
import Clausal.Proofs.Limits
import Clausal.Proofs.Selection
import Clausal.Valuation

/-!
# Cardinality constraints are exact

The clauses of a cardinality constraint hold under a valuation exactly when the number of positions
with a true literal stands in the relation to the bound (`clauses_holds_iff`). Everything is reduced
to two facts. Each selection of `k` literals has a true one exactly when fewer than `k` literals are
false (`forall_selections_holds`), because the false literals themselves are a sublist. Each change of
`k` literals has a true one exactly when not `k` literals are true (`forall_changes_holds`), because
a changed clause is false under the valuations that make exactly the changed literals true.
-/

namespace Clausal

/-! ## Counting -/

theorem countTrue_eq_countP (ν : Valuation) (lits : List Lit) :
    countTrue ν lits = lits.countP (·.holds ν) := by
  induction lits with
  | nil => rfl
  | cons l lits ih =>
    rw [countTrue_cons, ih, List.countP_cons]
    cases l.holds ν <;> simp [Nat.add_comm]

theorem countTrue_le_length (ν : Valuation) (lits : List Lit) :
    countTrue ν lits ≤ lits.length := by
  rw [countTrue_eq_countP]
  exact List.countP_le_length

theorem length_add_countTrue_le (ν : Valuation) {c lits : List Lit} (h : c.Sublist lits) :
    c.length + countTrue ν lits ≤ lits.length + countTrue ν c := by
  have hflip : countTrue ν (c.map Lit.flip) ≤ countTrue ν (lits.map Lit.flip) := by
    simp only [countTrue_eq_countP]
    exact (h.map Lit.flip).countP_le
  have := countTrue_map_flip ν c
  have := countTrue_map_flip ν lits
  omega

/-- The false literals. -/
def falseLits (ν : Valuation) (lits : List Lit) : List Lit := lits.filter fun l => !l.holds ν

theorem length_falseLits (ν : Valuation) (lits : List Lit) :
    (falseLits ν lits).length + countTrue ν lits = lits.length := by
  rw [falseLits, countTrue_eq_countP, ← List.countP_eq_length_filter, Nat.add_comm,
    List.length_eq_countP_add_countP (·.holds ν)]
  simp

theorem Clause.not_holds_of_subset_falseLits {ν : Valuation} {c : Clause} {lits : List Lit}
    (h : c ⊆ falseLits ν lits) : ¬ c.holds ν = true := by
  simp only [Clause.holds, List.any_eq_true, not_exists, not_and]
  intro l hl
  have := (List.mem_filter.mp (h hl)).2
  simpa using this

namespace Cardinality

/-! ## Selections and changes -/

/-- Every selection of `k` literals has a true one iff fewer than `k` literals are false. -/
theorem forall_selections_holds (k : Nat) (lits : List Lit) (ν : Valuation) :
    (∀ c ∈ selections k lits, Clause.holds c ν = true) ↔ lits.length < countTrue ν lits + k := by
  have hlength := length_falseLits ν lits
  constructor
  · intro hall
    by_contra hge
    refine Clause.not_holds_of_subset_falseLits (List.take_subset k (falseLits ν lits)) (hall _ ?_)
    rw [mem_selections, List.length_take]
    exact ⟨(List.take_sublist k _).trans List.filter_sublist, by omega⟩
  · intro hlt c hc
    obtain ⟨hsub, hlen⟩ := (mem_selections k lits c).mp hc
    have := length_add_countTrue_le ν hsub
    rw [Clause.holds_iff]
    omega

theorem forall_map_cons_holds (ν : Valuation) (l : Lit) (cs : List Clause) :
    (∀ c ∈ cs.map (l :: ·), Clause.holds c ν = true) ↔
      l.holds ν = true ∨ ∀ c ∈ cs, Clause.holds c ν = true := by
  simp only [List.forall_mem_map, Clause.holds, List.any_cons, Bool.or_eq_true]
  constructor
  · intro h
    by_cases hl : l.holds ν = true
    · exact Or.inl hl
    · exact Or.inr fun c hc => (h c hc).resolve_left hl
  · rintro (hl | h) c hc
    · exact Or.inl hl
    · exact Or.inr (h c hc)

theorem forall_changeSparing_holds {k spare : Nat} {lits : List Lit} (ν : Valuation)
    (h : lits.length = k + spare) :
    (∀ c ∈ changeSparing Lit.flip k spare lits, Clause.holds c ν = true) ↔
      countTrue ν lits ≠ k := by
  induction lits generalizing k spare with
  | nil =>
    obtain rfl : k = 0 := by simp at h; omega
    simp [changeSparing, Clause.holds]
  | cons l lits ih =>
    cases k with
    | zero => simp [changeSparing, Clause.holds_iff, Nat.pos_iff_ne_zero]
    | succ k =>
      simp only [List.length_cons] at h
      have hle := countTrue_le_length ν lits
      cases spare with
      | zero =>
        -- all positions are changed, and the others cannot have more true literals than positions
        simp only [changeSparing, List.append_nil, forall_map_cons_holds, Lit.holds_flip,
          countTrue_cons]
        rw [ih (by omega)]
        cases l.holds ν with
        | true => simp; omega
        | false => simp; omega
      | succ spare =>
        simp only [changeSparing, List.forall_mem_append, forall_map_cons_holds, Lit.holds_flip,
          countTrue_cons]
        rw [ih (by omega), ih (by omega)]
        cases l.holds ν with
        | true => simp; omega
        | false => simp

theorem forall_changes_holds (k : Nat) (lits : List Lit) (ν : Valuation) :
    (∀ c ∈ changes Lit.flip k lits, Clause.holds c ν = true) ↔ countTrue ν lits ≠ k := by
  rw [changes]
  split_ifs with h
  · have := countTrue_le_length ν lits
    simp only [List.not_mem_nil, false_implies, implies_true, true_iff]
    omega
  · exact forall_changeSparing_holds ν (by omega)

/-! ## Relations -/

variable {lits : List Lit} {ν : Valuation}

theorem countInt_length (h : lits.length < litLimit) : countInt lits.length = lits.length := by
  simp only [litLimit] at h
  exact countInt_of_le (by simp only [maxInt]; omega)

theorem atLeast_holds_iff (h : lits.length < litLimit) (bound : Int) :
    (∀ c ∈ atLeast lits bound, Clause.holds c ν = true) ↔ bound ≤ countTrue ν lits := by
  have hle := countTrue_le_length ν lits
  simp only [atLeast, countInt_length h]
  split_ifs with hlow hhigh
  · simp only [List.not_mem_nil, false_implies, implies_true, true_iff]
    omega
  · simp only [List.forall_mem_singleton, Clause.holds_iff, countTrue_nil]
    omega
  · rw [forall_selections_holds]
    omega

theorem atMost_holds_iff (h : lits.length < litLimit) (bound : Int) :
    (∀ c ∈ atMost lits bound, Clause.holds c ν = true) ↔ (countTrue ν lits : Int) ≤ bound := by
  have hflip := countTrue_map_flip ν lits
  have hle := countTrue_le_length ν (lits.map Lit.flip)
  rw [atMost, atLeast_holds_iff (by simpa using h), countInt_length h]
  simp only [List.length_map, litLimit] at h hle
  rw [clampInt_le_iff (by simp only [minInt]; omega) (by simp only [maxInt]; omega)]
  -- at most so many literals are true when at least the others of the negations are
  omega

theorem notEqual_holds_iff (h : lits.length < litLimit) (bound : Int) :
    (∀ c ∈ notEqual lits bound, Clause.holds c ν = true) ↔ (countTrue ν lits : Int) ≠ bound := by
  have hle := countTrue_le_length ν lits
  rw [notEqual, countInt_length h]
  split_ifs with hrange
  · simp only [List.not_mem_nil, false_implies, implies_true, true_iff]
    omega
  · rw [forall_changes_holds]
    omega

theorem clauses_holds_iff (h : lits.length < litLimit) (rel : Relation) (bound : Int) :
    (∀ c ∈ clauses lits rel bound, Clause.holds c ν = true) ↔
      rel.Holds (countTrue ν lits) bound := by
  have hle := countTrue_le_length ν lits
  have hlimit : (lits.length : Int) < maxInt := by
    simp only [litLimit, maxInt] at h ⊢
    omega
  cases rel with
  | ge => exact atLeast_holds_iff h bound
  | gt =>
    rw [clauses, atLeast_holds_iff h,
      clampInt_le_iff (by simp only [minInt]; omega) (by omega)]
    exact Int.add_one_le_iff
  | le => exact atMost_holds_iff h bound
  | lt =>
    rw [clauses, atMost_holds_iff h,
      le_clampInt_iff (by simp only [minInt]; omega) (by omega)]
    exact Int.le_sub_one_iff
  | eq =>
    rw [clauses, List.forall_mem_append, atMost_holds_iff h, atLeast_holds_iff h]
    constructor
    · rintro ⟨hmost, hleast⟩
      exact Int.le_antisymm hmost hleast
    · intro heq
      exact ⟨Int.le_of_eq heq, Int.le_of_eq heq.symm⟩
  | ne => exact notEqual_holds_iff h bound

/-- No more than one literal is true, however long the list is. -/
theorem atMost_one_holds_iff (lits : List Lit) (ν : Valuation) :
    (∀ c ∈ atMost lits 1, Clause.holds c ν = true) ↔ countTrue ν lits ≤ 1 := by
  have hflip := countTrue_map_flip ν lits
  have hle := countTrue_le_length ν lits
  have hclamp : clampInt (countInt lits.length - 1) = countInt lits.length - 1 := by
    simp only [clampInt, countInt, minInt, maxInt]
    omega
  rw [atMost, hclamp, atLeast, List.length_map]
  split_ifs with hlow hhigh
  · simp only [countInt, maxInt, List.not_mem_nil, false_implies, implies_true, true_iff] at *
    omega
  · omega
  · rw [forall_selections_holds, List.length_map]
    omega

/-! ## Collectors -/

/-- **Cardinality constraints are exact.** The clauses hold under a valuation exactly when the number
of positions with a true literal stands in the relation to the bound, and a collector that takes them
keeps what it holds in front of them. -/
theorem addClauses_exact (lits : List Lit) (h : lits.length < litLimit) (rel : Relation)
    (bound : Int) :
    (∀ ν : Valuation, (∀ c ∈ clauses lits rel bound, Clause.holds c ν = true) ↔
      rel.Holds (countTrue ν lits) bound) ∧
    (∀ before : List Clause, Collector.addClauses before (clauses lits rel bound) =
      before ++ clauses lits rel bound) ∧
    (∀ before : Cnf, (Collector.addClauses before (clauses lits rel bound)).constraints =
      before.constraints ++ clauses lits rel bound) ∧
    (∀ before : Opb, (Collector.addClauses before (clauses lits rel bound)).constraints =
      before.constraints ++ (clauses lits rel bound).map PbConstraint.ofClause) ∧
    ∀ (K : Type) [Constraint K] (before : Formula K),
      (Collector.addClauses before (clauses lits rel bound)).constraints =
        before.constraints ++ (clauses lits rel bound).map Constraint.ofClause :=
  ⟨fun _ => clauses_holds_iff h rel bound, Collector.addClauses_list _,
    Collector.constraints_addClauses_cnf _, Collector.constraints_addClauses_opb _,
    fun _ _ => Collector.constraints_addClauses_formula _⟩

/-- One of `x`, `¬x`, `x` alone is true exactly when `x` is false. -/
theorem addClauses_exact_opposite :
    [Lit.positive 1, .negative 1, .positive 1].length < litLimit ∧ ∀ ν : Valuation,
      (∀ c ∈ clauses [.positive 1, .negative 1, .positive 1] .eq 1, Clause.holds c ν = true) ↔
        ν 1 = false := by
  refine ⟨by decide, fun ν => ((addClauses_exact _ (by decide) .eq 1).1 ν).trans ?_⟩
  cases h : ν 1 <;>
    simp [Relation.Holds, countTrue, Lit.holds, Lit.positive, Lit.negative, h]

end Cardinality

end Clausal
