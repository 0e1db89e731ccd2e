import Clausal.Proofs.Collector
import Clausal.Proofs.Encoding.Cardinality
import Clausal.Proofs.Outcome
import Mathlib.Data.Nat.Bitwise

/-!
# Parity constraints are exact

The clauses of a parity constraint hold under a valuation exactly when the number of positions with a
true literal has the parity (`clauses_holds_iff`). A clause of flipped and unflipped literals is false
under one row of truth values only, the one that is true where literals are flipped
(`holds_zipWith_flipIf_iff`). The numbers of the clauses run through all flips of the literals but the
last (`map_flips_range`), so the clauses exclude exactly the rows in which the number of true values
has the other parity (`forall_clauseOf_holds_iff`).
-/

namespace Clausal

namespace Parity

variable {lits : List Lit} {constant : Nat}

/-! ## Flips -/

theorem flips_succ (width number : Nat) :
    flips (width + 1) number = number.testBit width :: flips width number := by
  simp [flips, List.range_succ]

theorem flips_succ_of_lt {width number : Nat} (h : number < bitRange width) :
    flips (width + 1) number = false :: flips width number := by
  rw [flips_succ, Nat.testBit_lt_two_pow h]

theorem flips_succ_add {width number : Nat} (h : number < bitRange width) :
    flips (width + 1) (bitRange width + number) = true :: flips width number := by
  have hhighest : (2 ^ width + number).testBit width = true := by
    rw [Nat.testBit_two_pow_add_eq, Nat.testBit_lt_two_pow h, Bool.not_false]
  have hbelow : flips width (2 ^ width + number) = flips width number := by
    rw [flips, flips]
    apply List.map_congr_left
    intro i hi
    rw [List.mem_reverse, List.mem_range] at hi
    exact Nat.testBit_two_pow_add_gt hi number
  show flips (width + 1) (2 ^ width + number) = _
  rw [flips_succ, hhighest, hbelow]

/-- In the order of their numbers the flips are all rows of truth values, in lexicographic order. -/
theorem map_flips_range (width : Nat) :
    (List.range (bitRange width)).map (flips width) =
      tuples (List.replicate width [false, true]) := by
  induction width with
  | zero => rfl
  | succ width ih =>
    have hrange : bitRange (width + 1) = bitRange width + bitRange width := Nat.two_pow_succ width
    rw [hrange, List.range_add, List.map_append, List.map_map, List.replicate_succ, tuples, ← ih]
    simp only [List.flatMap_cons, List.flatMap_nil, List.append_nil, List.map_map]
    congr 1
    · apply List.map_congr_left
      intro number hnumber
      exact flips_succ_of_lt (List.mem_range.mp hnumber)
    · apply List.map_congr_left
      intro number hnumber
      exact flips_succ_add (List.mem_range.mp hnumber)

theorem mem_flips_iff {width : Nat} {fs : List Bool} :
    fs ∈ tuples (List.replicate width [false, true]) ↔ fs.length = width := by
  rw [mem_tuples_replicate, and_iff_left]
  intro f _
  cases f <;> simp

/-! ## How many flips -/

theorem isOdd_cons (f : Bool) (fs : List Bool) : isOdd (f :: fs) = (f ^^ isOdd fs) := by
  cases f with
  | false => exact (Bool.false_xor _).symm
  | true =>
    have hsucc : ∀ n : Nat, decide ((n + 1) % 2 = 1) = !decide (n % 2 = 1) := by
      intro n
      rw [← decide_not, decide_eq_decide]
      omega
    exact (hsucc _).trans (Bool.true_xor _).symm

theorem isOdd_append (fs gs : List Bool) : isOdd (fs ++ gs) = (isOdd fs ^^ isOdd gs) := by
  induction fs with
  | nil => simp [isOdd]
  | cons f fs ih => rw [List.cons_append, isOdd_cons, isOdd_cons, ih, Bool.xor_assoc]

theorem isOdd_singleton (f : Bool) : isOdd [f] = f := by
  cases f <;> rfl

/-- With the last flip that a clause has the flips are odd or even as asked for, and every row that is
so arises in this way. -/
theorem exists_flips_iff {row : List Bool} (h : row ≠ []) (keepEven : Bool) :
    (∃ fs : List Bool, fs.length = row.length - 1 ∧ fs ++ [isOdd fs == keepEven] = row) ↔
      isOdd row ≠ keepEven := by
  constructor
  · rintro ⟨fs, -, rfl⟩
    rw [isOdd_append, isOdd_singleton]
    cases isOdd fs <;> cases keepEven <;> decide
  · obtain ⟨fs, last, rfl⟩ := (List.eq_nil_or_concat' row).resolve_left h
    rw [isOdd_append, isOdd_singleton]
    intro hparity
    refine ⟨fs, by simp, ?_⟩
    revert hparity
    cases isOdd fs <;> cases keepEven <;> cases last <;> simp

/-- The truth values of the literals, one for each position. -/
def truthRow (ν : Valuation) (lits : List Lit) : List Bool := lits.map (·.holds ν)

theorem isOdd_truthRow (ν : Valuation) (lits : List Lit) :
    isOdd (truthRow ν lits) = decide (countTrue ν lits % 2 = 1) := by
  rw [isOdd, truthRow, List.filter_map, List.length_map, countTrue_eq_countP,
    List.countP_eq_length_filter]
  rfl

/-! ## Clauses -/

theorem holds_zipWith_flipIf_iff {fs : List Bool} (h : fs.length = lits.length) (ν : Valuation) :
    Clause.holds (List.zipWith Lit.flipIf fs lits) ν = true ↔ fs ≠ truthRow ν lits := by
  induction lits generalizing fs with
  | nil =>
    rw [List.length_nil, List.length_eq_zero_iff] at h
    simp [h, Clause.holds, truthRow]
  | cons l lits ih =>
    obtain ⟨f, fs, rfl⟩ := List.exists_cons_of_length_eq_add_one h
    have hrest := ih (Nat.succ.inj h)
    have hrow : truthRow ν (l :: lits) = l.holds ν :: truthRow ν lits := rfl
    rw [Clause.holds] at hrest
    rw [List.zipWith_cons_cons, Clause.holds, List.any_cons, Bool.or_eq_true, hrest,
      Lit.holds_flipIf, hrow, Ne, Ne, List.cons.injEq, not_and_or]
    cases f <;> cases l.holds ν <;> simp

theorem forall_clauseOf_holds_iff (h : lits ≠ []) (keepEven : Bool) (ν : Valuation) :
    (∀ fs : List Bool, fs.length = lits.length - 1 →
      Clause.holds (clauseOf lits keepEven fs) ν = true) ↔ isOdd (truthRow ν lits) = keepEven := by
  have hrow : truthRow ν lits ≠ [] := fun hnil => h (List.map_eq_nil_iff.mp hnil)
  have hlength : (truthRow ν lits).length = lits.length := List.length_map _
  have hpos := List.length_pos_iff.mpr h
  rw [← not_iff_not, ← Ne, ← exists_flips_iff hrow keepEven, hlength]
  simp only [not_forall, exists_prop]
  refine exists_congr fun fs => and_congr_right fun hfs => ?_
  rw [clauseOf, holds_zipWith_flipIf_iff, not_not]
  rw [List.length_append, List.length_singleton]
  omega

theorem check_eq_ok (h : lits ≠ []) (hconstant : constant ≤ 1) : check lits constant = .ok () := by
  rw [check, if_neg (by simp [h]), if_neg (Nat.not_lt.mpr hconstant)]

theorem clauses_eq_ok (h : lits ≠ []) (hconstant : constant ≤ 1) :
    clauses lits constant = .ok ((tuples (List.replicate (lits.length - 1) [false, true])).map
      (clauseOf lits (constant = 1))) := by
  rw [clauses, slice, check_eq_ok h hconstant, Except.map_ok, Nat.sub_zero, Nat.min_self,
    ← List.range_eq_range', ← map_flips_range, List.map_map]
  rfl

theorem clauses_holds_iff (h : lits ≠ []) (hconstant : constant ≤ 1) :
    ∃ cs, clauses lits constant = .ok cs ∧ ∀ ν : Valuation,
      (∀ c ∈ cs, Clause.holds c ν = true) ↔ countTrue ν lits % 2 = constant := by
  refine ⟨_, clauses_eq_ok h hconstant, fun ν => ?_⟩
  simp only [List.forall_mem_map, mem_flips_iff]
  rw [forall_clauseOf_holds_iff h, isOdd_truthRow, decide_eq_decide]
  omega

/-! ## Collectors -/

theorem check_eq_error (h : lits = [] ∨ 1 < constant) :
    ∃ e, check lits constant = .error e ∧ e.kind = .invalidArgument := by
  by_cases hempty : lits = []
  · exact ⟨.emptyParity, by rw [check, hempty]; rfl, rfl⟩
  · have hconstant := h.resolve_left hempty
    refine ⟨.parityConstant constant, ?_, rfl⟩
    rw [check, if_neg (by simp [hempty]), if_pos hconstant]

/-- **Parity constraints are exact.** The clauses hold under a valuation exactly when the number of
positions with a true literal has the parity, and a collector that takes them keeps what it holds in
front of them. Without literals, or for a parity that is neither 0 nor 1, a collector stays as it
is. -/
theorem encode_exact (lits : List Lit) (constant : Nat) :
    (lits ≠ [] → constant ≤ 1 → ∃ cs : List Clause,
      (∀ ν : Valuation, (∀ c ∈ cs, Clause.holds c ν = true) ↔ countTrue ν lits % 2 = constant) ∧
      (∀ before : List Clause, encode lits constant before = (.ok (), before ++ cs)) ∧
      (∀ before : Cnf, (encode lits constant before).1 = .ok () ∧
        (encode lits constant before).2.constraints = before.constraints ++ cs) ∧
      (∀ before : Opb, (encode lits constant before).1 = .ok () ∧
        (encode lits constant before).2.constraints =
          before.constraints ++ cs.map PbConstraint.ofClause) ∧
      ∀ (K : Type) [Constraint K] (before : Formula K), (encode lits constant before).1 = .ok () ∧
        (encode lits constant before).2.constraints =
          before.constraints ++ cs.map Constraint.ofClause) ∧
    (lits = [] ∨ 1 < constant → ∃ e : Error, e.kind = .invalidArgument ∧
      ∀ (C : Type) [Collector C] (before : C), encode lits constant before = (.error e, before)) := by
  constructor
  · intro h hconstant
    obtain ⟨cs, hcs, hholds⟩ := clauses_holds_iff h hconstant
    have hencode : ∀ {C : Type} [Collector C] (before : C),
        encode lits constant before = (.ok (), Collector.addClauses before cs) := by
      intro C _ before
      rw [encode, hcs]
    refine ⟨cs, hholds, fun before => ?_, fun before => ?_, fun before => ?_, fun K _ before => ?_⟩
    · rw [hencode, Collector.addClauses_list]
    · rw [hencode]
      exact ⟨rfl, Collector.constraints_addClauses_cnf cs before⟩
    · rw [hencode]
      exact ⟨rfl, Collector.constraints_addClauses_opb cs before⟩
    · rw [hencode]
      exact ⟨rfl, Collector.constraints_addClauses_formula cs before⟩
  · intro h
    obtain ⟨e, hcheck, hkind⟩ := check_eq_error h
    refine ⟨e, hkind, fun C _ before => ?_⟩
    rw [encode, clauses, slice, hcheck, Except.map_error]

/-- Of `x`, `x` and `¬x` an odd number is true exactly when `x` is false, and no constant is 2. -/
theorem encode_exact_opposite :
    (∃ cs : List Clause,
      (∀ ν : Valuation, (∀ c ∈ cs, Clause.holds c ν = true) ↔ ν 1 = false) ∧
      encode [.positive 1, .positive 1, .negative 1] 1 [[.negative 1]] =
        (.ok (), [.negative 1] :: cs)) ∧
    ∃ e : Error, encode [.positive 1] 2 [[Lit.negative 1]] = (.error e, [[.negative 1]]) := by
  constructor
  · obtain ⟨cs, hholds, hlist, -⟩ :=
      (encode_exact [.positive 1, .positive 1, .negative 1] 1).1 (by decide) (by decide)
    refine ⟨cs, fun ν => (hholds ν).trans ?_, hlist _⟩
    cases h : ν 1 <;> simp [countTrue, Lit.holds, Lit.positive, Lit.negative, h]
  · obtain ⟨e, -, hrefused⟩ := (encode_exact [.positive 1] 2).2 (by decide)
    exact ⟨e, hrefused _ _⟩

end Parity

end Clausal
