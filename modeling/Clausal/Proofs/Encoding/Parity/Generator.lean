import Clausal.Proofs.Encoding.Parity

/-!
# Parity clauses one after the other

A parity constraint could be encoded by trying all flips of its literals in lexicographic order and
keeping those of the right parity (`exhaustive`). The generator gives the same clauses in the same
order, without trying the others.

Two facts carry this. Of the rows that begin alike, up to the last entry, exactly one has the right
parity (`filter_rows`), so leaving out the last entry keeps the order. And the flips that follow the
flips with some number are those with the next number (`nextFlips_flips`), so the state of the
generator after any number of clauses is known (`Generator.drop_atNumber`).
-/

namespace Clausal.Parity

variable {lits : List Lit} {constant : Nat}

/-! ## All rows of flips -/

/-- All rows of flips of a width, in lexicographic order, unflipped before flipped. -/
def rows (width : Nat) : List (List Bool) := tuples (List.replicate width [false, true])

theorem rows_succ (width : Nat) :
    rows (width + 1) = (rows width).map (false :: ·) ++ (rows width).map (true :: ·) := by
  simp [rows, List.replicate_succ, tuples]

theorem mem_rows {width : Nat} {fs : List Bool} : fs ∈ rows width ↔ fs.length = width :=
  mem_flips_iff

theorem pairwise_rows (width : Nat) : (rows width).Pairwise (· < ·) := by
  refine pairwise_tuples fun c hc => ?_
  rw [List.eq_of_mem_replicate hc]
  decide

theorem nodup_rows (width : Nat) : (rows width).Nodup := (pairwise_rows width).nodup

theorem rows_eq_map_flips (width : Nat) :
    rows width = (List.range (bitRange width)).map (flips width) :=
  (map_flips_range width).symm

theorem length_rows (width : Nat) : (rows width).length = bitRange width := by
  rw [rows_eq_map_flips, List.length_map, List.length_range]

/-- Whatever a row begins with, one last entry gives it the parity that is asked for. -/
theorem filter_rows (width : Nat) (keepEven : Bool) :
    (rows (width + 1)).filter (isOdd · != keepEven) =
      (rows width).map fun fs => fs ++ [isOdd fs == keepEven] := by
  induction width generalizing keepEven with
  | zero => cases keepEven <;> rfl
  | succ width ih =>
    have hfalse : ∀ fs, isOdd (false :: fs) = isOdd fs := fun fs => by
      rw [isOdd_cons, Bool.false_xor]
    have htrue : ∀ fs, isOdd (true :: fs) = !isOdd fs := fun fs => by
      rw [isOdd_cons, Bool.true_xor]
    rw [rows_succ, List.filter_append, List.filter_map, List.filter_map, rows_succ width,
      List.map_append, List.map_map, List.map_map, ← rows_succ]
    have hkeep : ∀ fs, ((!isOdd fs) != keepEven) = (isOdd fs != !keepEven) := fun fs => by
      cases isOdd fs <;> cases keepEven <;> rfl
    have hlast : ∀ fs, (isOdd fs == !keepEven) = ((!isOdd fs) == keepEven) := fun fs => by
      cases isOdd fs <;> cases keepEven <;> rfl
    congr 1
    · simp only [Function.comp_def, hfalse, ih keepEven, List.map_map, List.cons_append]
    · simp only [Function.comp_def, htrue, hkeep, ih (!keepEven), List.map_map, hlast,
        List.cons_append]

/-! ## Clauses by trial -/

/-- The clauses found by trying all flips: those with an even number of flipped literals if the
parity is 1, and with an odd number if it is 0. -/
def exhaustive (lits : List Lit) (constant : Nat) : List Clause :=
  ((rows lits.length).filter fun fs => fs.count true % 2 ≠ constant).map fun fs =>
    List.zipWith Lit.flipIf fs lits

theorem isOdd_eq_count (fs : List Bool) : isOdd fs = decide (fs.count true % 2 = 1) := by
  have hcount : (fs.filter id).length = fs.count true := by
    rw [← List.countP_eq_length_filter, List.count]
    exact List.countP_congr fun f _ => by simp
  rw [isOdd, hcount]

theorem exhaustive_eq (h : lits ≠ []) (hconstant : constant ≤ 1) :
    exhaustive lits constant =
      (rows (lits.length - 1)).map (clauseOf lits (constant = 1)) := by
  have hfilter : ∀ fs : List Bool, decide (fs.count true % 2 ≠ constant) =
      (isOdd fs != decide (constant = 1)) := by
    intro fs
    rw [isOdd_eq_count, bne, Bool.beq_eq_decide_eq, ← decide_not, decide_eq_decide,
      decide_eq_decide]
    omega
  have hlength : lits.length = lits.length - 1 + 1 := by
    have := List.length_pos_iff.mpr h
    omega
  rw [exhaustive, List.filter_congr fun fs _ => hfilter fs, hlength, filter_rows, List.map_map]
  rfl

theorem clauses_eq_ok_exhaustive (h : lits ≠ []) (hconstant : constant ≤ 1) :
    clauses lits constant = .ok (exhaustive lits constant) := by
  rw [exhaustive_eq h hconstant]
  exact clauses_eq_ok h hconstant

theorem length_exhaustive (h : lits ≠ []) (hconstant : constant ≤ 1) :
    (exhaustive lits constant).length = bitRange (lits.length - 1) := by
  rw [exhaustive_eq h hconstant, List.length_map, length_rows]

theorem length_of_mem_exhaustive {c : Clause} (hc : c ∈ exhaustive lits constant) :
    c.length = lits.length := by
  obtain ⟨fs, hfs, rfl⟩ := List.mem_map.mp hc
  rw [List.length_zipWith, mem_rows.mp (List.mem_filter.mp hfs).1, Nat.min_self]

theorem zipWith_flipIf_inj {fs gs : List Bool} (hfs : fs.length = lits.length)
    (hgs : gs.length = lits.length)
    (h : List.zipWith Lit.flipIf fs lits = List.zipWith Lit.flipIf gs lits) : fs = gs := by
  induction lits generalizing fs gs with
  | nil => rw [List.eq_nil_of_length_eq_zero hfs, List.eq_nil_of_length_eq_zero hgs]
  | cons l lits ih =>
    obtain ⟨f, fs, rfl⟩ := List.exists_cons_of_length_eq_add_one hfs
    obtain ⟨g, gs, rfl⟩ := List.exists_cons_of_length_eq_add_one hgs
    rw [List.zipWith_cons_cons, List.zipWith_cons_cons, List.cons.injEq] at h
    have hnegated := congrArg Lit.negated h.1
    have hflip : f = g := by
      cases f <;> cases g <;> simp [Lit.flipIf] at hnegated ⊢
    rw [hflip, ih (Nat.succ.inj hfs) (Nat.succ.inj hgs) h.2]

theorem nodup_exhaustive (lits : List Lit) (constant : Nat) : (exhaustive lits constant).Nodup := by
  refine List.Nodup.map_on (fun fs hfs gs hgs => ?_) ((nodup_rows lits.length).filter _)
  exact zipWith_flipIf_inj (mem_rows.mp (List.mem_filter.mp hfs).1)
    (mem_rows.mp (List.mem_filter.mp hgs).1)

/-! ## Parts of the clauses -/

theorem exhaustive_eq_map_clauseAt (h : lits ≠ []) (hconstant : constant ≤ 1) :
    exhaustive lits constant = (List.range' 0 (count lits)).map (clauseAt lits constant) := by
  rw [exhaustive_eq h hconstant, rows_eq_map_flips, List.map_map, ← List.range_eq_range']
  rfl

theorem take_range' (start length take : Nat) :
    (List.range' start length).take take = List.range' start (min take length) :=
  List.ext_getElem (by simp) (by simp)

theorem take_drop_exhaustive (h : lits ≠ []) (hconstant : constant ≤ 1) (skip take : Nat) :
    ((exhaustive lits constant).drop skip).take take =
      (List.range' skip (min take (count lits - skip))).map (clauseAt lits constant) := by
  rw [exhaustive_eq_map_clauseAt h hconstant, ← List.map_drop, ← List.map_take, List.drop_range',
    take_range', Nat.zero_add, Nat.mul_one]

theorem slice_eq_ok (h : lits ≠ []) (hconstant : constant ≤ 1) (skip take : Nat) :
    slice lits constant skip take = .ok (((exhaustive lits constant).drop skip).take take) := by
  rw [take_drop_exhaustive h hconstant, slice, check_eq_ok h hconstant, Except.map_ok]

/-! ## The generator -/

theorem flips_zero (width : Nat) : flips width 0 = List.replicate width false := by
  rw [List.eq_replicate_iff]
  simp [flips]

theorem nextFlips_flips {width number : Nat} (h : number < bitRange width) :
    nextFlips (flips width number) =
      if number + 1 < bitRange width then some (flips width (number + 1)) else none := by
  induction width generalizing number with
  | zero =>
    obtain rfl : number = 0 := Nat.lt_one_iff.mp h
    rfl
  | succ width ih =>
    have hpos : 0 < bitRange width := Nat.two_pow_pos width
    have hrange : bitRange (width + 1) = bitRange width + bitRange width := Nat.two_pow_succ width
    by_cases hlow : number < bitRange width
    · have hmore : number + 1 < bitRange (width + 1) := by omega
      rw [flips_succ_of_lt hlow, nextFlips, ih hlow, if_pos hmore]
      by_cases hnext : number + 1 < bitRange width
      · rw [if_pos hnext, flips_succ_of_lt hnext]
      · -- all flips behind the first are made, so the first is made and the others are undone
        have heq : number + 1 = bitRange width + 0 := by omega
        rw [if_neg hnext, heq, flips_succ_add hpos, flips_zero]
        simp [flips]
    · obtain ⟨low, rfl⟩ := Nat.exists_eq_add_of_le (Nat.le_of_not_lt hlow)
      have hbelow : low < bitRange width := by omega
      rw [flips_succ_add hbelow, nextFlips, ih hbelow, Nat.add_assoc]
      by_cases hnext : low + 1 < bitRange width
      · have hmore : bitRange width + (low + 1) < bitRange (width + 1) := by omega
        rw [if_pos hnext, if_pos hmore, flips_succ_add hnext]
      · have hlast : ¬ bitRange width + (low + 1) < bitRange (width + 1) := by omega
        rw [if_neg hnext, if_neg hlast]
        rfl

namespace Generator

/-- The generator when the clauses with smaller numbers have been given. -/
def atNumber (lits : List Lit) (constant number : Nat) : Generator :=
  ⟨lits, constant = 1,
    if number < count lits then some (Parity.flips (lits.length - 1) number) else none⟩

theorem start_eq_ok (h : lits ≠ []) (hconstant : constant ≤ 1) :
    start lits constant = .ok (atNumber lits constant 0) := by
  have hpos : 0 < count lits := Nat.two_pow_pos _
  rw [start, check_eq_ok h hconstant, Except.map_ok, atNumber, if_pos hpos, flips_zero]

theorem next?_atNumber (number : Nat) : (atNumber lits constant number).next? =
    if number < count lits then
      some (clauseAt lits constant number, atNumber lits constant (number + 1))
    else none := by
  by_cases hnumber : number < count lits
  · rw [if_pos hnumber, next?, atNumber, if_pos hnumber, Option.map_some,
      nextFlips_flips hnumber]
    rfl
  · rw [if_neg hnumber, next?, atNumber, if_neg hnumber, Option.map_none]

theorem drop_atNumber (skip number : Nat) :
    (atNumber lits constant number).drop skip = atNumber lits constant (number + skip) := by
  induction skip generalizing number with
  | zero => rfl
  | succ skip ih =>
    rw [drop, next?_atNumber]
    by_cases hnumber : number < count lits
    · rw [if_pos hnumber]
      exact (ih (number + 1)).trans (congrArg _ (by omega))
    · -- a generator that is done stays as it is
      rw [if_neg hnumber, atNumber, atNumber, if_neg hnumber, if_neg (by omega)]

theorem take_atNumber (take number : Nat) :
    (atNumber lits constant number).take take =
      (List.range' number (min take (count lits - number))).map (clauseAt lits constant) := by
  induction take generalizing number with
  | zero => simp [Generator.take]
  | succ take ih =>
    rw [Generator.take, next?_atNumber]
    by_cases hnumber : number < count lits
    · have hlength : min (take + 1) (count lits - number) =
          min take (count lits - (number + 1)) + 1 := by omega
      rw [if_pos hnumber, hlength, List.range'_succ, List.map_cons, ← ih (number + 1)]
    · have hlength : min (take + 1) (count lits - number) = 0 := by omega
      rw [if_neg hnumber, hlength]
      rfl

end Generator

/-- **The generator lists what trying all flips finds.** The rows of flips are all rows of the
width, in strictly ascending order. The generator of a parity constraint stops after `2 ^ (k - 1)`
clauses, which are pairwise different, of width `k`, and those of the right parity in the order of
their flips; after any number of clauses it goes on with the same part of that list. -/
theorem generator_lists_exhaustive (lits : List Lit) (h : lits ≠ []) (constant : Nat)
    (hconstant : constant ≤ 1) :
    ((rows lits.length).Pairwise (· < ·) ∧
      ∀ fs, fs ∈ rows lits.length ↔ fs.length = lits.length) ∧
    ((exhaustive lits constant).length = 2 ^ (lits.length - 1) ∧ (exhaustive lits constant).Nodup ∧
      ∀ c ∈ exhaustive lits constant, c.length = lits.length) ∧
    clauses lits constant = .ok (exhaustive lits constant) ∧
    ∃ g, Generator.start lits constant = .ok g ∧
      (g.drop (2 ^ (lits.length - 1))).next? = none ∧
      g.take (2 ^ (lits.length - 1)) = exhaustive lits constant ∧
      ∀ skip take, (g.drop skip).take take = ((exhaustive lits constant).drop skip).take take ∧
        slice lits constant skip take = .ok (((exhaustive lits constant).drop skip).take take) := by
  have hlength := length_exhaustive h hconstant
  have hpart : ∀ skip take, ((Generator.atNumber lits constant 0).drop skip).take take =
      ((exhaustive lits constant).drop skip).take take := by
    intro skip take
    rw [Generator.drop_atNumber, Generator.take_atNumber, take_drop_exhaustive h hconstant,
      Nat.zero_add]
  refine ⟨⟨pairwise_rows _, fun _ => mem_rows⟩,
    ⟨hlength, nodup_exhaustive lits constant, fun _ => length_of_mem_exhaustive⟩,
    clauses_eq_ok_exhaustive h hconstant, _, Generator.start_eq_ok h hconstant, ?_, ?_,
    fun skip take => ⟨hpart skip take, slice_eq_ok h hconstant skip take⟩⟩
  · rw [Generator.drop_atNumber, Generator.next?_atNumber, Nat.zero_add]
    exact if_neg (Nat.lt_irrefl _)
  · have hall := hpart 0 (2 ^ (lits.length - 1))
    rw [List.drop_zero] at hall
    exact hall.trans (List.take_of_length_le hlength.le)

/-- Literals that occur twice are flipped one at a time. -/
theorem generator_lists_exhaustive_repeated :
    [Lit.positive 1, .positive 1, .negative 2] ≠ [] ∧ 0 ≤ 1 ∧
      ∃ g, Generator.start [.positive 1, .positive 1, .negative 2] 0 = .ok g ∧
        (g.drop 4).next? = none ∧
        (g.drop 1).take 2 = [[.positive 1, .negative 1, .negative 2],
          [.negative 1, .positive 1, .negative 2]] := by
  obtain ⟨-, -, -, g, hstart, hend, -, hpart⟩ :=
    generator_lists_exhaustive [.positive 1, .positive 1, .negative 2] (by decide) 0 (by decide)
  exact ⟨by decide, by decide, g, hstart, hend, (hpart 1 2).1.trans (by decide)⟩

end Clausal.Parity
