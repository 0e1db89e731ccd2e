import Clausal.Proofs.Encoding.Mapping
import Clausal.Proofs.VarGroup.Tuples
import Mathlib.Data.Nat.Bitwise

/-!
# What is asked of a mapping with one variable for each bit

The variables of an element are the digits of a number, its `value`, so every valuation gives every
element exactly one number. A clause that forbids a number differs from the digits of that number
in every position, and is false where the element has it. The properties forbid numbers: those that
are no images, and those of two elements together.
-/

namespace Clausal

namespace BinaryMapping

open Request (Expresses)

/-! ## Values -/

theorem le_bitRange_bitsFor (m : Nat) : m ≤ bitRange (bitsFor m) :=
  bitsFor_le_iff.mp (Nat.le_refl _)

/-- The number with the bits of an element. -/
def value (f : BinaryMapping) (ν : Valuation) (i : Nat) : Nat :=
  Nat.ofBits fun b : Fin f.bits => (VarGroup.binary f).truth ν [i, b]

variable {f : BinaryMapping} {ν : Valuation} {i i' j j' b : Nat}

theorem value_lt (f : BinaryMapping) (ν : Valuation) (i : Nat) : f.value ν i < bitRange f.bits :=
  Nat.ofBits_lt_two_pow _

theorem testBit_value (hb : b < f.bits) :
    (f.value ν i).testBit b = (VarGroup.binary f).truth ν [i, b] :=
  Nat.testBit_ofBits_lt _ b hb

theorem evaluate_bit (hi : i ∈ f.domain) (hb : b < f.bits) :
    f.evaluate [i, b] = .ok (f.litAt i b) := by
  apply evaluate_of_mem
  rw [mem_tuples]
  exact .cons hi (.cons (mem_bitPositions.mpr hb) .nil)

theorem holds_litAt (hi : i ∈ f.domain) (hb : b < f.bits) :
    (f.litAt i b).holds ν = (f.value ν i).testBit b := by
  have hevaluate : (VarGroup.binary f).evaluate [i, b] = .ok (f.litAt i b) := evaluate_bit hi hb
  rw [testBit_value hb, VarGroup.truth_of_evaluate hevaluate]

theorem eq_of_testBit_eq {bits x y : Nat} (hx : x < bitRange bits) (hy : y < bitRange bits)
    (h : ∀ b < bits, x.testBit b = y.testBit b) : x = y := by
  apply Nat.eq_of_testBit_eq
  intro b
  by_cases hb : b < bits
  · exact h b hb
  · have hpow : 2 ^ bits ≤ 2 ^ b := Nat.pow_le_pow_right Nat.two_pos (Nat.le_of_not_lt hb)
    rw [Nat.testBit_lt_two_pow (Nat.lt_of_lt_of_le hx hpow),
      Nat.testBit_lt_two_pow (Nat.lt_of_lt_of_le hy hpow)]

theorem value_ne_iff (hj : j < bitRange f.bits) :
    f.value ν i ≠ j ↔ ∃ b < f.bits, (f.value ν i).testBit b ≠ j.testBit b := by
  constructor
  · intro hne
    by_contra hall
    push Not at hall
    exact hne (eq_of_testBit_eq (value_lt f ν i) hj hall)
  · rintro ⟨b, -, hbit⟩ rfl
    exact hbit rfl

theorem pairwise_domain : f.domain.Pairwise (· < ·) := List.pairwise_lt_range' 1

theorem pairwise_range : f.range.Pairwise (· < ·) := List.pairwise_lt_range

theorem range_lt (hm : f.m ≤ bitRange f.bits) (hj : j ∈ f.range) : j < bitRange f.bits :=
  Nat.lt_of_lt_of_le (List.mem_range.mp hj) hm

theorem mem_excess : j ∈ f.excess ↔ f.m ≤ j ∧ j < bitRange f.bits := by
  rw [excess, List.mem_range'_1]
  omega

/-! ## Forbidden values -/

/-- The clause of the digits that `j` does not have. -/
def clauseAgainst (f : BinaryMapping) (i j : Nat) : Clause :=
  f.bitPositions.map fun b => (f.litAt i b).flipIf (j.testBit b)

theorem forbid_eq_ok (hi : i ∈ f.domain) (hj : j < bitRange f.bits) :
    f.forbid i j = .ok (f.clauseAgainst i j) := by
  rw [forbid, checkDomain_of_mem hi, Except.ok_bind, if_neg (Nat.not_le.mpr hj)]
  rfl

theorem holds_clauseAgainst_iff (hi : i ∈ f.domain) (hj : j < bitRange f.bits) (ν : Valuation) :
    Clause.holds (f.clauseAgainst i j) ν = true ↔ f.value ν i ≠ j := by
  rw [clauseAgainst, Clause.holds, List.any_map, List.any_eq_true, value_ne_iff hj]
  apply exists_congr
  intro b
  rw [mem_bitPositions]
  apply and_congr_right
  intro hb
  rw [Function.comp_apply, Lit.holds_flipIf, holds_litAt hi hb, bne_iff_ne]

theorem exists_forbid (hi : i ∈ f.domain) (hj : j < bitRange f.bits) :
    ∃ c, f.forbid i j = .ok c ∧ ∀ ν, Clause.holds c ν = true ↔ f.value ν i ≠ j :=
  ⟨f.clauseAgainst i j, forbid_eq_ok hi hj, holds_clauseAgainst_iff hi hj⟩

theorem exists_exclude (hi : i ∈ f.domain) (hj : j < bitRange f.bits) (hi' : i' ∈ f.domain)
    (hj' : j' < bitRange f.bits) : ∃ request, f.exclude i j i' j' = .ok request ∧
      ∀ ν, request.Holds ν ↔ (f.value ν i = j → f.value ν i' ≠ j') := by
  obtain ⟨c, hc, hholds⟩ := exists_forbid hi hj
  obtain ⟨c', hc', hholds'⟩ := exists_forbid hi' hj'
  refine ⟨.clause (c ++ c'), ?_, fun ν => ?_⟩
  · rw [exclude, hc, hc']
    rfl
  · show Clause.holds (c ++ c') ν = true ↔ _
    have hany : Clause.holds (c ++ c') ν = (Clause.holds c ν || Clause.holds c' ν) :=
      List.any_append
    rw [hany, Bool.or_eq_true, hholds, hholds', imp_iff_not_or]

/-! ## Properties -/

/-- Nothing would be listed where the listing is left out. -/
theorem requests_complete : f.requests .complete =
    f.domain.flatMap fun i => f.excess.map fun j => (f.forbid i j).map .clause := by
  rw [requests]
  split_ifs with hfull
  · have hexcess : f.excess = [] := by
      rw [excess, Nat.sub_eq_zero_of_le hfull]
      rfl
    simp [hexcess]
  · rfl

theorem requests_injective : f.requests .injective =
    f.range.flatMap fun j => (laterPairs f.domain).map fun e => f.exclude e.1 j e.2 j := by
  rw [requests]
  split_ifs with hn
  · have hpairs : laterPairs f.domain = [] := laterPairs_eq_nil (by simpa [domain] using hn)
    simp [hpairs]
  · rfl

theorem requests_nondecreasing : f.requests .nondecreasing =
    (laterPairs f.domain).flatMap fun e =>
      (laterPairs f.range).map fun d => f.exclude e.1 d.2 e.2 d.1 := by
  rw [requests]
  split_ifs with hsmall
  · rcases hsmall with hn | hm
    · have hpairs : laterPairs f.domain = [] := laterPairs_eq_nil (by simpa [domain] using hn)
      simp [hpairs]
    · have hpairs : laterPairs f.range = [] := laterPairs_eq_nil (by simpa [range] using hm)
      simp [hpairs]
  · rfl

theorem expresses_complete :
    Expresses (f.requests .complete) fun ν => ∀ i ∈ f.domain, f.value ν i < f.m := by
  have hrequests : Expresses (f.requests .complete) fun ν =>
      ∀ i ∈ f.domain, ∀ j ∈ f.excess, f.value ν i ≠ j := by
    rw [requests_complete]
    apply Expresses.flatMap
    intro i hi
    apply Expresses.map
    intro j hj
    obtain ⟨c, hc, hholds⟩ := exists_forbid hi (mem_excess.mp hj).2
    refine ⟨.clause c, ?_, hholds⟩
    rw [hc]
    rfl
  apply hrequests.congr
  intro ν
  apply forall₂_congr
  intro i _
  have hvalue := value_lt f ν i
  constructor
  · intro hnone
    by_contra hlarge
    exact hnone (f.value ν i) (mem_excess.mpr ⟨Nat.le_of_not_lt hlarge, hvalue⟩) rfl
  · intro hlt j hj
    have hlow := (mem_excess.mp hj).1
    omega

theorem expresses_injective (hm : f.m ≤ bitRange f.bits) :
    Expresses (f.requests .injective) fun ν => ∀ j ∈ f.range, ∀ i ∈ f.domain, ∀ i' ∈ f.domain,
      f.value ν i = j → f.value ν i' = j → i = i' := by
  have hrequests : Expresses (f.requests .injective) fun ν =>
      ∀ j ∈ f.range, ∀ e ∈ laterPairs f.domain, f.value ν e.1 = j → f.value ν e.2 ≠ j := by
    rw [requests_injective]
    apply Expresses.flatMap
    intro j hj
    apply Expresses.map
    intro e he
    obtain ⟨hfirst, hsecond⟩ := mem_of_mem_laterPairs he
    exact exists_exclude hfirst (range_lt hm hj) hsecond (range_lt hm hj)
  apply hrequests.congr
  intro ν
  apply forall₂_congr
  intro j _
  rw [forall_mem_laterPairs_of_increasing pairwise_domain fun i i' =>
    f.value ν i = j → f.value ν i' ≠ j]
  constructor
  · intro hlater i hi i' hi' hij hij'
    rcases Nat.lt_trichotomy i i' with hlt | heq | hlt
    · exact absurd hij' (hlater i hi i' hi' hlt hij)
    · exact heq
    · exact absurd hij (hlater i' hi' i hi hlt hij')
  · intro hone i hi i' hi' hlt hij hij'
    have heq := hone i hi i' hi' hij hij'
    omega

theorem expresses_nondecreasing (hm : f.m ≤ bitRange f.bits) :
    Expresses (f.requests .nondecreasing) fun ν => ∀ i ∈ f.domain, ∀ i' ∈ f.domain, i < i' →
      ∀ j ∈ f.range, ∀ j' ∈ f.range, f.value ν i = j → f.value ν i' = j' → j ≤ j' := by
  -- each clause forbids a larger number of the first element with a smaller one of the second
  have hrequests : Expresses (f.requests .nondecreasing) fun ν =>
      ∀ e ∈ laterPairs f.domain, ∀ d ∈ laterPairs f.range,
        f.value ν e.1 = d.2 → f.value ν e.2 ≠ d.1 := by
    rw [requests_nondecreasing]
    apply Expresses.flatMap
    intro e he
    apply Expresses.map
    intro d hd
    obtain ⟨hfirst, hsecond⟩ := mem_of_mem_laterPairs he
    obtain ⟨hlow, hhigh⟩ := mem_of_mem_laterPairs hd
    exact exists_exclude hfirst (range_lt hm hhigh) hsecond (range_lt hm hlow)
  apply hrequests.congr
  intro ν
  rw [forall_mem_laterPairs_of_increasing pairwise_domain fun i i' =>
    ∀ d ∈ laterPairs f.range, f.value ν i = d.2 → f.value ν i' ≠ d.1]
  apply forall₂_congr
  intro i _
  apply forall₂_congr
  intro i' _
  apply imp_congr_right
  intro _
  rw [forall_mem_laterPairs_of_increasing pairwise_range fun j j' =>
    f.value ν i = j' → f.value ν i' ≠ j]
  constructor
  · intro hlater j hj j' hj' hij hij'
    by_contra hlt
    exact hlater j' hj' j hj (by omega) hij hij'
  · intro hle j hj j' hj' hlt hij hij'
    have := hle j' hj' j hj hij hij'
    omega

theorem expresses_property (hm : f.m ≤ bitRange f.bits) {property : MappingProperty}
    (hproperty : property ≠ .surjective) : Expresses (f.requests property) fun ν =>
      property.Holds f.domain f.range fun i j => f.value ν i = j := by
  cases property with
  | surjective => exact absurd rfl hproperty
  | complete =>
    apply expresses_complete.congr
    intro ν
    apply forall₂_congr
    intro i _
    constructor
    · intro hlt
      exact ⟨_, List.mem_range.mpr hlt, rfl⟩
    · rintro ⟨j, hj, rfl⟩
      exact List.mem_range.mp hj
  | functional =>
    apply Expresses.nil.congr
    intro ν
    rw [true_iff]
    intro i _ j _ j' _ hj hj'
    exact hj.symm.trans hj'
  | injective => exact expresses_injective hm
  | nondecreasing => exact expresses_nondecreasing hm

/-! ## Created mappings -/

theorem create_le_bitRange {start n m : Nat} {label : Option String}
    (h : create start n m label = .ok f) : f.m ≤ bitRange f.bits := by
  obtain ⟨-, hm, hbits, -⟩ := create_eq_ok h
  rw [hm, hbits]
  exact le_bitRange_bitsFor m

/-- **The clauses of a mapping speak about the values of its elements.** A value is written by the
variables of an element. The clause that forbids a number is false exactly for the elements with
this value, and the properties say which values are taken; they can be added to every collector. -/
theorem requests_bound_values {start n m : Nat} {label : Option String}
    (h : create start n m label = .ok f) :
    (∀ i ∈ List.range' 1 n, ∀ ν, f.value ν i < 2 ^ f.bits ∧ ∀ b < f.bits,
      ∃ l, f.evaluate [i, b] = .ok l ∧ (f.value ν i).testBit b = l.holds ν) ∧
    (∀ i ∈ List.range' 1 n, ∀ j < 2 ^ f.bits, ∃ c, f.forbid i j = .ok c ∧
      ∀ ν, Clause.holds c ν = false ↔ f.value ν i = j) ∧
    Collector.Stated (f.requests .complete) (fun ν => ∀ i ∈ List.range' 1 n, f.value ν i < m) ∧
    Collector.Stated (f.requests .injective) (fun ν => ∀ i ∈ List.range' 1 n,
      ∀ i' ∈ List.range' 1 n, i ≠ i' → f.value ν i = f.value ν i' → ¬ f.value ν i < m) ∧
    Collector.Stated (f.requests .nondecreasing) (fun ν => ∀ i ∈ List.range' 1 n,
      ∀ i' ∈ List.range' 1 n, i < i' → f.value ν i < m → f.value ν i' < m →
        f.value ν i ≤ f.value ν i') := by
  have hle := create_le_bitRange h
  obtain ⟨rfl, rfl, -, -⟩ := create_eq_ok h
  have hstateable : ∀ property request, .ok request ∈ f.requests property → request.Stateable :=
    fun property request hmem => Mapping.stateable_of_mem_requests (f := .binary f) hmem
  refine ⟨fun i hi ν => ⟨value_lt f ν i, fun b hb => ?_⟩, fun i hi j hj => ?_, ?_, ?_, ?_⟩
  · exact ⟨_, evaluate_bit hi hb, (holds_litAt hi hb).symm⟩
  · obtain ⟨c, hc, hholds⟩ := exists_forbid hi hj
    refine ⟨c, hc, fun ν => ?_⟩
    rw [← Bool.not_eq_true, hholds, not_not]
  · exact expresses_complete.stated (hstateable _)
  · refine Expresses.stated ((expresses_injective hle).congr fun ν => ?_) (hstateable _)
    constructor
    · intro hone i hi i' hi' hne heq hlt
      exact hne (hone _ (List.mem_range.mpr hlt) i hi i' hi' rfl heq.symm)
    · rintro hne j hj i hi i' hi' rfl heq
      by_contra hdistinct
      exact hne i hi i' hi' hdistinct heq.symm (List.mem_range.mp hj)
  · refine Expresses.stated ((expresses_nondecreasing hle).congr fun ν => ?_) (hstateable _)
    constructor
    · intro hmono i hi i' hi' hlt hsmall hsmall'
      exact hmono i hi i' hi' hlt _ (List.mem_range.mpr hsmall) _ (List.mem_range.mpr hsmall')
        rfl rfl
    · rintro hmono i hi i' hi' hlt j hj j' hj' rfl rfl
      exact hmono i hi i' hi' hlt (List.mem_range.mp hj) (List.mem_range.mp hj')

theorem requests_bound_values_two : ∃ f, create 4 2 3 none = .ok f ∧
    f.requests .complete =
      [.ok (.clause [.negative 4, .negative 5]), .ok (.clause [.negative 6, .negative 7])] ∧
    ∀ ν : Valuation, f.value ν 1 < 3 ∧ f.value ν 2 < 3 ↔
      (ν 4 = false ∨ ν 5 = false) ∧ (ν 6 = false ∨ ν 7 = false) := by
  obtain ⟨f, hf, hrequests⟩ : ∃ f, create 4 2 3 none = .ok f ∧ f.requests .complete =
      [.ok (.clause [.negative 4, .negative 5]), .ok (.clause [.negative 6, .negative 7])] := by
    refine ⟨⟨⟨4, 4⟩, 2, 3, 2,
      ⟨[.char 'v', .char '(', .argument 0, .char ',', .argument 1, .char ')']⟩⟩, ?_, ?_⟩
    · decide +kernel
    · decide +kernel
  refine ⟨f, hf, hrequests, fun ν => ?_⟩
  obtain ⟨-, -, hcomplete, -⟩ := requests_bound_values hf
  obtain ⟨added, hadded, hholds⟩ := hcomplete.list []
  rw [hrequests] at hadded
  cases hadded
  have hvalues : (∀ i ∈ [1, 2], f.value ν i < 3) ↔ f.value ν 1 < 3 ∧ f.value ν 2 < 3 := by simp
  refine hvalues.symm.trans ((hholds ν).symm.trans ?_)
  show (∀ c ∈ [[Lit.negative 4, Lit.negative 5], [Lit.negative 6, Lit.negative 7]],
    Clause.holds c ν = true) ↔ _
  rw [List.forall_mem_cons, List.forall_mem_singleton]
  simp [Clause.holds, Lit.holds, Lit.negative]

end BinaryMapping

end Clausal
