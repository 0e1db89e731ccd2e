import Clausal.Proofs.VarGroup.Checked.Index
import Clausal.Proofs.VarGroup.Made

/-!
# Checked numbers of tuples

The weights of a block are products that were checked when they were made, and the last of them is
the number of its variables. So the terms of an offset sum up to less than that, and a weight is
zero only where there is no variable. A binary mapping checks the product of its sides, and has bits
where it has variables.
-/

namespace Clausal

/-! ## Blocks -/

namespace Block

theorem weigh?_eq_none_of_drop {ranges : List Nat} (d : Nat) (h : weigh? (ranges.drop d) = none) :
    weigh? ranges = none := by
  induction d generalizing ranges with
  | zero => exact h
  | succ d ih =>
    cases ranges with
    | nil => exact h
    | cons r ranges =>
      rw [List.drop_succ_cons] at h
      rw [weigh?, ih h, Option.bind_none]

/-- From the weights behind a position on, all weights are filled in. -/
theorem fillWeights_eq {ranges weights : List Nat} {d size : Nat} (hd : d < ranges.length)
    (h : weigh? (ranges.drop (d + 1)) = some (weights, size)) :
    fillWeights ranges d (List.replicate d 1 ++ size :: weights) =
      .of ((weigh? (ranges.drop 1)).elim (.error .blockTooLarge) fun (weights, size) =>
        .ok (size :: weights)) := by
  induction d generalizing weights size with
  | zero =>
    rw [h]
    rfl
  | succ d ih =>
    have hweight : (List.replicate (d + 1) 1 ++ size :: weights)[d + 1]? = some size := by simp
    have hrange : ranges[d + 1]? = some ranges[d + 1] := List.getElem?_eq_getElem hd
    have hdrop : weigh? (ranges.drop (d + 1)) =
        (checkedWord (size * ranges[d + 1])).map (size :: weights, ·) := by
      rw [List.drop_eq_getElem_cons hd, weigh?, h, Option.bind_some]
    rw [fillWeights, hweight, hrange, Checked.step_some, Checked.of_ok_bind, Checked.step_some,
      Checked.of_ok_bind]
    cases hproduct : checkedWord (size * ranges[d + 1]) with
    | none =>
      rw [hproduct, Option.map_none] at hdrop
      rw [Nat.add_comm, ← List.drop_drop] at hdrop
      rw [weigh?_eq_none_of_drop d hdrop]
      rfl
    | some product =>
      rw [hproduct, Option.map_some] at hdrop
      rw [← ih (by omega) hdrop]
      refine congrArg (fillWeights ranges d) ?_
      rw [List.replicate_succ', List.append_assoc, List.set_append_right _ _ (by simp)]
      simp

theorem checkedWeigh_eq {ranges : List Nat} (h : ranges ≠ []) :
    checkedWeigh ranges = .of ((weigh? ranges).elim (.error .blockTooLarge) .ok) := by
  obtain ⟨r, ranges, rfl⟩ := List.exists_cons_of_ne_nil h
  have hlast : checkedSub (r :: ranges).length 1 = some ranges.length :=
    checkedSub_of_le (Nat.succ_le_succ (Nat.zero_le _))
  have hones : List.replicate (ranges.length + 1) 1 = List.replicate ranges.length 1 ++ [1] :=
    List.replicate_succ'
  have hlater : weigh? ((r :: ranges).drop (ranges.length + 1)) = some ([], 1) := by
    simp [weigh?]
  rw [checkedWeigh, hlast, Checked.step_some, Checked.of_ok_bind, List.length_cons, hones,
    fillWeights_eq (by simp) hlater, List.drop_one, List.tail_cons, weigh?]
  cases weigh? ranges with
  | none => rfl
  | some later =>
    cases hproduct : checkedWord (later.2 * r) <;> simp [hproduct]

theorem checkedCreate_eq {start : Nat} (hstart : 1 ≤ start) (ranges : List Nat)
    (label : Option String) :
    checkedCreate start ranges label = .of (create start ranges label) := by
  unfold checkedCreate create
  cases hempty : ranges.isEmpty with
  | true => rfl
  | false =>
    have hne : ranges ≠ [] := by simpa using hempty
    rw [if_neg Bool.false_ne_true, if_neg Bool.false_ne_true]
    dsimp only
    cases ranges.findIdx? (· = 0) with
    | some i => rfl
    | none =>
      rw [checkedWeigh_eq hne]
      cases weigh? ranges with
      | none => rfl
      | some weighed =>
        rw [Option.elim_some, Checked.of_ok_bind]
        refine Checked.bind_eq_of rfl fun format _ => ?_
        exact Checked.bind_eq_of (IdRange.checkedAlloc_eq (by omega)) fun ids _ => rfl

/-! ### Offsets -/

theorem addTerms_eq {sum : Nat} {weights : List Nat} {index : Index} (hpos : ∀ i ∈ index, 1 ≤ i)
    (hsum : sum + offset weights index < wordSize) :
    addTerms sum weights index = some (sum + offset weights index) := by
  induction index generalizing sum weights with
  | nil => cases weights <;> rfl
  | cons i index ih =>
    cases weights with
    | nil => rfl
    | cons weight weights =>
      rw [offset] at hsum ⊢
      have hi : checkedSub i 1 = some (i - 1) := checkedSub_of_le (hpos i List.mem_cons_self)
      have hterm : checkedWord ((i - 1) * weight) = some ((i - 1) * weight) :=
        checkedWord_of_lt (by omega)
      have hnext : checkedWord (sum + (i - 1) * weight) = some (sum + (i - 1) * weight) :=
        checkedWord_of_lt (by omega)
      rw [addTerms, hi, Option.bind_eq_bind, Option.bind_some, hterm, Option.bind_some, hnext,
        Option.bind_some, ih (fun i' hi' => hpos i' (List.mem_cons_of_mem i hi')) (by omega),
        Nat.add_assoc]

theorem weights_pos {ranges weights : List Nat} {size : Nat}
    (h : weigh? ranges = some (weights, size)) (hsize : 0 < size) : ∀ w ∈ weights, 0 < w := by
  induction ranges generalizing weights size with
  | nil =>
    cases h
    intro w hw
    cases hw
  | cons r ranges ih =>
    rw [weigh?, Option.bind_eq_some_iff] at h
    obtain ⟨⟨later, count⟩, hlater, htotal⟩ := h
    obtain ⟨total, hchecked, htotal⟩ := Option.map_eq_some_iff.mp htotal
    cases htotal
    obtain ⟨rfl, -⟩ := checkedWord_eq_some_iff.mp hchecked
    -- the first weight is the number of later tuples, a factor of the number of all
    have hcount : 0 < count := Nat.pos_of_mul_pos_right hsize
    exact List.forall_mem_cons.mpr ⟨hcount, ih hlater hcount⟩

theorem checkedDigits_eq {weights : List Nat} (hpos : ∀ w ∈ weights, 0 < w) {number : Nat}
    (hnumber : number + 1 < wordSize) :
    checkedDigits weights number = some (digits weights number) := by
  induction weights generalizing number with
  | nil => rfl
  | cons w weights ih =>
    have hw : 0 < w := hpos w List.mem_cons_self
    have hquotient : number / w ≤ number := Nat.div_le_self number w
    have hresidue : number % w ≤ number := Nat.mod_le number w
    rw [checkedDigits, checkedDiv_of_pos hw, Option.bind_eq_bind, Option.bind_some,
      checkedWord_of_lt (by omega), Option.bind_some, checkedMod_of_pos hw, Option.bind_some,
      ih (fun w' hw' => hpos w' (List.mem_cons_of_mem w hw')) (by omega)]
    rfl

theorem pos_of_mem_tuples {ranges : List Nat} {index : Index}
    (h : index ∈ tuples (ranges.map (List.range' 1 ·))) : ∀ i ∈ index, 1 ≤ i := by
  rw [mem_tuples, List.forall₂_map_right_iff] at h
  induction h with
  | nil =>
    intro i hi
    cases hi
  | cons hi _ ih => exact List.forall_mem_cons.mpr ⟨(List.mem_range'_1.mp hi).1, ih⟩

section Create

variable {start : Nat} {ranges : List Nat} {label : Option String} {g : Block}
  (h : create start ranges label = .ok g)

include h

theorem checkedLit_eq {index : Index} (hindex : index ∈ tuples (g.ranges.map (List.range' 1 ·))) :
    g.checkedLit index = some (g.litAt index) := by
  obtain ⟨rfl, -, rfl, hweigh⟩ := create_eq_ok h
  obtain ⟨hlength, hnumbers⟩ := weigh?_numbers hweigh
  obtain ⟨i, hi⟩ := List.mem_iff_getElem?.mp hindex
  have hsize := (List.getElem?_eq_some_iff.mp hi).1
  have hoffset := (hnumbers i index hi).1
  have hstop : g.ids.first + g.ids.size ≤ maxVar + 1 := (create_allocated h).2
  have hcounter := maxVar_lt
  have hword := counterSize_lt
  rw [checkedLit, addTerms_eq (pos_of_mem_tuples hindex) (by omega), Option.bind_eq_bind,
    Option.bind_some, Nat.zero_add, checkedId_of_le (by omega)]
  rfl

theorem checkedEvaluate_eq (index : Index) : g.checkedEvaluate index = .of (g.evaluate index) := by
  refine Checked.bind_eq_of rfl fun _ hlength => Checked.bind_eq_of rfl fun _ hcheck => ?_
  rw [checkedLit_eq h (mem_of_checks hlength hcheck)]
  rfl

theorem checkedLits_eq (p : Pattern) : g.checkedLits p = .of (g.lits p) := by
  refine Checked.bind_eq_of_map rfl fun is his => ?_
  rw [mapM_eq_some fun index hindex => checkedLit_eq h
    (VarGroup.mem_of_indices (g := .block g) (indices_kind p) his hindex)]
  rfl

theorem checkedToIndex_eq (l : Lit) : g.checkedToIndex l = .of (g.toIndex l) := by
  obtain ⟨-, -, -, hweigh⟩ := create_eq_ok h
  rw [checkedToIndex, toIndex]
  by_cases hcontains : g.ids.contains l = true
  · obtain ⟨hfirst, hlt⟩ := IdRange.contains_iff.mp hcontains
    have hstop : g.ids.first + g.ids.size ≤ maxVar + 1 := (create_allocated h).2
    have hcounter := maxVar_lt
    have hword := counterSize_lt
    rw [if_pos hcontains, if_pos hcontains, checkedSub_of_le hfirst, Option.bind_eq_bind,
      Option.bind_some, checkedDigits_eq (weights_pos hweigh (by omega)) (by omega)]
    rfl
  · rw [if_neg hcontains, if_neg hcontains]
    rfl

end Create

end Block

/-! ## Binary mappings -/

namespace BinaryMapping

/-! ### Bits -/

/-- Counting down from `n` bits, the first one bit is the highest one of the word. -/
theorem length_takeWhile_bits {word n : Nat} (hword : word ≠ 0) (hn : Nat.log2 word < n) :
    ((List.range n).reverse.takeWhile fun b => !word.testBit b).length =
      n - 1 - Nat.log2 word := by
  induction n with
  | zero => exact absurd hn (Nat.not_lt_zero _)
  | succ n ih =>
    rw [List.range_succ, List.reverse_append, List.reverse_singleton, List.singleton_append]
    by_cases hlog : Nat.log2 word < n
    · have hbit : word.testBit n = false :=
        Nat.testBit_lt_two_pow ((Nat.log2_lt hword).mp hlog)
      rw [List.takeWhile_cons_of_pos (by rw [hbit]; rfl), List.length_cons, ih hlog]
      omega
    · obtain rfl : n = Nat.log2 word := by omega
      have hbit : word.testBit (Nat.log2 word) = true := Nat.testBit_log2 hword
      rw [List.takeWhile_cons_of_neg (by rw [hbit]; exact Bool.false_ne_true)]
      simp

theorem bitsFor_le {m : Nat} (hm : m < wordSize) : bitsFor m ≤ wordBits :=
  bitsFor_le_iff.mpr (Nat.le_of_lt hm)

theorem checkedBitsFor_eq {m : Nat} (hm : m < wordSize) : checkedBitsFor m = some (bitsFor m) := by
  have hbits := bitsFor_le hm
  rw [checkedBitsFor]
  rw [bitsFor] at hbits ⊢
  split_ifs at hbits ⊢ with hone
  · rfl
  · have hlog : Nat.log2 (m - 1) < wordBits := hbits
    have hzeros : leadingZeros (m - 1) = wordBits - 1 - Nat.log2 (m - 1) :=
      length_takeWhile_bits (by omega) hlog
    have hhighest : checkedSub m 1 = some (m - 1) := checkedSub_of_le (by omega)
    rw [hhighest, Option.bind_eq_bind, Option.bind_some, hzeros, checkedSub_of_le (by omega)]
    exact congrArg some (by omega)

theorem checkedCreate_eq {start n m : Nat} (hstart : 1 ≤ start) (hm : m < wordSize)
    (label : Option String) : checkedCreate start n m label = .of (create start n m label) := by
  unfold checkedCreate create
  by_cases hempty : n = 0 ∨ m = 0
  · rw [if_pos hempty, if_pos hempty]
    rfl
  · rw [if_neg hempty, if_neg hempty]
    dsimp only
    rw [checkedBitsFor_eq hm, Checked.step_some, Checked.of_ok_bind]
    cases checkedWord (n * bitsFor m) with
    | none => rfl
    | some size =>
      refine Checked.bind_eq_of (IdRange.checkedAlloc_eq (by omega)) fun ids _ => ?_
      exact Checked.bind_eq_of rfl fun format _ => rfl

theorem forbidWith_eq {f : BinaryMapping} {lit : Nat → Nat → Option Lit} {i j : Nat}
    (hbits : f.bits ≤ wordBits)
    (hlit : i ∈ f.domain → ∀ b < f.bits, lit i b = some (f.litAt i b)) (hj : j < wordSize) :
    f.forbidWith lit i j = .of (f.forbid i j) := by
  refine Checked.bind_eq_of rfl fun _ hi => ?_
  have hclause : (f.bitPositions.mapM fun b => do
      let l ← lit i b
      let shifted ← checkedShift j b
      return l.flipIf (shifted &&& 1 == 1)) =
        some (f.bitPositions.map fun b => (f.litAt i b).flipIf (j.testBit b)) := by
    refine mapM_eq_some fun b hb => ?_
    rw [mem_bitPositions] at hb
    rw [hlit (checkDomain_eq_ok_iff.mp hi) b hb, Option.bind_eq_bind, Option.bind_some,
      checkedShift_of_lt (by omega), Option.bind_eq_bind, Option.bind_some,
      shiftRight_and_one_beq]
    rfl
  dsimp only
  rw [hclause, Checked.step_some]
  by_cases hbits : f.bits < wordBits
  · rw [if_pos hbits, checkedShift_of_lt hbits, Checked.step_some, Checked.of_ok_bind]
    by_cases hrest : bitRange f.bits ≤ j
    · rw [if_pos (shiftRight_ne_zero_iff.mpr hrest), if_pos hrest]
      rfl
    · rw [if_neg fun hne => hrest (shiftRight_ne_zero_iff.mp hne), if_neg hrest]
      rfl
  · -- every word can be written with all bits of a word
    have hrange : bitRange f.bits = wordSize := by
      rw [show f.bits = wordBits by omega, wordSize_eq]
    rw [if_neg hbits, if_neg (by omega)]
    rfl

section Create

variable {start n m : Nat} {label : Option String} {f : BinaryMapping} (hstart : 1 ≤ start)
  (hm : m < wordSize) (h : create start n m label = .ok f)

include h in
/-- The bits of an element end where those of the elements up to it do. -/
theorem span_of_mem_domain {i : Nat} (hi : i ∈ f.domain) :
    f.bits ≤ i * f.bits ∧ f.ids.first + i * f.bits ≤ maxVar + 1 := by
  obtain ⟨hn, -, hbits, hids⟩ := create_eq_ok h
  have hstop : f.ids.first + f.ids.size ≤ maxVar + 1 := (create_allocated h).2
  obtain ⟨hpos, hle⟩ := List.mem_range'_1.mp hi
  have hsize : f.ids.size = f.n * f.bits := by rw [hids, hn, hbits]
  have hlow : f.bits ≤ i * f.bits := Nat.le_mul_of_pos_left f.bits hpos
  have hhigh : i * f.bits ≤ f.n * f.bits := Nat.mul_le_mul_right f.bits (by omega)
  exact ⟨hlow, by omega⟩

include hstart h in
theorem checkedLit_eq {i b : Nat} (hi : i ∈ f.domain) (hb : b < f.bits) :
    f.checkedLit i b = some (f.litAt i b) := by
  obtain ⟨-, -, -, hids⟩ := create_eq_ok h
  obtain ⟨hlow, hhigh⟩ := span_of_mem_domain h hi
  have hcounter := maxVar_lt
  have hword := counterSize_lt
  have hfirst : f.ids.first = start := congrArg IdRange.first hids
  have hbefore : checkedSub f.ids.first 1 = some (f.ids.first - 1) :=
    checkedSub_of_le (by omega)
  rw [checkedLit, hbefore, Option.bind_eq_bind, Option.bind_some, checkedWord_of_lt (by omega),
    Option.bind_some, checkedWord_of_lt (by omega), Option.bind_some,
    checkedSub_of_le (by omega), Option.bind_some, checkedCounter_of_lt (by omega),
    Option.bind_some, litAt]
  exact congrArg (fun id => some (Lit.positive id)) (by omega)

include h in
/-- Identifiers that wrap around come back: what is below zero, before the identifier zero, is made
up for by the bits of the element. -/
theorem wrappedLit_eq {i b : Nat} (hi : i ∈ f.domain) (hb : b < f.bits) :
    f.wrappedLit i b = f.litAt i b := by
  obtain ⟨hlow, hhigh⟩ := span_of_mem_domain h hi
  have hcounter : maxVar + 1 < 2 ^ 32 := maxVar_lt
  have helement : i ≤ i * f.bits := Nat.le_mul_of_pos_right i (Nat.zero_lt_of_lt hb)
  rw [wrappedLit, litAt]
  congr 1
  rw [UInt64.toNat_toUInt32, UInt64.toNat_sub, UInt64.toNat_add, UInt64.toNat_mul, UInt64.toNat_sub]
  simp only [Nat.toUInt64_eq, UInt64.toNat_ofNat', UInt64.toNat_one]
  rw [Nat.mod_eq_of_lt (show i < 2 ^ 64 by omega), Nat.mod_eq_of_lt (show f.bits < 2 ^ 64 by omega)]
  omega

include hstart h in
theorem checkedEvaluate_eq (index : Index) : f.checkedEvaluate index = .of (f.evaluate index) := by
  match index with
  | [i, b] =>
    rw [checkedEvaluate, Index.checkedPair_pair, Checked.of_ok_bind]
    refine Checked.bind_eq_of rfl fun _ hi => Checked.bind_eq_of rfl fun _ hb => ?_
    rw [checkedLit_eq hstart h (checkDomain_eq_ok_iff.mp hi) (checkBit_eq_ok_iff.mp hb)]
    rfl
  | [] | [_] | _ :: _ :: _ :: _ => rfl

omit hstart hm h in
theorem checkedMatching_eq (p : Pattern) : f.checkedMatching p = .of (f.matching p) := by
  rw [checkedMatching, Pattern.checkedSides_eq, BipartiteEdges.sides, matching]
  cases p.expand 2 with
  | error e => rfl
  | ok p =>
    rw [Except.map_ok, Checked.of_ok_bind, Except.ok_bind]
    exact Checked.bind_eq_of rfl fun _ _ => Checked.bind_eq_of rfl fun _ _ => rfl

include hstart h in
theorem checkedLits_eq (p : Pattern) : f.checkedLits p = .of (f.lits p) := by
  refine Checked.bind_eq_of_map (checkedMatching_eq p) fun es hes => ?_
  rw [mapM_eq_some fun e he => ?_]
  · rfl
  · obtain ⟨hi, hb⟩ := mem_table.mp (mem_of_matching hes he)
    exact checkedLit_eq hstart h hi hb

include hstart hm h in
theorem checkedForbid_eq (i : Nat) {j : Nat} (hj : j < wordSize) :
    f.checkedForbid i j = .of (f.forbid i j) := by
  obtain ⟨-, -, hbits, -⟩ := create_eq_ok h
  exact forbidWith_eq (hbits ▸ bitsFor_le hm) (fun hi b hb => checkedLit_eq hstart h hi hb) hj

include h in
theorem checkedToIndex_eq (l : Lit) : f.checkedToIndex l = .of (f.toIndex l) := by
  obtain ⟨hn, -, hbits, hids⟩ := create_eq_ok h
  rw [checkedToIndex, toIndex]
  by_cases hcontains : f.ids.contains l = true
  · obtain ⟨hfirst, hlt⟩ := IdRange.contains_iff.mp hcontains
    have hstop : f.ids.first + f.ids.size ≤ maxVar + 1 := (create_allocated h).2
    have hcounter := maxVar_lt
    have hword := counterSize_lt
    have hsize : f.ids.size = f.n * f.bits := by rw [hids, hn, hbits]
    -- a mapping with a variable has bits
    have hcount : 0 < f.n * f.bits := by omega
    have hpos : 0 < f.bits := Nat.pos_of_mul_pos_left hcount
    have hquotient : (l.var - f.ids.first) / f.bits ≤ l.var - f.ids.first := Nat.div_le_self _ _
    have hremainder := Nat.mod_lt (l.var - f.ids.first) hpos
    have htop : checkedSub f.bits 1 = some (f.bits - 1) := checkedSub_of_le hpos
    rw [if_pos hcontains, if_pos hcontains, checkedSub_of_le hfirst, Option.bind_eq_bind,
      Option.bind_some, checkedDiv_of_pos hpos, Option.bind_some, checkedWord_of_lt (by omega),
      Option.bind_some, htop, Option.bind_some, checkedMod_of_pos hpos, Option.bind_some,
      checkedSub_of_le (by omega)]
    rfl
  · rw [if_neg hcontains, if_neg hcontains]
    rfl

end Create

end BinaryMapping

end Clausal
