import Clausal.Encoding.Mapping.Checked
import Clausal.Proofs.Encoding.Mapping.Binary
import Clausal.Proofs.VarGroup.Checked.Tuples
import Mathlib.Data.List.ProdSigma
import Mathlib.Order.Bounds.Defs

/-!
# Numbers in excess

The images of a mapping are written with as few bits as possible (`isLeast_bitsFor`), so fewer
numbers than there are images can be written and are no images (`excess_lt`). A mapping is complete if
no element has one of these numbers, which one clause says for each element and number. They are
listed element by element, up to the largest number that the bits can write. No shift and no step to
the next number leaves the words, not even where the bits can write all of them
(`bits_least_excess_forbidden`).
-/

namespace Clausal

theorem checkedCount_eq {first last : Nat} (hlast : last < wordSize) :
    checkedCount first last = some (List.range' first (last + 1 - first)) := by
  fun_induction checkedCount first last with
  | case1 first hlt ih =>
    rw [checkedWord_of_lt (by omega), Option.bind_eq_bind, Option.bind_some, ih]
    obtain ⟨count, hcount⟩ : ∃ count, last + 1 - first = count + 1 := ⟨last - first, by omega⟩
    have hrest : last + 1 - (first + 1) = count := by omega
    rw [hcount, hrest, List.range'_succ]
    rfl
  | case2 _ =>
    rw [Nat.add_sub_cancel_left]
    rfl
  | case3 first hle hne =>
    rw [Nat.sub_eq_zero_of_le (by omega)]
    rfl

namespace BinaryMapping

/-! ## Bits -/

theorem isLeast_bitsFor (m : Nat) : IsLeast {b | m ≤ 2 ^ b} (bitsFor m) :=
  ⟨le_bitRange_bitsFor m, fun _ hb => bitsFor_le_iff.mpr hb⟩

/-- With one bit less there would be too few numbers. -/
theorem excess_lt {m : Nat} (hm : 2 ≤ m) : 2 ^ bitsFor m - m < m := by
  cases hbits : bitsFor m with
  | zero => omega
  | succ b =>
    have hfew : ¬ m ≤ 2 ^ b := by
      intro hle
      have hless : bitsFor m ≤ b := bitsFor_le_iff.mpr hle
      omega
    rw [Nat.pow_succ]
    omega

/-! ## Elements and numbers -/

/-- The elements with the numbers in excess, in ascending order of the element and then of the
number. -/
def excessCells (f : BinaryMapping) : List (Nat × Nat) := f.domain ×ˢ f.excess

variable {f : BinaryMapping}

theorem mem_excessCells {i j : Nat} : (i, j) ∈ f.excessCells ↔
    (1 ≤ i ∧ i ≤ f.n) ∧ f.m ≤ j ∧ j < 2 ^ f.bits := by
  rw [excessCells, List.mem_product, mem_excess, domain, List.mem_range'_1, Nat.lt_one_add_iff]
  rfl

theorem pairwise_excessCells : f.excessCells.Pairwise (Prod.Lex (· < ·) (· < ·)) := by
  have hexcess : f.excess.Pairwise (· < ·) := List.pairwise_lt_range' 1
  show (f.domain.flatMap fun i => f.excess.map (Prod.mk i)).Pairwise _
  rw [List.pairwise_flatMap]
  refine ⟨fun i _ => ?_, pairwise_domain.imp fun hlt cell hcell cell' hcell' => ?_⟩
  · exact List.pairwise_map.mpr (hexcess.imp (Prod.Lex.right i))
  · obtain ⟨j, -, rfl⟩ := List.mem_map.mp hcell
    obtain ⟨j', -, rfl⟩ := List.mem_map.mp hcell'
    exact Prod.Lex.left j j' hlt

theorem length_excessCells : f.excessCells.length = f.n * (2 ^ f.bits - f.m) := by
  rw [excessCells, List.length_product, domain, excess, List.length_range', List.length_range']
  rfl

theorem map_excessCells {α : Type} (g : Nat × Nat → α) :
    f.excessCells.map g = f.domain.flatMap fun i => f.excess.map fun j => g (i, j) := by
  show (f.domain.flatMap fun i => f.excess.map (Prod.mk i)).map g = _
  rw [List.map_flatMap]
  exact List.flatMap_congr fun i _ => List.map_map

/-- The clauses that forbid the elements the numbers in excess. -/
def excessClauses (f : BinaryMapping) : List Clause :=
  f.excessCells.map fun cell => f.clauseAgainst cell.1 cell.2

theorem requests_complete_eq :
    f.requests .complete = (f.excessClauses.map Request.clause).map .ok := by
  rw [requests_complete, excessClauses, List.map_map, List.map_map, map_excessCells]
  refine List.flatMap_congr fun i hi => List.map_congr_left fun j hj => ?_
  rw [forbid_eq_ok hi (mem_excess.mp hj).2]
  rfl

/-- Some clauses forbid the elements the numbers in excess: one for each of these cells, which are in
ascending order of the element and then of the number. -/
structure ForbidsExcess (f : BinaryMapping) (cells : List (Nat × Nat)) (clauses : List Clause) :
    Prop where
  ascending : cells.Pairwise (Prod.Lex (· < ·) (· < ·))
  mem_iff (i j : Nat) : (i, j) ∈ cells ↔ (1 ≤ i ∧ i ≤ f.n) ∧ f.m ≤ j ∧ j < 2 ^ f.bits
  forbids : List.Forall₂ (fun cell c => f.forbid cell.1 cell.2 = .ok c ∧
    ∀ ν, Clause.holds c ν = false ↔ f.value ν cell.1 = cell.2) cells clauses
  length_eq : clauses.length = f.n * (2 ^ f.bits - f.m)

theorem forbidsExcess : f.ForbidsExcess f.excessCells f.excessClauses where
  ascending := pairwise_excessCells
  mem_iff _ _ := mem_excessCells
  forbids := by
    rw [excessClauses, List.forall₂_map_right_iff, List.forall₂_same]
    rintro ⟨i, j⟩ hcell
    obtain ⟨hi, -, hj⟩ := mem_excessCells.mp hcell
    have hi : i ∈ f.domain := List.mem_range'_1.mpr (by omega)
    refine ⟨forbid_eq_ok hi hj, fun ν => ?_⟩
    rw [← Bool.not_eq_true, holds_clauseAgainst_iff hi hj, not_not]
  length_eq := by rw [excessClauses, List.length_map, length_excessCells]

/-! ## Steps -/

theorem checkedTop_eq (hbits : f.bits ≤ wordBits) : f.checkedTop = some (bitRange f.bits - 1) := by
  rw [checkedTop, checkedPower]
  split_ifs with hplace
  · dsimp only
    rw [Nat.one_shiftLeft, checkedSub_of_le Nat.one_le_two_pow]
    rfl
  · dsimp only
    rw [wordSize_eq, show f.bits = wordBits by omega]

/-- The listing takes no step without a result if the literals do not. -/
theorem completeWith_eq {lit : Nat → Nat → Option Lit} (hbits : f.bits ≤ wordBits)
    (hn : f.n < wordSize) (hlit : ∀ i ∈ f.domain, ∀ b < f.bits, lit i b = some (f.litAt i b)) :
    f.completeWith lit = .of (.ok f.excessClauses) := by
  have hpos : 0 < bitRange f.bits := Nat.two_pow_pos f.bits
  have hrange : bitRange f.bits ≤ wordSize := by
    rw [wordSize_eq]
    exact Nat.pow_le_pow_right Nat.two_pos hbits
  have htop : bitRange f.bits - 1 < wordSize := by omega
  have hcount : checkedCount f.m (bitRange f.bits - 1) = some f.excess := by
    rw [checkedCount_eq htop, Nat.sub_add_cancel hpos, excess]
  have hrow : ∀ i ∈ f.domain, (do
      let excess ← Checked.step (checkedCount f.m (bitRange f.bits - 1))
      excess.mapM (f.forbidWith lit i)) = .of (.ok (f.excess.map (f.clauseAgainst i))) := by
    intro i hi
    rw [hcount, Checked.step_some, Checked.of_ok_bind]
    refine Checked.mapM_eq_of fun j hj => ?_
    have hnumber := (mem_excess.mp hj).2
    rw [forbidWith_eq hbits (fun _ => hlit i hi) (by omega), forbid_eq_ok hi hnumber]
  have hclauses : (f.domain.map fun i => f.excess.map (f.clauseAgainst i)).flatten =
      f.excessClauses := by
    rw [excessClauses, map_excessCells, List.flatMap_def]
  have hdomain : checkedCount 1 f.n = some f.domain := checkedCount_eq hn
  rw [completeWith, checkedTop_eq hbits, Checked.step_some, Checked.of_ok_bind, hdomain,
    Checked.step_some, Checked.of_ok_bind, Checked.mapM_eq_of hrow, Checked.of_ok_bind, hclauses]
  rfl

/-! ## Created mappings -/

/-- These clauses are what every collector adds to make the mapping complete, and all steps that list
them are exact: with identifiers that wrap around, and from an identifier of at least one on without
any that would have to. -/
structure CompletesExactly (f : BinaryMapping) (clauses : List Clause) : Prop where
  adds : Collector.Adds (f.requests .complete) clauses
  wrapped : f.completeWith (fun i b => some (f.wrappedLit i b)) = .of (.ok clauses)
  checked : 1 ≤ f.ids.first → f.completeWith f.checkedLit = .of (.ok clauses)

theorem completesExactly {start n m : Nat} {label : Option String} (hn : n < wordSize)
    (hm : m < wordSize) (h : create start n m label = .ok f) :
    f.CompletesExactly f.excessClauses := by
  obtain ⟨rfl, -, hbits, hids⟩ := create_eq_ok h
  have hle : f.bits ≤ wordBits := hbits ▸ bitsFor_le hm
  have hfirst : f.ids.first = start := congrArg IdRange.first hids
  constructor
  · rw [requests_complete_eq]
    exact Collector.adds_clauses _
  · exact completeWith_eq hle hn fun i hi b hb => congrArg some (wrappedLit_eq h hi hb)
  · intro hone
    exact completeWith_eq hle hn fun i hi b hb => checkedLit_eq (hfirst ▸ hone) h hi hb

/-- **Numbers are written with as few bits as possible, and those in excess are forbidden.** The bits
of `m` images are the least that can write as many numbers, and at most those of a word; if there are
two images, fewer numbers than images are in excess. A mapping can forbid each element each image, and
is made complete by one clause for each element and number in excess, in ascending order of the
element and then of the number. With words for its elements and images, no shift and no step from one
number to the next leaves the words. -/
theorem bits_least_excess_forbidden {m : Nat} (hm : m < wordSize) :
    (IsLeast {b | m ≤ 2 ^ b} (bitsFor m) ∧ bitsFor m ≤ 64 ∧ checkedBitsFor m = some (bitsFor m) ∧
      (2 ≤ m → 2 ^ bitsFor m - m < m)) ∧
    ∀ {start n : Nat} {label : Option String} {f : BinaryMapping}, n < wordSize →
      create start n m label = .ok f →
      (f.n = n ∧ f.m = m ∧ f.bits = bitsFor m ∧ f.ids.first = start) ∧
      (∀ i ∈ List.range' 1 n, ∀ j < m, ∃ c, f.forbid i j = .ok c) ∧
      (∀ i, ∀ j < wordSize,
        f.forbidWith (fun i b => some (f.wrappedLit i b)) i j = .of (f.forbid i j)) ∧
      ∃ cells clauses, f.ForbidsExcess cells clauses ∧ f.CompletesExactly clauses := by
  refine ⟨⟨isLeast_bitsFor m, bitsFor_le hm, checkedBitsFor_eq hm, excess_lt⟩, ?_⟩
  intro start n label f hn h
  obtain ⟨hdomain, himages, hbits, hids⟩ := create_eq_ok h
  refine ⟨⟨hdomain, himages, hbits, congrArg IdRange.first hids⟩, fun i hi j hj => ?_,
    fun i j hj => ?_, ?_⟩
  · have helement : i ∈ f.domain := by rwa [domain, hdomain]
    have hnumber : j < bitRange f.bits := Nat.lt_of_lt_of_le (himages ▸ hj) (create_le_bitRange h)
    exact ⟨_, forbid_eq_ok helement hnumber⟩
  · exact forbidWith_eq (hbits ▸ bitsFor_le hm)
      (fun hi b hb => congrArg some (wrappedLit_eq h hi hb)) hj
  · exact ⟨_, _, forbidsExcess, completesExactly hn hm h⟩

/-- With an image for each word but the largest, all bits of a word are needed, and the largest one is
in excess. -/
theorem bits_least_excess_forbidden_word :
    ∃ f, create 1 1 18446744073709551615 none = .ok f ∧ f.bits = 64 ∧
      f.completeWith f.checkedLit = .of (.ok [(List.range' 1 64).map Lit.negative]) := by
  obtain ⟨f, hf, hrequests⟩ : ∃ f, create 1 1 18446744073709551615 none = .ok f ∧
      f.requests .complete = [.ok (.clause ((List.range' 1 64).map Lit.negative))] := by
    refine ⟨⟨⟨1, 64⟩, 1, 18446744073709551615, 64,
      ⟨[.char 'v', .char '(', .argument 0, .char ',', .argument 1, .char ')']⟩⟩, ?_, ?_⟩
    · decide +kernel
    · decide +kernel
  have hword : 18446744073709551615 < wordSize := by decide
  obtain ⟨-, hcreated⟩ := bits_least_excess_forbidden hword
  obtain ⟨⟨-, -, hbits, hfirst⟩, -, -, cells, clauses, -, hcompletes⟩ :=
    hcreated (show 1 < wordSize by decide) hf
  have hadds := hcompletes.adds.list []
  rw [hrequests] at hadds
  cases hadds
  exact ⟨f, hf, hbits.trans (by decide +kernel), hcompletes.checked hfirst.ge⟩

end BinaryMapping

end Clausal
