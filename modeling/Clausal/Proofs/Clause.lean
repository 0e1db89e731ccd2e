import Clausal.Proofs.Limits
import Clausal.PseudoBoolean
import Mathlib.Data.List.Basic
import Mathlib.Tactic.SplitIfs

/-!
# The value of a clause

A clause is evaluated from its first literal to its last, and an open literal only matters to a
clause that is false so far. One step of this is true if the value so far or the literal is, and
false if both are (`Clause.combine_eq_yes_iff`, `Clause.combine_eq_no_iff`). So the whole clause
is true if one of its literals is and false if all of them are (`Clause.value_eq_yes_iff`,
`Clause.value_eq_no_iff`), in whatever order they stand, and a value other than open is kept by
all assignments that say more.

The constraint that a clause is written as is evaluated by a sum of weights. With unit weights
this is the number of true literals, so it comes to the same (`PbConstraint.isSat_ofClause`).
-/

namespace Clausal

theorem Truth.eq_of_iff {s t : Truth} (hyes : s = .yes ↔ t = .yes) (hno : s = .no ↔ t = .no) :
    s = t := by
  cases s <;> cases t <;> simp at hyes hno ⊢

/-! ## Assignments that say more -/

namespace Assignment

/-- The assignment gives the variables that another one assigns the same values, and may assign
more. -/
def Extends (b a : Assignment) : Prop :=
  ∀ v, a.varValue v ≠ .unset → b.varValue v = a.varValue v

theorem Extends.litValue_eq {a b : Assignment} (h : b.Extends a) {l : Lit}
    (hl : a.litValue l ≠ .unset) : b.litValue l = a.litValue l := by
  have hvar : a.varValue l.var ≠ .unset := by
    intro hopen
    simp [litValue, hopen, Truth.negate] at hl
  rw [litValue, litValue, h l.var hvar]

theorem extends_assignVar {a : Assignment} {v : Nat} (hv : a.varValue v = .unset) (t : Truth) :
    (a.assignVar v t).Extends a := by
  intro w hw
  have hne : w ≠ v := by
    rintro rfl
    exact hw hv
  have hrange : 1 ≤ w ∧ w ≤ a.size := by
    by_contra hout
    exact hw (if_neg hout)
  have hrange' : 1 ≤ w ∧ w ≤ max a.size v := ⟨hrange.1, by omega⟩
  have hvalue : (a.assignVar v t).varValue w = if w = v then t else a.varValue w := if_pos hrange'
  rw [hvalue, if_neg hne]

end Assignment

/-! ## Evaluation from left to right -/

namespace Clause

variable {c : Clause} {a : Assignment}

theorem combine_eq_yes_iff {sofar t : Truth} :
    combine sofar t = .yes ↔ sofar = .yes ∨ t = .yes := by
  cases sofar <;> cases t <;> simp [combine]

theorem combine_eq_no_iff {sofar t : Truth} :
    combine sofar t = .no ↔ sofar = .no ∧ t = .no := by
  cases sofar <;> cases t <;> simp [combine]

theorem foldl_combine_eq_yes_iff {sofar : Truth} :
    c.foldl (fun sofar l => combine sofar (a.litValue l)) sofar = .yes ↔
      sofar = .yes ∨ ∃ l ∈ c, a.litValue l = .yes := by
  induction c generalizing sofar with
  | nil => simp
  | cons l c ih =>
    rw [List.foldl_cons, ih, combine_eq_yes_iff, List.exists_mem_cons_iff, or_assoc]

theorem foldl_combine_eq_no_iff {sofar : Truth} :
    c.foldl (fun sofar l => combine sofar (a.litValue l)) sofar = .no ↔
      sofar = .no ∧ ∀ l ∈ c, a.litValue l = .no := by
  induction c generalizing sofar with
  | nil => simp
  | cons l c ih =>
    rw [List.foldl_cons, ih, combine_eq_no_iff, List.forall_mem_cons, and_assoc]

theorem value_eq_yes_iff : c.value a = .yes ↔ ∃ l ∈ c, a.litValue l = .yes := by
  rw [value, foldl_combine_eq_yes_iff]
  simp

theorem value_eq_no_iff : c.value a = .no ↔ ∀ l ∈ c, a.litValue l = .no := by
  rw [value, foldl_combine_eq_no_iff]
  simp

theorem isSat_iff : c.isSat a = true ↔ ∃ l ∈ c, a.litValue l = .yes := by
  simp [isSat]

theorem value_perm {d : Clause} (h : d.Perm c) : d.value a = c.value a := by
  apply Truth.eq_of_iff
  · simp only [value_eq_yes_iff, h.mem_iff]
  · simp only [value_eq_no_iff, h.mem_iff]

theorem value_extends {b : Assignment} (h : b.Extends a) (hc : c.value a ≠ .unset) :
    c.value b = c.value a := by
  cases hvalue : c.value a with
  | yes =>
    obtain ⟨l, hl, hyes⟩ := value_eq_yes_iff.mp hvalue
    refine value_eq_yes_iff.mpr ⟨l, hl, ?_⟩
    rw [h.litValue_eq (by simp [hyes]), hyes]
  | no =>
    rw [value_eq_no_iff] at hvalue ⊢
    intro l hl
    rw [h.litValue_eq (by simp [hvalue l hl]), hvalue l hl]
  | unset => exact absurd hvalue hc

end Clause

/-! ## Evaluation as a sum -/

namespace PbConstraint

theorem foldl_ofClause {a : Assignment} {c : Clause} {sum : Nat} (h : sum + c.length < wordSize) :
    (ofClause c).terms.foldl
        (fun sum (l, w) => if a.litValue l = .yes then (sum + w) % wordSize else sum) sum =
      sum + c.countP fun l => a.litValue l = .yes := by
  induction c generalizing sum with
  | nil => rfl
  | cons l c ih =>
    rw [List.length_cons] at h
    rw [ofClause, List.map_cons, List.foldl_cons]
    dsimp only
    split_ifs with hyes
    · rw [Nat.mod_eq_of_lt (by omega), List.countP_cons_of_pos (by simpa using hyes)]
      exact (ih (by omega)).trans (by omega)
    · rw [List.countP_cons_of_neg (by simpa using hyes)]
      exact ih (by omega)

theorem isSat_ofClause {c : Clause} (h : c.length < litLimit) (a : Assignment) :
    (ofClause c).isSat a = c.isSat a := by
  have hlength : 0 + c.length < wordSize := by
    simp only [litLimit, wordSize] at *
    omega
  have hcount : ((c.countP fun l => a.litValue l = .yes : Nat) : Int) ≤ maxInt := by
    have hle := List.countP_le_length (l := c) (p := fun l => a.litValue l = .yes)
    simp only [litLimit, maxInt] at *
    omega
  rw [isSat, wordSum, foldl_ofClause hlength, Nat.zero_add, countInt_of_le hcount, Clause.isSat,
    Bool.eq_iff_iff, List.any_eq_true, ← List.countP_pos_iff]
  exact decide_eq_true_iff.trans Int.natCast_pos

end PbConstraint

/-! ## Values of clauses -/

namespace Clause

/-- **A clause has the value that its literals give it.** It is true exactly when it is satisfied,
false exactly when all of its literals are false, and open else, in whatever order the literals
stand. If it is not open, all assignments that say more give it the same value. The constraint
that it is written as is satisfied by the same assignments as the clause. -/
theorem value_sound (c : Clause) (hlength : c.length < litLimit) (a : Assignment) :
    (c.value a = .yes ↔ c.isSat a = true) ∧
    (c.value a = .no ↔ ∀ l ∈ c, a.litValue l = .no) ∧
    (c.value a = .unset ↔ ¬ c.isSat a = true ∧ ¬ ∀ l ∈ c, a.litValue l = .no) ∧
    (∀ d : Clause, d.Perm c → d.value a = c.value a) ∧
    (c.value a ≠ .unset → ∀ b : Assignment, b.Extends a → c.value b = c.value a) ∧
    ∀ b : Assignment, (PbConstraint.ofClause c).isSat b = c.isSat b := by
  have hyes : c.value a = .yes ↔ c.isSat a = true := value_eq_yes_iff.trans isSat_iff.symm
  refine ⟨hyes, value_eq_no_iff, ?_, fun d hd => value_perm hd,
    fun hc b hb => value_extends hb hc, PbConstraint.isSat_ofClause hlength⟩
  rw [← hyes, ← value_eq_no_iff]
  cases c.value a <;> simp

/-- A clause with an open variable in both polarities, which becomes true by one of them. -/
theorem value_sound_opposite :
    let c : Clause := [.positive 3, .negative 1, .negative 3]
    let d : Clause := [.negative 1, .negative 3, .positive 3]
    let a : Assignment := .ofValues [.yes, .no]
    let b : Assignment := a.assignVar 3 .no
    let b' : Assignment := b.assignVar 7 .yes
    c.length < litLimit ∧ a.varValue 3 = .unset ∧ b.varValue 7 = .unset ∧
      c.value a = .unset ∧ d.value a = .unset ∧ c.value b = .yes ∧ b'.Extends b ∧
      c.value b' = .yes ∧ (PbConstraint.ofClause c).isSat b' = c.isSat b' := by
  intro c d a b b'
  have hlength : c.length < litLimit := by decide
  have hvalue : c.value a = .unset := by decide
  have hvalue' : c.value b = .yes := by decide
  have hopen : b.varValue 7 = .unset := by decide
  have hextends : b'.Extends b := Assignment.extends_assignVar hopen .yes
  obtain ⟨-, -, -, hperm, -⟩ := value_sound c hlength a
  obtain ⟨-, -, -, -, hkept, hconstraint⟩ := value_sound c hlength b
  refine ⟨hlength, by decide, hopen, hvalue, ?_, hvalue', hextends, ?_, hconstraint b'⟩
  · rw [hperm d (by decide), hvalue]
  · rw [hkept (by simp [hvalue']) b' hextends, hvalue']

end Clause

end Clausal
