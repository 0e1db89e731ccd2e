import Clausal.Limits
import Mathlib.Order.Defs.LinearOrder

/-!
# Comparing saturated bounds

Taking the nearest bound in range changes no comparison with a number that is in range itself and
not the end on which the bounds pile up. The number of literals of a list in memory is far from
either end.
-/

namespace Clausal

/-- Lists of literals, of four bytes each, are shorter than 2⁶². -/
def litLimit : Nat := 4611686018427387904

theorem clampInt_le_iff {x c : Int} (hlow : minInt ≤ c) (hhigh : c < maxInt) :
    clampInt x ≤ c ↔ x ≤ c := by
  simp only [clampInt, minInt, maxInt] at *
  omega

theorem le_clampInt_iff {x c : Int} (hlow : minInt < c) (hhigh : c ≤ maxInt) :
    c ≤ clampInt x ↔ c ≤ x := by
  simp only [clampInt, minInt, maxInt] at *
  omega

theorem countInt_of_le {n : Nat} (h : (n : Int) ≤ maxInt) : countInt n = n := by
  simp only [countInt, maxInt] at *
  omega

/-- A number is in the range of the bounds. -/
def FitsInt (x : Int) : Prop := minInt ≤ x ∧ x ≤ maxInt

instance (x : Int) : Decidable (FitsInt x) :=
  inferInstanceAs (Decidable (minInt ≤ x ∧ x ≤ maxInt))

theorem checkedInt_of_fits {x : Int} (h : FitsInt x) : checkedInt x = some x := if_pos h

theorem checkedInt_eq_none_iff {x : Int} : checkedInt x = none ↔ ¬ FitsInt x := by
  rw [checkedInt, FitsInt]
  split_ifs with h <;> simp [h]

theorem checkedInt_eq_some_iff {x y : Int} :
    checkedInt x = some y ↔ y = x ∧ minInt ≤ x ∧ x ≤ maxInt := by
  rw [checkedInt]
  split_ifs with h
  · simp [h, eq_comm]
  · simp only [false_iff]
    exact fun hx => h hx.2

theorem checkedWord_eq_some_iff {m n : Nat} : checkedWord m = some n ↔ m = n ∧ m < wordSize := by
  rw [checkedWord]
  split_ifs with h
  · simp [h]
  · simp [h]

end Clausal
