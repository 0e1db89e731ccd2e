import Clausal.Encoding.Cardinality
import Clausal.Proofs.Limits
import Mathlib.Order.Bounds.Basic

/-!
# The bounds of majorities

What is asked of the true literals among `n` literals is a comparison with a `threshold`, which is
half of `n`, rounded as the comparison needs it (`Majority.holds_threshold_iff`). The bound that is
used for it is the threshold, or the largest bound where the threshold is not in range
(`Majority.bound_eq_min`).

This is so for all numbers of literals that fit into a word, but for the strict minorities. Their
threshold is always in range, but it is computed from the number of literals as a bound, so that more
literals than the largest bound are given the largest bound (`Majority.bound_right_iff`).
-/

namespace Clausal.Majority

/-- Whether `t` true literals are what is asked for of `k` literals. -/
def Holds (majority : Majority) (t k : Nat) : Prop :=
  match majority with
  | looseMajority => 2 * t ≥ k
  | looseMinority => 2 * t ≤ k
  | strictMajority => 2 * t > k
  | strictMinority => 2 * t < k

/-! ## Thresholds -/

/-- `c` is the least integer that is a majority of `n`, or the greatest one that is a minority. -/
def IsThreshold (majority : Majority) (n : Nat) (c : Int) : Prop :=
  match majority with
  | looseMajority => IsLeast {s : Int | 2 * s ≥ n} c
  | looseMinority => IsGreatest {s : Int | 2 * s ≤ n} c
  | strictMajority => IsLeast {s : Int | 2 * s > n} c
  | strictMinority => IsGreatest {s : Int | 2 * s < n} c

def threshold (majority : Majority) (n : Nat) : Int :=
  match majority with
  | looseMajority => ((n : Int) + 1) / 2
  | looseMinority => (n : Int) / 2
  | strictMajority => (n : Int) / 2 + 1
  | strictMinority => ((n : Int) - 1) / 2

variable (majority : Majority) {n : Nat}

theorem isThreshold_threshold (n : Nat) : majority.IsThreshold n (majority.threshold n) := by
  -- halves, rounded down or up, are linear facts
  cases majority <;> refine ⟨?_, fun s hs => ?_⟩ <;>
    simp only [threshold, Set.mem_ofPred_eq] at * <;> omega

/-- A strict minority of no literals at all has the threshold -1. -/
theorem holds_threshold_iff (t k : Nat) :
    majority.relation.Holds t (majority.threshold k) ↔ majority.Holds t k := by
  cases majority <;> simp only [relation, threshold, Relation.Holds, Holds] <;> omega

theorem threshold_le (k : Nat) : majority.threshold k ≤ k + 1 := by
  cases majority <;> simp only [threshold] <;> omega

theorem minInt_le_threshold (k : Nat) : minInt ≤ majority.threshold k := by
  cases majority <;> simp only [threshold, minInt] <;> omega

/-! ## Bounds -/

theorem bound_eq_min (h : majority = .strictMinority → (n : Int) ≤ maxInt) :
    majority.bound n = min (majority.threshold n) maxInt := by
  cases majority with
  | looseMajority | looseMinority | strictMajority => rfl
  | strictMinority =>
    have hle := h rfl
    have hhalf : ((n : Int) - 1) / 2 ≤ maxInt := by omega
    rw [bound, Cardinality.strictMinorityBound, if_pos hle, threshold, min_eq_left hhalf]

theorem bound_strictMinority_of_lt (h : maxInt < n) : strictMinority.bound n = maxInt :=
  if_neg (Int.not_le.mpr h)

theorem holds_bound_iff {k : Nat} (h : (k : Int) < maxInt) (t : Nat) :
    majority.relation.Holds t (majority.bound k) ↔ majority.Holds t k := by
  have hle : majority.threshold k ≤ maxInt := (majority.threshold_le k).trans h
  rw [majority.bound_eq_min fun _ => h.le, min_eq_left hle, holds_threshold_iff]

/-- The bound of a majority whose threshold is `c` says what is asked for if `c` is in range, and is
the largest bound otherwise. -/
structure BoundRight (n : Nat) (c : Int) : Prop where
  holds_iff : FitsInt c → ∀ s ≤ n,
    (majority.relation.Holds s (majority.bound n) ↔ majority.Holds s n)
  eq_maxInt : ¬ FitsInt c → majority.bound n = maxInt

theorem boundRight_of_eq_min (h : majority.bound n = min (majority.threshold n) maxInt) :
    majority.BoundRight n (majority.threshold n) where
  holds_iff hfits s _ := by
    rw [h, min_eq_left hfits.2, holds_threshold_iff]
  eq_maxInt hfits := by
    have hlarge : maxInt < majority.threshold n := by
      by_contra hle
      exact hfits ⟨majority.minInt_le_threshold n, Int.not_lt.mp hle⟩
    rw [h, min_eq_right hlarge.le]

/-- Half of the literals are taken for less than half of them. -/
theorem not_boundRight_of_lt (hlow : maxInt < n) (hhigh : n + 1 < wordSize) :
    ¬ strictMinority.BoundRight n (strictMinority.threshold n) := by
  intro hright
  have hfits : FitsInt (strictMinority.threshold n) := by
    refine ⟨strictMinority.minInt_le_threshold n, ?_⟩
    simp only [threshold, maxInt, wordSize] at *
    omega
  have hhalf : strictMinority.relation.Holds ((n + 1) / 2 : Nat) (strictMinority.bound n) := by
    rw [bound_strictMinority_of_lt hlow, relation, Relation.Holds]
    simp only [maxInt, wordSize] at *
    omega
  have hholds : 2 * ((n + 1) / 2) < n := (hright.holds_iff hfits _ (by omega)).mp hhalf
  omega

/-- **The bounds of majorities are right, but for strict minorities of many literals.** All
majorities of a number of literals that fits into a word have a threshold. The bound states it, or is
the largest one where the threshold is not in range; except that a strict minority of more literals
than the largest bound is given this bound, which is right for the largest word only. -/
theorem bound_right_iff (hn : n < wordSize) : ∃ c, majority.IsThreshold n c ∧
    (majority.BoundRight n c ↔
      (majority = .strictMinority → (n : Int) ≤ maxInt ∨ n + 1 = wordSize)) ∧
    (¬ majority.BoundRight n c → majority.bound n = maxInt) := by
  refine ⟨_, majority.isThreshold_threshold n, ⟨fun hright hstrict => ?_, fun h => ?_⟩, ?_⟩
  · subst hstrict
    by_contra hnot
    exact not_boundRight_of_lt (by omega) (by omega) hright
  · apply boundRight_of_eq_min
    by_cases hsmall : majority = .strictMinority → (n : Int) ≤ maxInt
    · exact majority.bound_eq_min hsmall
    · -- the threshold of the largest word is the largest bound
      push Not at hsmall
      obtain ⟨rfl, hlarge⟩ := hsmall
      have hlast := (h rfl).resolve_left (Int.not_le.mpr hlarge)
      rw [bound_strictMinority_of_lt hlarge]
      simp only [threshold, maxInt, wordSize] at *
      omega
  · intro hwrong
    have hlarge : majority = .strictMinority ∧ maxInt < n := by
      by_contra hnot
      refine hwrong (majority.boundRight_of_eq_min (majority.bound_eq_min fun hstrict => ?_))
      exact Int.not_lt.mp fun hlt => hnot ⟨hstrict, hlt⟩
    obtain ⟨rfl, hlarge⟩ := hlarge
    exact bound_strictMinority_of_lt hlarge

/-- Half of the largest word, rounded up, is not in range. -/
theorem bound_right_iff_largest :
    18446744073709551615 < wordSize ∧
      looseMajority.IsThreshold 18446744073709551615 9223372036854775808 ∧
      looseMajority.bound 18446744073709551615 = maxInt := by
  obtain ⟨c, hthreshold, hright, -⟩ :=
    bound_right_iff looseMajority (show 18446744073709551615 < wordSize by decide)
  obtain rfl : c = 9223372036854775808 :=
    hthreshold.unique (looseMajority.isThreshold_threshold 18446744073709551615)
  exact ⟨by decide, hthreshold, (hright.mpr nofun).eq_maxInt (by decide)⟩

/-- Half of as many literals as there are bounds that are not negative counts as a strict
minority. -/
theorem exists_overshooting_bound :
    let n := 9223372036854775808
    let s := 4611686018427387904
    n < wordSize ∧ strictMinority.IsThreshold n 4611686018427387903 ∧
      FitsInt 4611686018427387903 ∧ s ≤ n ∧
      strictMinority.relation.Holds s (strictMinority.bound n) ∧ ¬ strictMinority.Holds s n := by
  intro n s
  have hthreshold : strictMinority.threshold n = 4611686018427387903 := by decide
  have hwrong : ¬ 2 * s < n := by decide
  exact ⟨by decide, hthreshold ▸ strictMinority.isThreshold_threshold n, by decide, by decide,
    by decide, hwrong⟩

end Clausal.Majority
