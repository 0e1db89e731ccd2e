import Clausal.Checked
import Clausal.Proofs.Limits

/-!
# Checked steps that have a result

A step has its exact result where the result fits, and a call whose parts give the results of
unchecked calls gives theirs too (`Checked.bind_eq_of`).
-/

namespace Clausal

/-! ## Steps -/

theorem checkedWord_of_lt {n : Nat} (h : n < wordSize) : checkedWord n = some n := if_pos h

theorem checkedCounter_of_lt {n : Nat} (h : n < counterSize) : checkedCounter n = some n := if_pos h

theorem checkedSub_of_le {a b : Nat} (h : b ≤ a) : checkedSub a b = some (a - b) := if_pos h

theorem checkedDiv_of_pos {b : Nat} (h : 0 < b) (a : Nat) : checkedDiv a b = some (a / b) :=
  if_neg (Nat.ne_of_gt h)

theorem checkedMod_of_pos {b : Nat} (h : 0 < b) (a : Nat) : checkedMod a b = some (a % b) :=
  if_neg (Nat.ne_of_gt h)

theorem checkedShift_of_lt {bits : Nat} (h : bits < wordBits) (word : Nat) :
    checkedShift word bits = some (word >>> bits) := if_pos h

theorem wordSize_eq : wordSize = bitRange wordBits := rfl

theorem shiftRight_and_one_beq (word b : Nat) : (word >>> b &&& 1 == 1) = word.testBit b := by
  rw [Nat.testBit_eq_decide_div_mod_eq, Nat.and_one_is_mod, Nat.shiftRight_eq_div_pow,
    Bool.beq_eq_decide_eq]

theorem shiftRight_ne_zero_iff {word bits : Nat} : word >>> bits ≠ 0 ↔ bitRange bits ≤ word := by
  rw [Nat.shiftRight_eq_div_pow, Ne, Nat.div_eq_zero_iff_lt (Nat.two_pow_pos bits), Nat.not_lt]
  rfl

theorem mapM_eq_some {α β : Type} {f : α → Option β} {g : α → β} {xs : List α}
    (h : ∀ x ∈ xs, f x = some (g x)) : xs.mapM f = some (xs.map g) := by
  induction xs with
  | nil => rfl
  | cons x xs ih =>
    rw [List.mapM_cons, h x List.mem_cons_self, ih fun y hy => h y (List.mem_cons_of_mem x hy)]
    rfl

/-! ## Calls -/

namespace Checked

variable {α β : Type}

/-- A call whose parts are calls without checked steps is one, too. -/
theorem bind_eq_of {x : Checked α} {f : α → Checked β} {y : Except Error α}
    {k : α → Except Error β} (hx : x = of y) (hf : ∀ a, y = .ok a → f a = of (k a)) :
    (x >>= f) = of (y >>= k) := by
  rw [hx]
  cases y with
  | error e => rfl
  | ok a => exact hf a rfl

theorem bind_eq_of_map {x : Checked α} {f : α → Checked β} {y : Except Error α} {k : α → β}
    (hx : x = of y) (hf : ∀ a, y = .ok a → f a = of (.ok (k a))) : (x >>= f) = of (y.map k) := by
  rw [hx]
  cases y with
  | error e => rfl
  | ok a => exact hf a rfl

theorem mapM_eq_of {f : α → Checked β} {g : α → β} {xs : List α}
    (h : ∀ x ∈ xs, f x = of (.ok (g x))) : xs.mapM f = of (.ok (xs.map g)) := by
  induction xs with
  | nil => rfl
  | cons x xs ih =>
    rw [List.mapM_cons, h x List.mem_cons_self, of_ok_bind,
      ih fun y hy => h y (List.mem_cons_of_mem x hy)]
    rfl

end Checked

end Clausal
