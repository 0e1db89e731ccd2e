import Clausal.Error

/-!
# Checked steps

Numbers are kept in words and counters, so a step of arithmetic means what it says only if its
result fits. The steps here have no result where it does not. A `Checked` call may therefore end in
three ways: with a result, with an error, or at a step without a result.
-/

namespace Clausal

/-! ## Steps -/

/-- The number of bits of a word. -/
def wordBits : Nat := 64

/-- A number, if it fits into a counter. -/
def checkedCounter (n : Nat) : Option Nat :=
  if n < counterSize then some n else none

def checkedSub (a b : Nat) : Option Nat :=
  if b ≤ a then some (a - b) else none

def checkedDiv (a b : Nat) : Option Nat :=
  if b = 0 then none else some (a / b)

def checkedMod (a b : Nat) : Option Nat :=
  if b = 0 then none else some (a % b)

/-- A word without its lowest bits, which cannot be all of its bits or more. -/
def checkedShift (word bits : Nat) : Option Nat :=
  if bits < wordBits then some (word >>> bits) else none

/-! ## Calls -/

/-- A call with checked steps. -/
abbrev Checked := ExceptT Error Option

namespace Checked

variable {α β : Type}

/-- A step that has to have a result. -/
def step (x : Option α) : Checked α := ExceptT.lift x

/-- A call without steps to check. -/
def of (outcome : Except Error α) : Checked α := ExceptT.mk (some outcome)

@[simp] theorem pure_eq (a : α) : (pure a : Checked α) = of (.ok a) := rfl

@[simp] theorem throw_eq (e : Error) : (throw e : Checked α) = of (.error e) := rfl

@[simp] theorem of_ok_bind (a : α) (f : α → Checked β) : (of (.ok a) >>= f) = f a := rfl

@[simp] theorem step_some (a : α) : step (some a) = of (.ok a) := rfl

end Checked

end Clausal
