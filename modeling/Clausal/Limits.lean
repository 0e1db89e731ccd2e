/-!
# Number ranges

Variables are numbered so that every literal fits into a signed 32-bit integer. Counters of
variables are 32-bit words, sizes and coefficients 64-bit words, bounds signed 64-bit integers.
Numbers are kept as `Nat` and `Int`; the functions here say where a range ends.
-/

namespace Clausal

/-- The largest variable identifier, the largest value of a signed 32-bit integer. -/
def maxVar : Nat := 2147483647

/-- The number of values of a variable counter, which has 32 bits. -/
def counterSize : Nat := 4294967296

/-- The number of values of a size or a coefficient, which have 64 bits. -/
def wordSize : Nat := 18446744073709551616

/-- The smallest bound of a linear constraint. -/
def minInt : Int := -9223372036854775808

/-- The largest bound of a linear constraint. -/
def maxInt : Int := 9223372036854775807

/-- The number of values of `bits` bits. -/
def bitRange (bits : Nat) : Nat := Nat.pow 2 bits

/-- A size, if it fits into a word. -/
def checkedWord (n : Nat) : Option Nat :=
  if n < wordSize then some n else none

/-- A bound, if it is in range. -/
def checkedInt (x : Int) : Option Int :=
  if minInt ≤ x ∧ x ≤ maxInt then some x else none

/-- The bound nearest to `x` that is in range. -/
def clampInt (x : Int) : Int :=
  max minInt (min x maxInt)

/-- A number of elements as a bound. -/
def countInt (n : Nat) : Int :=
  min (n : Int) maxInt

end Clausal
