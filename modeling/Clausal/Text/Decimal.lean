/-!
# Decimal numbers

Reading a number from its decimal digits.
-/

namespace Clausal

/-- The number written with some decimal digits, of which there has to be one. -/
def digitsValue? (digits : List Char) : Option Nat :=
  if digits.isEmpty || digits.any (fun c => !c.isDigit) then none
  else some (digits.foldl (fun value c => 10 * value + (c.toNat - '0'.toNat)) 0)

end Clausal
