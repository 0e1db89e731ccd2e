import Clausal.Encoding.Mapping
import Clausal.VarGroup.Checked

/-!
# Complete mappings, step by step

The clauses that make a mapping with one variable for each bit complete, with the steps of arithmetic
that list them: the largest number that the bits can write, the numbers up to it one after the other,
and the shifts of each clause.
-/

namespace Clausal

/-- A word with a one at a place, if words have this place. -/
def checkedPower (place : Nat) : Option Nat :=
  if place < wordBits then some (1 <<< place) else none

/-- The numbers from `first` to `last`, one after the other. Nothing is added to the last one, which
may be the largest word. -/
def checkedCount (first last : Nat) : Option (List Nat) :=
  if first < last then do
    let _ ← checkedWord (first + 1)
    let rest ← checkedCount (first + 1) last
    return first :: rest
  else if first = last then some [first]
  else some []
termination_by last - first

namespace BinaryMapping

/-- The largest number that the bits of an element can write, which is the largest word if there is no
place behind them. -/
def checkedTop (f : BinaryMapping) : Option Nat :=
  match checkedPower f.bits with
  | some power => checkedSub power 1
  | none => some (wordSize - 1)

/-- The clauses that forbid the numbers in excess, of literals that come from elsewhere. -/
def completeWith (f : BinaryMapping) (lit : Nat → Nat → Option Lit) : Checked (List Clause) := do
  let top ← Checked.step f.checkedTop
  let elements ← Checked.step (checkedCount 1 f.n)
  let clauses ← elements.mapM fun i => do
    let excess ← Checked.step (checkedCount f.m top)
    excess.mapM (f.forbidWith lit i)
  return clauses.flatten

end BinaryMapping

end Clausal
