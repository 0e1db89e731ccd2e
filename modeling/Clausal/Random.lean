/-!
# Random choices

Choices are made from an endless sequence of 32-bit words. How many words a choice takes depends on
the words; the source counts them.
-/

namespace Clausal

/-- A sequence of words and the number of those already taken. -/
structure WordSource where
  words : Nat → Nat
  used : Nat

/-- The words of a list over and over again. -/
def WordSource.cycle (words : List Nat) : WordSource :=
  ⟨fun i => words[i % words.length]?.getD 0, 0⟩

/-- A computation that takes words. -/
abbrev Draw (α : Type) := StateM WordSource α

namespace Draw

/-- The number of values of a word. -/
def wordValues : Nat := 4294967296

def word : Draw Nat :=
  modifyGet fun source => (source.words source.used, { source with used := source.used + 1 })

/-- A number below `bound`. A second word settles the cases in which the first one is not fine
enough. -/
def below (bound : Nat) : Draw Nat := do
  let product := (← word) * bound
  let high := product / wordValues
  let low := product % wordValues
  if wordValues - bound < low then
    let carry := (← word) * bound / wordValues
    return if wordValues ≤ low + carry then high + 1 else high
  else return high

/-- A truth value: whether a number of two words, low word first, is in the lower half. -/
def coin : Draw Bool := do
  let _ ← word
  return 2 * (← word) < wordValues

/-! ## Permutations -/

/-- Multiplies `product` by `factor`, `factor + 1`, … as long as it fits into a word, and counts the
factors on top of `count`. -/
def longestProduct : Nat → Nat → Nat → Nat → Nat × Nat
  | 0, product, _, count => (product, count)
  | fuel + 1, product, factor, count =>
    if product * factor < wordValues then
      longestProduct fuel (product * factor) (factor + 1) (count + 1)
    else (product, count)

/-- Indices below 1, 2, 3, …, several of which are taken from one number: its digits in the mixed
base `n`, `n + 1`, …. -/
structure Chooser where
  /-- The number of indices chosen so far. -/
  n : Nat
  /-- The digits that are left. -/
  chunk : Nat
  remaining : Nat

/-- The first index is 0 and needs no word. -/
def Chooser.start : Chooser := ⟨0, 0, 1⟩

def Chooser.next (chooser : Chooser) : Draw (Nat × Chooser) := do
  let n := chooser.n + 1
  let (chunk, remaining) ←
    if chooser.remaining = 0 then do
      let (bound, count) := longestProduct 32 n (n + 1) 1
      pure (← below bound, count - 1)
    else pure (chooser.chunk, chooser.remaining - 1)
  if remaining = 0 then return (chunk, ⟨n, chunk, 0⟩)
  else return (chunk % n, ⟨n, chunk / n, remaining⟩)

/-- Swaps each of the next `count` elements, from position `i` on, with one at or before it. -/
def shuffleFrom {α : Type} : Nat → Nat → Chooser → Array α → Draw (Array α)
  | 0, _, _, xs => return xs
  | count + 1, i, chooser, xs => do
    let (j, chooser) ← chooser.next
    shuffleFrom count (i + 1) chooser (xs.swapIfInBounds i j)

/-- The elements in random order. -/
def shuffle {α : Type} (xs : List α) : Draw (List α) :=
  if xs.length ≤ 1 then return xs
  else return (← shuffleFrom xs.length 0 .start xs.toArray).toList

end Draw

end Clausal
