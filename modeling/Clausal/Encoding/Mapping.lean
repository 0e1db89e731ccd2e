import Clausal.Collector
import Clausal.VarGroup

/-!
# Properties of mappings

Constraints that make the variables of a mapping describe a mapping with a given property. With one
variable for each pair an element may have several images or none, so being total and being
single-valued are properties of their own. Bit by bit each element has exactly one number; it is
total when all numbers are images.

The constraints are listed in the order in which they are added, each with the error that stops the
list if it cannot be built.
-/

namespace Clausal

/-- A property of mappings. -/
inductive MappingProperty where
  /-- Every element has an image. -/
  | complete
  /-- No element has two images. -/
  | functional
  /-- Every image is hit. -/
  | surjective
  /-- No two elements share an image. -/
  | injective
  /-- A later element has no smaller image than an earlier one. -/
  | nondecreasing
deriving DecidableEq

/-- The pairs of an element of one list and a smaller one of another list, which is increasing. -/
def descents : List Nat → List Nat → List (Nat × Nat)
  | [], _ => []
  | v :: vs, ws => (ws.takeWhile (· < v)).map (v, ·) ++ descents vs ws

namespace UnaryMapping

/-- The literals of the images of an element. -/
def row (f : UnaryMapping) (u : Nat) : Except Error (List Lit) := f.pairs.lits [some u, none]

/-- The literals of the elements of an image. -/
def column (f : UnaryMapping) (v : Nat) : Except Error (List Lit) := f.pairs.lits [none, some v]

/-- Not both of two pairs are in the mapping. -/
def exclude (f : UnaryMapping) (u v u' v' : Nat) : Except Error Request := do
  let first ← f.pairs.evaluate [u, v]
  let second ← f.pairs.evaluate [u', v']
  return .clause [first.flip, second.flip]

/-- The elements with their possible images. -/
def rows (f : UnaryMapping) : List (Nat × List Nat) := f.domain.map fun u => (u, f.rangeOf u)

/-- The constraints of a property. No image is smaller than 1, so only elements with an image above
it are compared with later ones. -/
def requests (f : UnaryMapping) : MappingProperty → List (Except Error Request)
  | .complete => f.domain.map fun u => (f.row u).map .clause
  | .functional => f.domain.map fun u => (f.row u).map (.linear · .le 1)
  | .surjective => f.range.map fun v => (f.column v).map .clause
  | .injective => f.range.map fun v => (f.column v).map (.linear · .le 1)
  | .nondecreasing =>
    ((suffixes f.rows).filter fun ((_, row), _) => row.any (1 < ·)).flatMap fun ((u, row), later) =>
      later.flatMap fun (u', row') =>
        (descents row row').map fun (v, v') => f.exclude u v u' v'

end UnaryMapping

namespace BinaryMapping

/-- Element `i` is not mapped to `j`, or element `i'` is not mapped to `j'`. -/
def exclude (f : BinaryMapping) (i j i' j' : Nat) : Except Error Request := do
  let first ← f.forbid i j
  let second ← f.forbid i' j'
  return .clause (first ++ second)

/-- The constraints of a property. Every element has one number anyway, and being surjective is not
asked of numbers. There is nothing to say where all numbers are images, or where there are no two
elements or no two images to compare. -/
def requests (f : BinaryMapping) : MappingProperty → List (Except Error Request)
  | .complete =>
    if bitRange f.bits ≤ f.m then []
    else f.domain.flatMap fun i => f.excess.map fun j => (f.forbid i j).map .clause
  | .functional => []
  | .surjective => []
  | .injective =>
    if f.n ≤ 1 then []
    else f.range.flatMap fun j => (laterPairs f.domain).map fun (i, i') => f.exclude i j i' j
  | .nondecreasing =>
    if f.n ≤ 1 ∨ f.m ≤ 1 then []
    else
      (laterPairs f.domain).flatMap fun (i, i') =>
        (laterPairs f.range).map fun (j, j') => f.exclude i j' i' j

end BinaryMapping

/-- A mapping in either representation. -/
inductive Mapping where
  | unary (f : UnaryMapping)
  | binary (f : BinaryMapping)
deriving DecidableEq

namespace Mapping

def toGroup : Mapping → VarGroup
  | unary f => .unary f
  | binary f => .binary f

/-- The mapping whose variables are those of a group, if it is one. -/
def ofGroup? : VarGroup → Option Mapping
  | .unary f => some (unary f)
  | .binary f => some (binary f)
  | _ => none

def requests (f : Mapping) (property : MappingProperty) : List (Except Error Request) :=
  match f with
  | unary f => f.requests property
  | binary f => f.requests property

end Mapping

end Clausal
