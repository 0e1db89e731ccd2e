import Clausal.Label
import Clausal.Selection
import Clausal.VarGroup.Index

/-!
# Blocks

A block has one variable for each tuple `(i₁, …, i_d)` with `1 ≤ i_j ≤ r_j`. Tuples are numbered in
lexicographic order, so a component weighs as much as there are tuples of the components after it.
-/

namespace Clausal

structure Block where
  ids : IdRange
  ranges : List Nat
  weights : List Nat
  format : LabelFormat
deriving DecidableEq

namespace Block

/-! ## Addresses -/

/-- The weights of the components together with the number of tuples, if it is a word. -/
def weigh? : List Nat → Option (List Nat × Nat)
  | [] => some ([], 1)
  | r :: ranges =>
    (weigh? ranges).bind fun (weights, size) =>
      (checkedWord (size * r)).map fun total => (size :: weights, total)

/-- The number of tuples before a given one. -/
def offset : List Nat → Index → Nat
  | w :: weights, i :: index => (i - 1) * w + offset weights index
  | _, _ => 0

/-- The tuple with a given number. -/
def digits : List Nat → Nat → Index
  | [], _ => []
  | w :: weights, number => (number / w + 1) :: digits weights (number % w)

/-! ## The group -/

/-- Reads the label of a block with `arity` dimensions. -/
def parseLabel (label : Option String) (arity : Nat) : Except Error LabelFormat :=
  LabelFormat.parse (label.getD (LabelFormat.tuple "X" arity)) arity

/-- The block with the given dimensions. -/
def create (start : Nat) (ranges : List Nat) (label : Option String) : Except Error Block := do
  if ranges.isEmpty then throw .noDimension
  match ranges.findIdx? (· = 0) with
  | some i => throw (.emptyDimension (i + 1))
  | none =>
    match weigh? ranges with
    | none => throw .blockTooLarge
    | some (weights, size) =>
      let format ← parseLabel label ranges.length
      let ids ← IdRange.alloc start size
      return ⟨ids, ranges, weights, format⟩

def arity (g : Block) : Nat := g.ranges.length

/-- Refuses the first fixed component that is outside of its dimension. -/
def checkFrom (position : Nat) : Pattern → List Nat → Except Error Unit
  | some i :: p, r :: ranges =>
    if i = 0 ∨ r < i then .error (.component position i r) else checkFrom (position + 1) p ranges
  | none :: p, _ :: ranges => checkFrom (position + 1) p ranges
  | _, _ => .ok ()

/-- The values of each component that a pattern allows. -/
def choices (p : Pattern) (ranges : List Nat) : List (List Nat) :=
  List.zipWith (fun fixed r => match fixed with
    | some i => [i]
    | none => List.range' 1 r) p ranges

/-- The indices that match a pattern, in lexicographic order. -/
def indices (g : Block) (p : Pattern) : Except Error (List Index) := do
  let p ← p.expand g.arity
  checkFrom 1 p g.ranges
  return tuples (choices p g.ranges)

/-- The literal of an index that is known to be valid. -/
def litAt (g : Block) (index : Index) : Lit :=
  .positive (g.ids.first + offset g.weights index)

def evaluate (g : Block) (index : Index) : Except Error Lit := do
  index.checkLength g.arity
  checkFrom 1 (index.map some) g.ranges
  return g.litAt index

def lits (g : Block) (p : Pattern) : Except Error (List Lit) :=
  (g.indices p).map fun is => is.map g.litAt

def toIndex (g : Block) (l : Lit) : Except Error Index :=
  if g.ids.contains l then .ok (digits g.weights (l.var - g.ids.first))
  else .error (g.ids.outside l)

def renderLabel (g : Block) (index : Index) : String :=
  g.format.render (index.map toString)

end Block

end Clausal
