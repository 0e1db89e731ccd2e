import Clausal.Clause
import Clausal.VarGroup.Index
import Clausal.Label

/-!
# Mappings, bit by bit

A mapping from `1, …, n` to `0, …, m - 1` has one variable for each element and bit of its image.
Element `i` owns the variables of its bits from the highest position to position 0.
-/

namespace Clausal

/-- A mapping with one variable for each bit. -/
structure BinaryMapping where
  ids : IdRange
  n : Nat
  m : Nat
  bits : Nat
  format : LabelFormat
deriving DecidableEq

namespace BinaryMapping

def defaultLabel : String := "v(\x7b\x7d,\x7b\x7d)"

/-- The number of bits that `0, …, m - 1` are written with. -/
def bitsFor (m : Nat) : Nat :=
  if m ≤ 1 then 0 else Nat.log2 (m - 1) + 1

/-- The mapping from `n` elements to `m` images. -/
def create (start n m : Nat) (label : Option String) : Except Error BinaryMapping := do
  if n = 0 ∨ m = 0 then throw (.emptyMapping n m)
  let bits := bitsFor m
  match checkedWord (n * bits) with
  | none => throw .mappingTooLarge
  | some size =>
    let ids ← IdRange.alloc start size
    let format ← LabelFormat.parse (label.getD defaultLabel) 2
    return ⟨ids, n, m, bits, format⟩

def checkDomain (f : BinaryMapping) (i : Nat) : Except Error Unit :=
  if i = 0 ∨ f.n < i then .error (.domain i f.n) else .ok ()

def checkBit (f : BinaryMapping) (b : Nat) : Except Error Unit :=
  if b < f.bits then .ok () else .error (.bit b f.bits)

/-- The literal of bit `b` of element `i`, both known to be valid. -/
def litAt (f : BinaryMapping) (i b : Nat) : Lit :=
  .positive (f.ids.first + i * f.bits - b - 1)

/-- The bit positions, highest first. -/
def bitPositions (f : BinaryMapping) : List Nat := (List.range f.bits).reverse

def domain (f : BinaryMapping) : List Nat := List.range' 1 f.n

def range (f : BinaryMapping) : List Nat := List.range f.m

/-- The numbers that can be written with the bits of an element and are no images. -/
def excess (f : BinaryMapping) : List Nat := List.range' f.m (bitRange f.bits - f.m)

/-- The clause that is false exactly when element `i` is mapped to `j`. -/
def forbid (f : BinaryMapping) (i j : Nat) : Except Error Clause := do
  f.checkDomain i
  if bitRange f.bits ≤ j then throw (.tooFewBits j f.bits)
  return f.bitPositions.map fun b => (f.litAt i b).flipIf (j.testBit b)

/-- The elements and bits that match a pair of fixed or open components. Without bits there are
none, whatever the elements are. -/
def pairsAt (f : BinaryMapping) (element bit : Option Nat) : List (Nat × Nat) :=
  let bits := match bit with
    | some b => [b]
    | none => f.bitPositions
  if bits.isEmpty then []
  else
    let elements := match element with
      | some i => [i]
      | none => f.domain
    elements.flatMap fun i => bits.map (i, ·)

/-- The elements and bits that match a pattern. Both components are checked before anything is
listed. -/
def matching (f : BinaryMapping) (p : Pattern) : Except Error (List (Nat × Nat)) := do
  let p ← p.expand 2
  let element := p[0]?.join
  let bit := p[1]?.join
  element.forM f.checkDomain
  bit.forM f.checkBit
  return f.pairsAt element bit

def indices (f : BinaryMapping) (p : Pattern) : Except Error (List Index) :=
  (f.matching p).map fun es => es.map fun (i, b) => [i, b]

def evaluate (f : BinaryMapping) (index : Index) : Except Error Lit :=
  match index with
  | [i, b] => do
    f.checkDomain i
    f.checkBit b
    return f.litAt i b
  | _ => .error (.indexLength index.length 2)

def lits (f : BinaryMapping) (p : Pattern) : Except Error (List Lit) :=
  (f.matching p).map fun es => es.map fun (i, b) => f.litAt i b

def toIndex (f : BinaryMapping) (l : Lit) : Except Error Index :=
  if f.ids.contains l then
    let number := l.var - f.ids.first
    .ok [number / f.bits + 1, f.bits - 1 - number % f.bits]
  else .error (f.ids.outside l)

def renderLabel (f : BinaryMapping) (index : Index) : String :=
  f.format.render (index.map toString)

end BinaryMapping

end Clausal
