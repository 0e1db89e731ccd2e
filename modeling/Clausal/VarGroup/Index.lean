import Clausal.Error

/-!
# Identifiers, indices and patterns

A group of variables owns consecutive identifiers and names each of them by an index, a list of
numbers of a fixed length. A pattern is an index with some components left open; the empty pattern
leaves all of them open.
-/

namespace Clausal

/-! ## Identifiers -/

/-- The identifiers `first, …, first + size - 1`. -/
structure IdRange where
  first : Nat
  size : Nat
deriving DecidableEq

namespace IdRange

/-- The identifier after the last one. -/
def stop (r : IdRange) : Nat := r.first + r.size

/-- The last identifier. Of an empty range, the one before the first. -/
def last (r : IdRange) : Nat := r.stop - 1

def contains (r : IdRange) (l : Lit) : Bool := r.first ≤ l.var && l.var < r.stop

/-- The identifiers in ascending order. -/
def toList (r : IdRange) : List Nat := List.range' r.first r.size

/-- The range of `size` identifiers from `start` on, if none of them exceeds `maxVar`. An empty
range may start right after `maxVar`, but not at zero. -/
def alloc (start size : Nat) : Except Error IdRange :=
  if 0 < start + size ∧ start + size ≤ maxVar + 1 then .ok ⟨start, size⟩
  else .error (.tooManyVariables size start)

def outside (r : IdRange) (l : Lit) : Error := .notInGroup l.var r.first r.last

end IdRange

/-! ## Indices and patterns -/

/-- The components of an index. -/
abbrev Index := List Nat

/-- An index with open components. -/
abbrev Pattern := List (Option Nat)

def Index.checkLength (index : Index) (arity : Nat) : Except Error Unit :=
  if index.length = arity then .ok () else .error (.indexLength index.length arity)

namespace Pattern

/-- The pattern with all components written out. -/
def expand (p : Pattern) (arity : Nat) : Except Error Pattern :=
  if p.isEmpty then .ok (List.replicate arity none)
  else if p.length = arity then .ok p
  else .error (.patternLength p.length arity)

/-- Whether an index agrees with the fixed components. -/
def admits (p : Pattern) (index : Index) : Bool :=
  (p.zip index).all fun (fixed, i) => fixed.all (· == i)

/-- The components of a pattern that leaves none open. -/
def fixed? (p : Pattern) : Option Index :=
  p.mapM id

end Pattern

end Clausal
