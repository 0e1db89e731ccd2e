import Clausal.Collector

/-!
# Parity constraints

How many of some literals are true, modulo 2, stated by clauses over these literals. Each clause
excludes one assignment of the wrong parity: a clause of flipped and unflipped literals is false
under the assignment that makes exactly the flipped ones true.

The clauses are numbered by the flips of all literals but the last, in lexicographic order with
unflipped first, so the digits of the number in base 2 are the flips. The last flip is what the
parity asks for. Any part of the list of clauses can be had without the clauses before it, and a
generator gives one clause after the other without keeping any.
-/

namespace Clausal.Parity

/-- The flips with a given number, its digits from the highest one on. -/
def flips (width number : Nat) : List Bool :=
  (List.range width).reverse.map number.testBit

/-- Whether an odd number of literals is flipped. -/
def isOdd (flips : List Bool) : Bool :=
  (flips.filter id).length % 2 = 1

/-- The clause with given flips of all literals but the last. An even number of literals is flipped
in total if `keepEven` holds, and an odd number otherwise. -/
def clauseOf (lits : List Lit) (keepEven : Bool) (flips : List Bool) : Clause :=
  List.zipWith Lit.flipIf (flips ++ [isOdd flips == keepEven]) lits

/-- The clause with a given number among those that state that the parity is `constant`. -/
def clauseAt (lits : List Lit) (constant number : Nat) : Clause :=
  clauseOf lits (constant = 1) (flips (lits.length - 1) number)

def count (lits : List Lit) : Nat := bitRange (lits.length - 1)

/-- Refuses to state the parity of no literals, or one that is neither 0 nor 1. -/
def check (lits : List Lit) (constant : Nat) : Except Error Unit :=
  if lits.isEmpty then .error .emptyParity
  else if 1 < constant then .error (.parityConstant constant)
  else .ok ()

/-- At most `take` of the clauses after the first `skip` that state that the parity of the true
literals is `constant`. -/
def slice (lits : List Lit) (constant skip take : Nat) : Except Error (List Clause) :=
  (check lits constant).map fun _ =>
    (List.range' skip (min take (count lits - skip))).map (clauseAt lits constant)

/-- The clauses that state that the parity of the true literals is `constant`. -/
def clauses (lits : List Lit) (constant : Nat) : Except Error (List Clause) :=
  slice lits constant 0 (count lits)

/-- States in a collector that the parity of the true literals is `constant`. -/
def encode {C : Type} [Collector C] (lits : List Lit) (constant : Nat) (c : C) :
    Except Error Unit × C :=
  match clauses lits constant with
  | .error e => (.error e, c)
  | .ok clauses => (.ok (), Collector.addClauses c clauses)

/-! ## One clause after the other -/

/-- The flips that follow in lexicographic order: the last literal that is not flipped is, and those
behind it are not. -/
def nextFlips : List Bool → Option (List Bool)
  | [] => none
  | f :: fs =>
    match nextFlips fs with
    | some following => some (f :: following)
    | none => if f then none else some (true :: fs.map fun _ => false)

/-- What is left of the clauses of a parity constraint. -/
structure Generator where
  lits : List Lit
  keepEven : Bool
  /-- The flips of the next clause, of all literals but the last. There are none after the last
  clause. -/
  flips : Option (List Bool)
deriving DecidableEq

namespace Generator

/-- The generator of the clauses that state that the parity of the true literals is `constant`. -/
def start (lits : List Lit) (constant : Nat) : Except Error Generator :=
  (check lits constant).map fun _ =>
    ⟨lits, constant = 1, some (List.replicate (lits.length - 1) false)⟩

/-- The next clause, and what is left behind it. -/
def next? (g : Generator) : Option (Clause × Generator) :=
  g.flips.map fun fs => (clauseOf g.lits g.keepEven fs, { g with flips := nextFlips fs })

/-- What is left when `n` clauses have been given, or all if there are fewer. -/
def drop : Nat → Generator → Generator
  | 0, g => g
  | n + 1, g =>
    match g.next? with
    | some (_, g) => drop n g
    | none => g

/-- The next `n` clauses, or all that are left if there are fewer. -/
def take : Nat → Generator → List Clause
  | 0, _ => []
  | n + 1, g =>
    match g.next? with
    | some (c, g) => c :: take n g
    | none => []

end Generator

end Clausal.Parity
