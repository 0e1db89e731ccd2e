import Clausal.Encoding.Cardinality
import Clausal.Error

/-!
# Collectors

A collector takes clauses and linear constraints one after the other. One that has no linear
constraints of its own takes the clauses of their encoding.
-/

namespace Clausal

/-- A constraint on its way into a collector. -/
inductive Request where
  | clause (c : Clause)
  | linear (lits : List Lit) (rel : Relation) (bound : Int)
deriving DecidableEq

namespace Request

def lits : Request → List Lit
  | clause c => c
  | linear lits _ _ => lits

def clauses : Request → List Clause
  | clause c => [c]
  | linear lits rel bound => Cardinality.clauses lits rel bound

/-- The constraints before the first one that could not be built, and its error. -/
def untilFailure : List (Except Error Request) → List Request × Except Error Unit
  | [] => ([], .ok ())
  | .ok request :: rest =>
    let (requests, result) := untilFailure rest
    (request :: requests, result)
  | .error e :: _ => ([], .error e)

end Request

/-- What constraints can be added to. -/
class Collector (C : Type) where
  size : C → Nat
  /-- Adds constraints in order. -/
  add : C → List Request → C

namespace Collector

variable {C : Type} [Collector C]

def addClauses (c : C) (clauses : List Clause) : C :=
  add c (clauses.map .clause)

/-- Adds constraints in order, up to the first that could not be built. -/
def addAll (c : C) (requests : List (Except Error Request)) : Except Error Unit × C :=
  let (built, result) := Request.untilFailure requests
  (result, add c built)

end Collector

/-- A list collects clauses. -/
instance : Collector (List Clause) where
  size := List.length
  add cs requests := cs ++ requests.flatMap Request.clauses

end Clausal
