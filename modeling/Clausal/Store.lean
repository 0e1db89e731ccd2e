import Clausal.Collector
import Clausal.PseudoBoolean

/-!
# Stores

A store is a list of constraints together with the number of variables. The number may exceed the
highest variable of the constraints, and never goes down. Clauses make a CNF, normalized
pseudo-boolean constraints make an OPB.
-/

namespace Clausal

/-! ## Constraints -/

/-- What a store can hold. -/
class Constraint (K : Type) where
  /-- The constraint that a clause becomes. -/
  ofClause : Clause → K
  /-- The constraints that a linear constraint becomes. -/
  ofLinear : List Lit → Relation → Int → List K
  lits : K → List Lit
  /-- The constraint in pseudo-boolean form. -/
  toPb : K → PbConstraint
  mapLits : (Lit → Lit) → K → K
  isSat : K → Assignment → Bool

/-- A CNF states linear constraints by clauses. -/
instance : Constraint Clause where
  ofClause c := c
  ofLinear := Cardinality.clauses
  lits c := c
  toPb := PbConstraint.ofClause
  mapLits := List.map
  isSat := Clause.isSat

/-- An OPB states linear constraints as they are, unless they have no normal form. -/
instance : Constraint PbConstraint where
  ofClause := PbConstraint.ofClause
  ofLinear lits rel bound :=
    match PbConstraint.normalize (lits.map fun l => (l, 1)) rel bound with
    | .ok c => [c]
    | .error _ => (Cardinality.clauses lits rel bound).map PbConstraint.ofClause
  lits := PbConstraint.lits
  toPb c := c
  mapLits := PbConstraint.mapLits
  isSat := PbConstraint.isSat

/-- The constraints that a request becomes. -/
def Constraint.ofRequest {K : Type} [Constraint K] : Request → List K
  | .clause c => [ofClause c]
  | .linear lits rel bound => ofLinear lits rel bound

/-! ## Stores -/

/-- A list of constraints and a number of variables. -/
structure Store (K : Type) where
  constraints : List K
  vars : Nat
deriving DecidableEq

abbrev Cnf := Store Clause

abbrev Opb := Store PbConstraint

namespace Store

variable {K : Type}

def empty : Store K := ⟨[], 0⟩

def size (s : Store K) : Nat := s.constraints.length

/-- Raises the number of variables to at least `n`. -/
def raiseVars (s : Store K) (n : Nat) : Store K := { s with vars := max s.vars n }

/-- Raises the number of variables to cover some literals. -/
def raiseTo (s : Store K) (lits : List Lit) : Store K :=
  match Lit.maxVar? lits with
  | some v => s.raiseVars v
  | none => s

def append (s : Store K) (cs : List K) : Store K := { s with constraints := s.constraints ++ cs }

/-- Moves constraint `i` to position `positions[i]`. -/
def permute (s : Store K) (positions : List Nat) : Store K :=
  let placed := (positions.zip s.constraints).reverse
  { s with constraints := (List.range s.size).filterMap fun i => placed.lookup i }

section

variable [Constraint K]

/-- Appends a clause, keeping the number of variables. -/
def pushClause (s : Store K) (c : Clause) : Store K := s.append [Constraint.ofClause c]

/-- Appends a linear constraint, keeping the number of variables. -/
def pushLinear (s : Store K) (lits : List Lit) (rel : Relation) (bound : Int) : Store K :=
  s.append (Constraint.ofLinear lits rel bound)

/-- Appends constraints and covers the literals that they are about. -/
def collect (s : Store K) (requests : List Request) : Store K :=
  (s.raiseTo (requests.flatMap Request.lits)).append (requests.flatMap Constraint.ofRequest)

def substitute (s : Store K) (f : Lit → Lit) : Store K :=
  { s with constraints := s.constraints.map (Constraint.mapLits f) }

def isSat (s : Store K) (a : Assignment) : Bool :=
  s.constraints.all (Constraint.isSat · a)

end

end Store

def Cnf.ofClauses (clauses : List Clause) : Cnf :=
  Store.empty.collect (clauses.map .clause)

/-- Adds a pseudo-boolean constraint in normal form and covers its literals. -/
def Opb.addConstraint (s : Opb) (terms : List (Lit × Int)) (rel : Relation) (bound : Int) :
    Except Error Opb :=
  (PbConstraint.normalize terms rel bound).map fun c => (s.raiseTo c.lits).append [c]

/-- A CNF collects the clauses of a linear constraint, covering what occurs in them. -/
instance : Collector Cnf where
  size := Store.size
  add s requests := s.collect ((requests.flatMap Request.clauses).map .clause)

/-- An OPB collects a linear constraint as it is, covering all of its literals. -/
instance : Collector Opb where
  size := Store.size
  add := Store.collect

end Clausal
