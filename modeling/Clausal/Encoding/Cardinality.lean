import Clausal.Clause
import Clausal.Limits
import Clausal.Relation
import Clausal.Selection

/-!
# Cardinality constraints

How many of some literals are true, stated by clauses over these literals. At least `c` of `k`
literals are true iff each selection of `k - c + 1` of them has a true one; the other relations are
reduced to this one. Bounds are kept in range by taking the nearest one, which states the same of a
list of literals.
-/

namespace Clausal.Cardinality

/-! ## Clauses -/

def atLeast (lits : List Lit) (bound : Int) : List Clause :=
  let count := countInt lits.length
  if bound ≤ 0 then []
  else if count < bound then [[]]
  else selections (count - bound + 1).toNat lits

/-- At most `bound` of the literals are true: at least the others are false. -/
def atMost (lits : List Lit) (bound : Int) : List Clause :=
  atLeast (lits.map Lit.flip) (clampInt (countInt lits.length - bound))

/-- The number of true literals is not `bound`: no selection of that size is exactly what is
true. -/
def notEqual (lits : List Lit) (bound : Int) : List Clause :=
  if bound < 0 ∨ countInt lits.length < bound then []
  else changes Lit.flip bound.toNat lits

/-- The number of true literals stands in a relation to `bound`. -/
def clauses (lits : List Lit) (rel : Relation) (bound : Int) : List Clause :=
  match rel with
  | .ge => atLeast lits bound
  | .gt => atLeast lits (clampInt (bound + 1))
  | .le => atMost lits bound
  | .lt => atMost lits (clampInt (bound - 1))
  | .eq => atMost lits bound ++ atLeast lits bound
  | .ne => notEqual lits bound

/-! ## Majorities -/

/-- The least number of true literals, among `n`, that is at least half of them. -/
def looseMajorityBound (n : Nat) : Int := countInt ((n + 1) / 2)

/-- The greatest number of true literals, among `n`, that is at most half of them. -/
def looseMinorityBound (n : Nat) : Int := countInt (n / 2)

/-- The least number of true literals, among `n`, that is more than half of them. -/
def strictMajorityBound (n : Nat) : Int := countInt (n / 2 + 1)

/-- The greatest number of true literals, among `n`, that is less than half of them. -/
def strictMinorityBound (n : Nat) : Int :=
  if (n : Int) ≤ maxInt then ((n : Int) - 1) / 2 else maxInt

end Clausal.Cardinality

namespace Clausal

/-- How many literals are asked to be true, compared with half of them. -/
inductive Majority where
  /-- At least half. -/
  | looseMajority
  /-- At most half. -/
  | looseMinority
  /-- More than half. -/
  | strictMajority
  /-- Less than half. -/
  | strictMinority
deriving DecidableEq

namespace Majority

def relation : Majority → Relation
  | looseMajority | strictMajority => .ge
  | looseMinority | strictMinority => .le

def bound (majority : Majority) (n : Nat) : Int :=
  match majority with
  | looseMajority => Cardinality.looseMajorityBound n
  | looseMinority => Cardinality.looseMinorityBound n
  | strictMajority => Cardinality.strictMajorityBound n
  | strictMinority => Cardinality.strictMinorityBound n

end Majority

end Clausal
