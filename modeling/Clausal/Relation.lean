/-!
# Relations

The six relations that a linear constraint can state between a sum and a bound.
-/

namespace Clausal

/-- A relation between a sum and a bound. -/
inductive Relation where
  | lt
  | le
  | gt
  | ge
  | eq
  | ne
deriving DecidableEq

namespace Relation

def symbol : Relation → String
  | lt => "<"
  | le => "<="
  | gt => ">"
  | ge => ">="
  | eq => "=="
  | ne => "!="

/-- The two-letter name of a relation. -/
def name : Relation → String
  | lt => "Lt"
  | le => "Le"
  | gt => "Gt"
  | ge => "Ge"
  | eq => "Eq"
  | ne => "Ne"

def all : List Relation :=
  [lt, le, gt, ge, eq, ne]

/-- The relation with a given sign. -/
def ofSymbol? (s : String) : Option Relation :=
  all.find? (·.symbol == s)

/-- Whether `a` stands in the relation to `b`. -/
def Holds : Relation → Int → Int → Prop
  | lt, a, b => a < b
  | le, a, b => a ≤ b
  | gt, a, b => a > b
  | ge, a, b => a ≥ b
  | eq, a, b => a = b
  | ne, a, b => a ≠ b

instance (r : Relation) (a b : Int) : Decidable (r.Holds a b) := by
  cases r <;> unfold Holds <;> infer_instance

end Relation

end Clausal
