import Clausal.Assignment

/-!
# Clauses

A clause is a list of literals, in the order in which they were given. It is satisfied when one of
them is true, so the empty clause never is.
-/

namespace Clausal

/-- A disjunction of literals. -/
abbrev Clause := List Lit

namespace Clause

/-- One step of the evaluation: a true literal decides, an open one only matters to a clause that is
false so far. -/
def combine (sofar : Truth) : Truth → Truth
  | .yes => .yes
  | .unset => if sofar = .no then .unset else sofar
  | .no => sofar

def value (c : Clause) (a : Assignment) : Truth :=
  c.foldl (fun sofar l => combine sofar (a.litValue l)) .no

def isSat (c : Clause) (a : Assignment) : Bool :=
  c.any fun l => a.litValue l = .yes

/-- Clauses are ordered like words, literal by literal. -/
def le : Clause → Clause → Bool
  | [], _ => true
  | _ :: _, [] => false
  | l :: c, m :: d => if l = m then le c d else l.le m

def sort (cs : List Clause) : List Clause :=
  cs.mergeSort le

def toDimacs (c : Clause) : List Int :=
  c.map Lit.toDimacs

end Clause

end Clausal
