import Clausal.Clause
import Clausal.Text.Comments

/-!
# Writing DIMACS files

Comments start with `c`. The problem line follows them, then one line for each clause.
-/

namespace Clausal.Dimacs

def clauseLine (c : Clause) : String :=
  String.join (c.map fun l => s!"{l.toDimacs} ") ++ "0"

def problemLine (vars clauses : Nat) : String :=
  s!"p cnf {vars} {clauses}"

/-- The lines of a file. -/
def lines (header : Option Header) (labels : Option (List String)) (vars : Nat)
    (clauses : List Clause) : List String :=
  comments "c" header labels ++ problemLine vars clauses.length :: clauses.map clauseLine

def print (header : Option Header) (labels : Option (List String)) (vars : Nat)
    (clauses : List Clause) : String :=
  unlines (lines header labels vars clauses)

end Clausal.Dimacs
