import Clausal.PseudoBoolean
import Clausal.Text.Comments

/-!
# Writing OPB files

The first line counts variables and constraints. Comments, which start with `*`, follow it, then one
line for each constraint.
-/

namespace Clausal.PbConstraint

def termText (term : Lit × Nat) : String :=
  s!"+{term.2} " ++ term.1.text ++ " "

def line (c : PbConstraint) : String :=
  String.join (c.terms.map termText) ++ c.rel.symbol ++ s!" {c.bound};"

/-- The first line of a file. -/
def countLine (vars constraints : Nat) : String :=
  s!"* #variable= {vars} #constraint= {constraints}"

def lines (header : Option Header) (labels : Option (List String)) (vars : Nat)
    (constraints : List PbConstraint) : List String :=
  countLine vars constraints.length :: comments "*" header labels ++ constraints.map line

def print (header : Option Header) (labels : Option (List String)) (vars : Nat)
    (constraints : List PbConstraint) : String :=
  unlines (lines header labels vars constraints)

end Clausal.PbConstraint
