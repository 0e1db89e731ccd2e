import Clausal.Dimacs.Parser
import Clausal.Dimacs.Printer
import Clausal.Formula.Build
import Clausal.PseudoBoolean.Printer

/-!
# Formulas as texts

Every formula can be written as an OPB file, a formula of clauses also as a DIMACS file. A DIMACS
file is read back as a formula without groups.
-/

namespace Clausal

/-- Which comments to write. -/
structure WriteOptions where
  header : Bool
  labels : Bool
deriving DecidableEq

namespace Formula

variable {K : Type}

/-- The header, if it is to be written. -/
def writtenHeader (f : Formula K) (opts : WriteOptions) : Option Header :=
  if opts.header then some f.header else none

/-- The labels, if they are to be written. -/
def writtenLabels (f : Formula K) (opts : WriteOptions) : Option (List String) :=
  if opts.labels then some f.plainLabels else none

def toOpb [Constraint K] (f : Formula K) (opts : WriteOptions) : String :=
  PbConstraint.print (f.writtenHeader opts) (f.writtenLabels opts) f.vars
    (f.constraints.map Constraint.toPb)

def toDimacs (f : CnfFormula) (opts : WriteOptions) : String :=
  Dimacs.print (f.writtenHeader opts) (f.writtenLabels opts) f.vars f.constraints

/-- The formula that a DIMACS file holds, described by the name of the file. -/
def ofDimacs (bytes : ByteArray) (name : String) : Except Dimacs.Error CnfFormula :=
  (Dimacs.parse bytes).map fun (vars, clauses) =>
    let f : CnfFormula := describedAs ("Formula from DIMACS file " ++ name)
    Collector.addClauses (f.raiseVars vars) clauses

end Formula

end Clausal
