import Clausal.Header
import Clausal.Registry
import Clausal.Store

/-!
# Formulas

A formula is a store of constraints with the groups of its variables and a header. New variables
take the identifiers right after the last one in use.
-/

namespace Clausal

/-- Constraints, groups of variables and a header. -/
structure Formula (K : Type) where
  store : Store K
  registry : Registry
  header : Header
deriving DecidableEq

abbrev CnfFormula := Formula Clause

abbrev OpbFormula := Formula PbConstraint

namespace Formula

variable {K : Type}

def empty : Formula K := ⟨.empty, .empty, []⟩

/-! ## Header -/

def setHeader (f : Formula K) (field value : String) : Formula K :=
  { f with header := f.header.put field value }

def describedAs (text : String) : Formula K := empty.setHeader Header.descriptionField text

def description? (f : Formula K) : Option String := f.header.field? Header.descriptionField

/-! ## Sizes -/

def vars (f : Formula K) : Nat := f.store.vars

def size (f : Formula K) : Nat := f.store.size

def constraints (f : Formula K) : List K := f.store.constraints

/-- Raises the number of variables to at least `n`. -/
def raiseVars (f : Formula K) (n : Nat) : Formula K := { f with store := f.store.raiseVars n }

/-- The identifier of the next variable, as a counter. -/
def nextId (f : Formula K) : Nat := (f.vars + 1) % counterSize

/-! ## Labels -/

/-- The labels of all variables, where a format labels those that no group does. -/
def labels (f : Formula K) (format : LabelFormat) : List String :=
  f.registry.labels f.vars format

def plainLabels (f : Formula K) : List String := f.labels .plain

/-- The labels of all variables, where the text of a format labels those that no group does. -/
def labelsWith (f : Formula K) (format : String) : Except Error (List String) :=
  (LabelFormat.parse format 1).map f.labels

/-! ## Meaning -/

/-- The numbers whose bits, taken as values of the variables, satisfy all constraints, in ascending
order. -/
def models [Constraint K] (f : Formula K) : List Nat :=
  (List.range (bitRange f.vars)).filter fun bits => f.store.isSat (.ofBits f.vars bits)

end Formula

end Clausal
