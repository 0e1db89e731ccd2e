import Clausal.Error
import Clausal.Relation

/-!
# Valid identifiers and literals

A literal is written as a nonzero integer. The functions here accept exactly the identifiers
`1, …, maxVar` and the integers whose absolute value is one of them.
-/

namespace Clausal

/-- The identifier, if some variable has it. -/
def checkVar (id : Nat) : Except Error Nat :=
  if id = 0 ∨ maxVar < id then .error (.variableIdentifier id) else .ok id

/-- The identifier of a caller who vouches for it. -/
def vouchedVar (id : Nat) : Except Error Nat :=
  if id = 0 ∨ maxVar < id then .error (.invalidIdentifier id) else .ok id

namespace Lit

/-- The literal over a variable that is checked to exist. -/
def ofVar? (id : Nat) (negated : Bool) : Except Error Lit :=
  (checkVar id).map (⟨·, negated⟩)

/-- The literal over a variable that the caller vouches for. -/
def ofVouched (id : Nat) (negated : Bool) : Except Error Lit :=
  (vouchedVar id).map (⟨·, negated⟩)

/-- The literal that an integer stands for. -/
def ofDimacs (value : Int) : Except Error Lit :=
  if value = 0 then .error .zeroLiteral else ofVar? value.natAbs (value < 0)

/-- The literals that some integers stand for, or the error of the first one that stands for
none. -/
def listOfDimacs (values : List Int) : Except Error (List Lit) :=
  values.mapM ofDimacs

end Lit

/-- The relation with a given sign, or an error. -/
def Relation.ofSymbol (text : String) : Except Error Relation :=
  match Relation.ofSymbol? text with
  | some r => .ok r
  | none => .error (.relationSymbol text)

end Clausal
