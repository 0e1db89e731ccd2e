import Clausal.Formula.Basic

/-!
# Audits

A formula is well-formed if every coefficient is positive and every variable in use; one may also
ask that no constraint repeats a literal, or holds a literal and its negation. An audit finds the
first fault. It looks at the literals of a constraint in order, where equal and opposite literals
are neighbors.
-/

namespace Clausal

/-- What an audit objects to in a constraint. -/
inductive Fault where
  | zeroWeight (lit : Lit)
  | unknownVariable (lit : Lit) (vars : Nat)
  | repeated (lit : Lit)
  | opposite (lit : Lit)
deriving DecidableEq

def Fault.message (index : Nat) : Fault → String
  | zeroWeight lit => s!"constraint {index} has coefficient 0 for " ++ lit.text
  | unknownVariable lit vars =>
    s!"constraint {index} contains " ++ lit.text ++ s!" beyond the {vars} variables"
  | repeated lit => s!"constraint {index} repeats literal " ++ lit.text
  | opposite lit => s!"constraint {index} contains " ++ lit.text ++ " and its negation"

/-- What an audit lets pass. -/
structure AuditOptions where
  allowOpposite : Bool
  allowRepetition : Bool
deriving DecidableEq

/-- The first fault among neighbors of a sorted list of literals. -/
def neighborFault (opts : AuditOptions) : List Lit → Option Fault
  | l :: m :: rest =>
    if l = m ∧ !opts.allowRepetition then some (.repeated l)
    else if l = m.flip ∧ !opts.allowOpposite then some (.opposite l)
    else neighborFault opts (m :: rest)
  | _ => none

/-- The first fault of a constraint of a formula with `vars` variables. -/
def constraintFault {K : Type} [Constraint K] (opts : AuditOptions) (vars : Nat) (c : K) :
    Option Fault :=
  match (Constraint.toPb c).terms.find? (·.2 = 0) with
  | some (l, _) => some (.zeroWeight l)
  | none =>
    match (Constraint.lits c).find? fun l => vars < l.var with
    | some l => some (.unknownVariable l vars)
    | none => neighborFault opts (Lit.sort (Constraint.lits c))

/-- The first fault of some constraints, with its position counted from `index`. -/
def firstFault {K : Type} [Constraint K] (opts : AuditOptions) (vars index : Nat) :
    List K → Option (Nat × Fault)
  | [] => none
  | c :: cs =>
    match constraintFault opts vars c with
    | some fault => some (index, fault)
    | none => firstFault opts vars (index + 1) cs

namespace Formula

variable {K : Type} [Constraint K]

/-- The first fault of a formula and the position of its constraint. -/
def audit (f : Formula K) (opts : AuditOptions) : Option (Nat × Fault) :=
  firstFault opts f.vars 0 f.constraints

/-- Whether an audit finds nothing. -/
def isWellFormed (f : Formula K) (opts : AuditOptions) : Bool :=
  (f.audit opts).isNone

end Formula

end Clausal
