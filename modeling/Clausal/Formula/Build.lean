import Clausal.Encoding.Mapping
import Clausal.Encoding.Parity
import Clausal.Formula.Basic

/-!
# Building formulas

Each operation returns its result together with the formula afterwards, also where it fails.
-/

namespace Clausal.Formula

variable {K : Type} [Constraint K]

/-! ## Variables and groups -/

omit [Constraint K] in
/-- Registers a group that starts at the next identifier. The token tells the group apart from all
others. -/
def newGroup (f : Formula K) (token : Nat) (spec : GroupSpec) :
    Except Error (Handle VarGroup) × Formula K :=
  match spec.create f.nextId with
  | .error e => (.error e, f)
  | .ok group =>
    match f.registry.register ⟨token, group⟩ f.vars with
    | .error e => (.error e, f)
    | .ok (registry, vars) =>
      (.ok ⟨token, group⟩, { f with registry, store := { f.store with vars } })

omit [Constraint K] in
/-- Adds a single variable, with a name or without. -/
def newVariable (f : Formula K) (token : Nat) (name : Option String) :
    Except Error Lit × Formula K :=
  let (result, f') := f.newGroup token (.singleton name)
  (result.map fun group => .positive group.value.ids.first, f')

omit [Constraint K] in
/-- Adds variables that belong to no group. -/
def newVariables (f : Formula K) (count : Nat) : Except Error (List Lit) × Formula K :=
  match IdRange.alloc f.nextId count with
  | .error e => (.error e, f)
  | .ok ids =>
    (ids.toList.mapM (Lit.ofVouched · false), if ids.size = 0 then f else f.raiseVars ids.last)

/-! ## Constraints -/

/-- Adds constraints. The variables of their literals count as used from then on. -/
def collect (f : Formula K) (requests : List Request) : Formula K :=
  { f with store := f.store.collect requests }

/-- A formula collects clauses and linear constraints. -/
instance : Collector (Formula K) where
  size := size
  add := collect

def addClause (f : Formula K) (c : Clause) : Formula K := f.collect [.clause c]

/-- Adds a linear constraint on the number of true literals, whether or not their variables are in
use. -/
def collectLinear (f : Formula K) (lits : List Lit) (rel : Relation) (bound : Int) : Formula K :=
  f.collect [.linear lits rel bound]

/-- Adds a clause without looking at its variables, which have to be in use. -/
def addUncheckedClause (f : Formula K) (c : Clause) : Formula K :=
  { f with store := f.store.pushClause c }

def addDimacsClause (f : Formula K) (values : List Int) : Except Error Unit × Formula K :=
  match Lit.listOfDimacs values with
  | .error e => (.error e, f)
  | .ok c => (.ok (), f.addClause c)

omit [Constraint K] in
/-- Refuses literals over variables that the formula does not have. -/
def checkLits (f : Formula K) (lits : List Lit) : Except Error Unit :=
  match lits.find? fun l => f.vars < l.var with
  | some l => .error (.unknownVariable l f.vars)
  | none => .ok ()

omit [Constraint K] in
theorem checkLits_eq_ok_iff {f : Formula K} {lits : List Lit} :
    f.checkLits lits = .ok () ↔ ∀ l ∈ lits, l.var ≤ f.vars := by
  rw [checkLits]
  split
  · rename_i l hfind
    have hmem := List.mem_of_find?_eq_some hfind
    have hbeyond := List.find?_some hfind
    simp only [decide_eq_true_eq] at hbeyond
    simp only [reduceCtorEq, false_iff]
    exact fun hall => Nat.not_lt.mpr (hall l hmem) hbeyond
  · rename_i hfind
    simpa using hfind

def addParity (f : Formula K) (lits : List Lit) (constant : Nat) : Except Error Unit × Formula K :=
  match f.checkLits lits with
  | .error e => (.error e, f)
  | .ok () =>
    match Parity.clauses lits constant with
    | .error e => (.error e, f)
    | .ok clauses => (.ok (), Collector.addClauses f clauses)

/-- States a linear constraint on the number of true literals, whose variables have to be in use. -/
def addLinear (f : Formula K) (lits : List Lit) (rel : Relation) (bound : Int) :
    Except Error Unit × Formula K :=
  match f.checkLits lits with
  | .error e => (.error e, f)
  | .ok () => (.ok (), { f with store := f.store.pushLinear lits rel bound })

/-- States how many literals are true, compared with half of them. -/
def addMajority (f : Formula K) (majority : Majority) (lits : List Lit) :
    Except Error Unit × Formula K :=
  f.addLinear lits majority.relation (majority.bound lits.length)

/-- States a property of a mapping, which has to be a group of this formula. -/
def force (f : Formula K) (property : MappingProperty) (mapping : Handle Mapping) :
    Except Error Unit × Formula K :=
  if f.registry.owns (mapping.map Mapping.toGroup) then
    Collector.addAll f (mapping.value.requests property)
  else (.error .foreignMapping, f)

omit [Constraint K] in
/-- Adds a pseudo-boolean constraint in normal form. -/
def addConstraint (f : OpbFormula) (terms : List (Lit × Int)) (rel : Relation) (bound : Int) :
    Except Error Unit × OpbFormula :=
  match Opb.addConstraint f.store terms rel bound with
  | .error e => (.error e, f)
  | .ok store => (.ok (), { f with store })

end Clausal.Formula
