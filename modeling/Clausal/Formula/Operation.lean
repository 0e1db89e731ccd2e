import Clausal.Formula.Build

/-!
# Operations

The operations that build a formula, whatever it is a formula of, as data. A history of a formula is
a list of operations; running it gives the results and the formula in the end.
-/

namespace Clausal

/-- An operation on a formula. -/
inductive Operation where
  | newVariable (name : Option String)
  | newVariables (count : Nat)
  | newGroup (spec : GroupSpec)
  | raiseVars (n : Nat)
  | addClause (c : Clause)
  | addDimacsClause (values : List Int)
  | addUncheckedClause (c : Clause)
  | extend (clauses : List Clause)
  | collectLinear (lits : List Lit) (rel : Relation) (bound : Int)
  | addParity (lits : List Lit) (constant : Nat)
  | addLinear (lits : List Lit) (rel : Relation) (bound : Int)
  | addMajority (majority : Majority) (lits : List Lit)
  | force (property : MappingProperty) (mapping : Handle Mapping)
  | setHeader (field value : String)
deriving DecidableEq

/-- What an operation returns. -/
inductive Reply where
  | done
  | lit (l : Lit)
  | lits (ls : List Lit)
  | group (group : Handle VarGroup)
deriving DecidableEq

namespace Operation

variable {K : Type} [Constraint K]

/-- Runs an operation. A group that it creates gets the token. -/
def run (op : Operation) (token : Nat) (f : Formula K) : Except Error Reply × Formula K :=
  match op with
  | newVariable name => let (r, f) := f.newVariable token name; (r.map .lit, f)
  | newVariables count => let (r, f) := f.newVariables count; (r.map .lits, f)
  | newGroup spec => let (r, f) := f.newGroup token spec; (r.map .group, f)
  | raiseVars n => (.ok .done, f.raiseVars n)
  | addClause c => (.ok .done, f.addClause c)
  | addDimacsClause values => let (r, f) := f.addDimacsClause values; (r.map fun _ => .done, f)
  | addUncheckedClause c => (.ok .done, f.addUncheckedClause c)
  | extend clauses => (.ok .done, Collector.addClauses f clauses)
  | collectLinear lits rel bound => (.ok .done, f.collectLinear lits rel bound)
  | addParity lits constant => let (r, f) := f.addParity lits constant; (r.map fun _ => .done, f)
  | addLinear lits rel bound => let (r, f) := f.addLinear lits rel bound; (r.map fun _ => .done, f)
  | addMajority majority lits =>
    let (r, f) := f.addMajority majority lits; (r.map fun _ => .done, f)
  | force property mapping => let (r, f) := f.force property mapping; (r.map fun _ => .done, f)
  | setHeader field value => (.ok .done, f.setHeader field value)

/-- Runs operations one after the other, with tokens from `token` on. -/
def runAll : List Operation → Nat → Formula K → List (Except Error Reply) × Formula K
  | [], _, f => ([], f)
  | op :: ops, token, f =>
    let (result, f) := op.run token f
    let (results, f) := runAll ops (token + 1) f
    (result :: results, f)

end Operation

end Clausal
