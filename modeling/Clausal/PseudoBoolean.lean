import Clausal.Clause
import Clausal.Literal.Dimacs

/-!
# Pseudo-boolean constraints

A normalized pseudo-boolean constraint compares a sum of positively weighted literals with a bound,
by `≥` or `=`. `PbConstraint.normalize` brings any other linear constraint into this form, if the
bound stays in range: strict relations become loose ones, `≤` becomes `≥` with all signs changed,
and a negative coefficient moves to the negated literal, because `-w·l = w·¬l - w`.
-/

namespace Clausal

/-- The relation of a normalized constraint. -/
inductive PbRelation where
  | ge
  | eq
deriving DecidableEq

def PbRelation.symbol : PbRelation → String
  | ge => ">="
  | eq => "="

/-- A normalized pseudo-boolean constraint. -/
structure PbConstraint where
  terms : List (Lit × Nat)
  rel : PbRelation
  bound : Int
deriving DecidableEq

namespace PbConstraint

/-! ## Normalization -/

/-- Negates every coefficient, unless one of them has no negative in range. -/
def negateTerms : List (Lit × Int) → Except Error (List (Lit × Int))
  | [] => .ok []
  | (l, w) :: rest =>
    match checkedInt (-w) with
    | none => .error .boundOverflow
    | some w' => (negateTerms rest).map ((l, w') :: ·)

/-- Makes every coefficient positive. `shift` is what the terms before added to the bound; the
result comes with what all terms add. -/
def positiveTerms (shift : Int) : List (Lit × Int) → Except Error (List (Lit × Nat) × Int)
  | [] => .ok ([], shift)
  | (l, w) :: rest =>
    if w = 0 then .error (.zeroCoefficient l)
    else if 0 < w then
      (positiveTerms shift rest).map fun (terms, total) => ((l, w.natAbs) :: terms, total)
    else
      match (checkedInt (-w)).bind fun v => checkedInt (shift + v) with
      | none => .error .boundOverflow
      | some shift' =>
        (positiveTerms shift' rest).map fun (terms, total) => ((l.flip, w.natAbs) :: terms, total)

/-- How a relation is normalized: whether the signs change, the relation left, and the bound, if it
is in range. -/
def normalRelation (rel : Relation) (bound : Int) : Except Error (Bool × PbRelation × Option Int) :=
  match rel with
  | .ge => .ok (false, .ge, some bound)
  | .gt => .ok (false, .ge, checkedInt (bound + 1))
  | .le => .ok (true, .ge, checkedInt (-bound))
  | .lt => .ok (true, .ge, (checkedInt (bound - 1)).bind fun b => checkedInt (-b))
  | .eq => .ok (false, .eq, some bound)
  | .ne => .error .notPseudoBoolean

/-- The normal form of `Σ wᵢ·lᵢ rel bound`. -/
def normalize (terms : List (Lit × Int)) (rel : Relation) (bound : Int) :
    Except Error PbConstraint := do
  let (change, rel', bound?) ← normalRelation rel bound
  match bound? with
  | none => .error .boundOverflow
  | some b =>
    let terms ← if change then negateTerms terms else .ok terms
    let (weighted, shift) ← positiveTerms 0 terms
    match checkedInt (b + shift) with
    | none => .error .boundOverflow
    | some b' => .ok ⟨weighted, rel', b'⟩

/-- At least one literal is true. -/
def ofClause (c : Clause) : PbConstraint :=
  ⟨c.map fun l => (l, 1), .ge, 1⟩

/-! ## Reading a constraint -/

def lits (c : PbConstraint) : List Lit :=
  c.terms.map (·.1)

/-- The constraint with its literals replaced. -/
def mapLits (f : Lit → Lit) (c : PbConstraint) : PbConstraint :=
  { c with terms := c.terms.map fun (l, w) => (f l, w) }

def maxVar? (c : PbConstraint) : Option Nat :=
  Lit.maxVar? c.lits

/-- Whether the constraint says that at least one literal is true. -/
def isClause (c : PbConstraint) : Bool :=
  c.rel = .ge && c.bound = 1 && c.terms.all fun (_, w) => w = 1

/-- The sum of the weights of the true literals, kept in a word. -/
def wordSum (c : PbConstraint) (a : Assignment) : Nat :=
  c.terms.foldl (fun sum (l, w) => if a.litValue l = .yes then (sum + w) % wordSize else sum) 0

/-- Whether an assignment satisfies the constraint. The sum is compared as a bound, where the
largest bound stands for all sums above it. -/
def isSat (c : PbConstraint) (a : Assignment) : Bool :=
  let sum := countInt (c.wordSum a)
  match c.rel with
  | .ge => c.bound ≤ sum
  | .eq => sum = c.bound

end PbConstraint

end Clausal
