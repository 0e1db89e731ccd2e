import Clausal.Literal

/-!
# Assignments

An assignment gives truth values to the variables `1, …, n` and may leave some of them open.
Variables beyond `n` are open, too.
-/

namespace Clausal

/-- What an assignment says about a variable. -/
inductive Truth where
  | yes
  | no
  | unset
deriving DecidableEq

namespace Truth

def negate : Truth → Truth
  | yes => no
  | no => yes
  | unset => unset

def ofBool (b : Bool) : Truth :=
  if b then yes else no

/-- The truth value, where an open one counts as `default`. -/
def toBool (default : Bool) : Truth → Bool
  | yes => true
  | no => false
  | unset => default

def text : Truth → String
  | yes => "1"
  | no => "0"
  | unset => "_"

end Truth

/-- The truth values of the variables `1, …, size`. -/
structure Assignment where
  size : Nat
  /-- The value of a variable. What it says about other numbers does not matter. -/
  value : Nat → Truth

namespace Assignment

/-- The assignment of the listed values to the variables 1, 2, …. -/
def ofValues (values : List Truth) : Assignment :=
  let values := values.toArray
  ⟨values.size, fun v => values[v - 1]?.getD .unset⟩

/-- The total assignment of `1, …, n` where variable `i` is true iff bit `i - 1` of `bits` is
set. -/
def ofBits (n bits : Nat) : Assignment :=
  ⟨n, fun v => .ofBool (bits.testBit (v - 1))⟩

def varValue (a : Assignment) (var : Nat) : Truth :=
  if 1 ≤ var ∧ var ≤ a.size then a.value var else .unset

def litValue (a : Assignment) (l : Lit) : Truth :=
  if l.negated then (a.varValue l.var).negate else a.varValue l.var

/-- Gives a variable a value, leaving variables skipped on the way open. -/
def assignVar (a : Assignment) (var : Nat) (value : Truth) : Assignment :=
  ⟨max a.size var, fun v => if v = var then value else a.varValue v⟩

def assignLit (a : Assignment) (l : Lit) : Assignment :=
  a.assignVar l.var (.ofBool !l.negated)

/-- The assignment that makes the literals true. Of several literals over one variable the last one
decides. -/
def ofLits (lits : List Lit) : Assignment :=
  let latest := lits.reverse
  ⟨(Lit.maxVar? lits).getD 0, fun v =>
    match latest.find? (·.var = v) with
    | some l => .ofBool !l.negated
    | none => .unset⟩

def maxVar? (a : Assignment) : Option Nat :=
  if a.size = 0 then none else some a.size

def text (a : Assignment) : String :=
  String.join ((List.range' 1 a.size).map fun v => (a.varValue v).text)

end Assignment

end Clausal
