/-!
# Literals

A literal is a variable with a polarity. Variables are identified by positive integers, as in DIMACS
files.
-/

namespace Clausal

/-- Variables are named after their identifier. -/
def varText (id : Nat) : String :=
  s!"x{id}"

/-- A variable, possibly negated. -/
structure Lit where
  var : Nat
  negated : Bool
deriving DecidableEq

namespace Lit

def positive (var : Nat) : Lit := ⟨var, false⟩

def negative (var : Nat) : Lit := ⟨var, true⟩

def flip (l : Lit) : Lit := ⟨l.var, !l.negated⟩

def flipIf (flipped : Bool) (l : Lit) : Lit :=
  if flipped then l.flip else l

/-- The identifier of the variable, negative for a negated literal. -/
def toDimacs (l : Lit) : Int :=
  if l.negated then -(l.var : Int) else l.var

/-- The name of the variable, marked with a tilde when negated. -/
def text (l : Lit) : String :=
  if l.negated then "~" ++ varText l.var else varText l.var

/-- The place of a literal in the order: by variable, positive before negated. -/
def rank (l : Lit) : Nat :=
  2 * l.var + l.negated.toNat

def le (a b : Lit) : Bool :=
  a.rank ≤ b.rank

def sort (lits : List Lit) : List Lit :=
  lits.mergeSort le

def maxVar? (lits : List Lit) : Option Nat :=
  (lits.map var).max?

@[simp] theorem flip_flip (l : Lit) : l.flip.flip = l := by
  simp [flip]

@[simp] theorem flip_var (l : Lit) : l.flip.var = l.var := rfl

@[simp] theorem flip_negated (l : Lit) : l.flip.negated = !l.negated := rfl

theorem rank_inj {a b : Lit} (h : a.rank = b.rank) : a = b := by
  obtain ⟨v, s⟩ := a
  obtain ⟨w, t⟩ := b
  cases s <;> cases t <;> simp [rank] at h ⊢ <;> omega

end Lit

end Clausal
