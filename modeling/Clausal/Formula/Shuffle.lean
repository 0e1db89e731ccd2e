import Clausal.Formula.Basic
import Clausal.Random

/-!
# Shuffling

A shuffle renames the variables of a formula, flips the polarity of some of them, and reorders the
constraints. What it does is settled by a `Reshuffle`; `drawReshuffle` chooses one at random.
-/

namespace Clausal

/-- New names, flips and positions. -/
structure Reshuffle where
  /-- The new identifiers of the variables 1, 2, …. -/
  rename : List Nat
  flips : List Bool
  /-- The new positions of the constraints. -/
  positions : List Nat
deriving DecidableEq

/-- The literal after a reshuffle. -/
def Reshuffle.apply (r : Reshuffle) (l : Lit) : Lit :=
  ⟨r.rename[l.var - 1]?.getD l.var, l.negated ^^ r.flips[l.var - 1]?.getD false⟩

/-- What a shuffle may change. -/
structure ShuffleOptions where
  rename : Bool
  flip : Bool
  reorder : Bool
deriving DecidableEq

def ShuffleOptions.all : ShuffleOptions := ⟨true, true, true⟩

namespace Header

/-- What is added to the description of a shuffled formula. -/
def shuffleMark : String := "(reshuffled)"

/-- The field that records a shuffle. -/
def shuffleField (i : Nat) : String := s!"transformation {i}"

/-- The first of `tries` numbers from `i` on that records no shuffle yet. -/
def freeShuffle (h : Header) : Nat → Nat → Nat
  | 0, i => i
  | tries + 1, i => if (h.field? (shuffleField i)).isNone then i else freeShuffle h tries (i + 1)

/-- The header of a shuffled formula: the description is marked and a new field records the
shuffle. -/
def shuffled (h : Header) : Header :=
  let description := match h.field? descriptionField with
    | some text => text ++ " " ++ shuffleMark
    | none => shuffleMark
  let field := shuffleField (h.freeShuffle (h.length + 1) 1)
  (h.put descriptionField description).put field "Formula reshuffling"

end Header

namespace Formula

variable {K : Type} [Constraint K]

def allLits (f : Formula K) : List Lit := f.constraints.flatMap Constraint.lits

/-- The highest variable that is in use or occurs in a constraint. -/
def maxVar (f : Formula K) : Nat := f.allLits.foldl (fun v l => max v l.var) f.vars

/-- Chooses new names for the variables in use, flips for all variables, and positions. -/
def drawReshuffle (f : Formula K) (opts : ShuffleOptions) : Draw Reshuffle := do
  let known := List.range' 1 f.vars
  let beyond := List.range' (f.vars + 1) (f.maxVar - f.vars)
  let known ← if opts.rename then Draw.shuffle known else pure known
  let flips ← (List.range f.maxVar).mapM fun _ => if opts.flip then Draw.coin else pure false
  let positions := List.range f.size
  let positions ← if opts.reorder then Draw.shuffle positions else pure positions
  return ⟨known ++ beyond, flips, positions⟩

/-- The formula after a reshuffle. It has no groups, because identifiers lost their meaning. -/
def reshuffle (f : Formula K) (r : Reshuffle) : Formula K :=
  ⟨(f.store.substitute r.apply).permute r.positions, .empty, f.header.shuffled⟩

/-- The formula after a random reshuffle. The identifier 0, which is no variable, has no new
name. -/
def shuffle (f : Formula K) (opts : ShuffleOptions) : Draw (Except Error (Formula K)) := do
  let r ← f.drawReshuffle opts
  return if f.allLits.any (·.var = 0) then .error (.invalidIdentifier 0) else .ok (f.reshuffle r)

end Formula

end Clausal
