import Clausal.VarGroup.Index
import Clausal.Literal.Dimacs

/-!
# Single variables

A single variable may have a name of its own. Its only index is the empty one.
-/

namespace Clausal

structure SingleVar where
  var : Nat
  name : Option String
deriving DecidableEq

namespace SingleVar

/-- The variable with a given identifier. -/
def create (id : Nat) (name : Option String) : Except Error SingleVar :=
  (checkVar id).map (⟨·, name⟩)

def ids (g : SingleVar) : IdRange := ⟨g.var, 1⟩

/-- The empty index, which only the empty pattern asks for. -/
def indices (_ : SingleVar) (p : Pattern) : Except Error (List Index) :=
  (p.expand 0).map fun _ => [[]]

def evaluate (g : SingleVar) (index : Index) : Except Error Lit :=
  (index.checkLength 0).map fun _ => .positive g.var

def lits (g : SingleVar) (p : Pattern) : Except Error (List Lit) :=
  (p.expand 0).map fun _ => [.positive g.var]

/-- The empty index, if the literal is over this variable. -/
def toIndex (g : SingleVar) (l : Lit) : Except Error Index :=
  if l.var = g.var then .ok [] else .error (g.ids.outside l)

/-- The name of the variable, or the one made from its identifier. -/
def renderLabel (g : SingleVar) (_ : Index) : String :=
  g.name.getD (varText g.var)

end SingleVar

end Clausal
