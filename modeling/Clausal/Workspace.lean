import Clausal.Folder
import Clausal.Formula.Audit
import Clausal.Formula.Operation
import Clausal.Formula.Shuffle
import Clausal.Formula.Text

/-!
# Workspaces

A workspace holds formulas of both kinds, the groups that were created, and a folder of files. It
hands out the tokens of the groups, a new one for each group.
-/

namespace Clausal

/-- A formula of either kind. -/
inductive Draft where
  | cnf (f : CnfFormula)
  | opb (f : OpbFormula)
deriving DecidableEq

/-- Runs an operation on a formula of either kind. -/
def Draft.run (op : Operation) (token : Nat) : Draft → Except Error Reply × Draft
  | cnf f => let (r, f) := op.run token f; (r, .cnf f)
  | opb f => let (r, f) := op.run token f; (r, .opb f)

/-- Formulas, groups and files. -/
structure Workspace where
  drafts : List Draft
  groups : List (Handle VarGroup)
  nextToken : Nat
  folder : Folder
deriving DecidableEq

namespace Workspace

def empty : Workspace := ⟨[], [], 0, .empty⟩

/-- Adds a formula, whose number is how many there were. -/
def addDraft (w : Workspace) (d : Draft) : Workspace := { w with drafts := w.drafts ++ [d] }

def setDraft (w : Workspace) (i : Nat) (d : Draft) : Workspace :=
  { w with drafts := w.drafts.set i d }

/-- Adds a group that was created. -/
def addGroup (w : Workspace) (group : Handle VarGroup) : Workspace :=
  { w with groups := w.groups ++ [group] }

/-- Runs an operation on a formula. A group that it creates is added. -/
def run (w : Workspace) (i : Nat) (op : Operation) : Option (Except Error Reply × Workspace) :=
  w.drafts[i]?.map fun d =>
    let (r, d) := d.run op w.nextToken
    let w := { w.setDraft i d with nextToken := w.nextToken + 1 }
    match r with
    | .ok (.group group) => (r, w.addGroup group)
    | _ => (r, w)

/-- Creates a group that no formula knows. -/
def standalone (w : Workspace) (start : Nat) (spec : GroupSpec) :
    Except Error (Handle VarGroup) × Workspace :=
  match spec.create start with
  | .error e => (.error e, w)
  | .ok group =>
    let handle := ⟨w.nextToken, group⟩
    (.ok handle, { w.addGroup handle with nextToken := w.nextToken + 1 })

end Workspace

end Clausal
