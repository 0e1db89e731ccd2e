import Clausal.Label
import Clausal.VarGroup

/-!
# Registered groups

A registry lists the groups of a formula in the order in which they were registered. Their
identifiers ascend and do not overlap, because a group has to start above all variables in use.

Groups are told apart by the token of their handle. Each group that is created gets a token of its
own, so a registry owns the very group that was registered and no other group that merely looks the
same.
-/

namespace Clausal

/-- A value with a token that tells it apart from equal ones. -/
structure Handle (α : Type) where
  token : Nat
  value : α
deriving DecidableEq

/-- The handle of a value made from the value of a handle, which is still the same thing. -/
def Handle.map {α β : Type} (f : α → β) (h : Handle α) : Handle β := ⟨h.token, f h.value⟩

/-- The groups of a formula. -/
structure Registry where
  groups : List (Handle VarGroup)
deriving DecidableEq

namespace Registry

def empty : Registry := ⟨[]⟩

def size (r : Registry) : Nat := r.groups.length

/-- Whether a group is registered: the very group, not just an equal one. -/
def owns (r : Registry) (group : Handle VarGroup) : Bool := r.groups.contains group

/-- Registers a group above the first `vars` variables, and says how many variables there are then.
A group without variables is registered wherever it starts. -/
def register (r : Registry) (group : Handle VarGroup) (vars : Nat) :
    Except Error (Registry × Nat) :=
  let ids := group.value.ids
  if ids.size = 0 then .ok (⟨r.groups ++ [group]⟩, vars)
  else if ids.first ≤ vars then .error (.overlap ids.first ids.last vars)
  else .ok (⟨r.groups ++ [group]⟩, max vars ids.last)

/-- The labels of identifiers that no group labels. -/
def defaultLabels (format : LabelFormat) (first size : Nat) : List String :=
  (List.range' first size).map fun id => format.render [toString id]

/-- The labels of the variables of a group. -/
def groupLabels (format : LabelFormat) (g : VarGroup) : List String :=
  let fallback := defaultLabels format g.ids.first g.ids.size
  if g.isAnonymous then fallback
  else
    match g.labels [] with
    | .ok labels => labels
    | .error _ => fallback

/-- The labels of the identifiers from `next` on, up to the last one in use. -/
def labelsFrom (format : LabelFormat) (vars next : Nat) : List (Handle VarGroup) → List String
  | [] => defaultLabels format next (vars + 1 - next)
  | group :: groups =>
    let ids := group.value.ids
    if ids.size = 0 then labelsFrom format vars next groups
    else
      defaultLabels format next (ids.first - next) ++ groupLabels format group.value
        ++ labelsFrom format vars ids.stop groups

/-- The labels of the variables `1, …, vars`. The default format labels what is in no group, and
single variables without a name. -/
def labels (r : Registry) (vars : Nat) (format : LabelFormat) : List String :=
  labelsFrom format vars 1 r.groups

end Registry

end Clausal
