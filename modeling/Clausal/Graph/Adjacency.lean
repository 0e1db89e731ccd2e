import Clausal.Error

/-!
# Sorted adjacency lists

Vertices are numbered from 1. An adjacency table lists the neighbors of vertex `v` at position `v -
1`, in increasing order.
-/

namespace Clausal

/-- The neighbors of each vertex. -/
abbrev Adjacency := Array (List Nat)

namespace Adjacency

/-- Inserts `x` into an increasing list that may already hold it. -/
def insertSorted (x : Nat) : List Nat → List Nat
  | [] => [x]
  | y :: ys =>
    if x < y then x :: y :: ys
    else if x = y then y :: ys
    else y :: insertSorted x ys

def isolated (n : Nat) : Adjacency := Array.replicate n []

/-- The neighbors of `v`, none if `v` is not a vertex. -/
def neighbors (table : Adjacency) : Nat → List Nat
  | 0 => []
  | i + 1 => table[i]?.getD []

/-- Makes `x` a neighbor of `v`. -/
def link (table : Adjacency) (v x : Nat) : Adjacency :=
  table.modify (v - 1) (insertSorted x)

/-- All pairs of a vertex and a neighbor, ordered by vertex, then neighbor. -/
def pairs (table : Adjacency) : List (Nat × Nat) :=
  (List.range' 1 table.size).flatMap fun v => (table.neighbors v).map (v, ·)

end Adjacency

/-- Makes a change for each item, up to the first item that is refused. -/
def changeEach {σ α : Type} (check : σ → α → Except Error Unit) (change : σ → α → σ) :
    σ → List α → Except Error Unit × σ
  | s, [] => (.ok (), s)
  | s, x :: xs =>
    match check s x with
    | .ok () => changeEach check change (change s x) xs
    | .error e => (.error e, s)

end Clausal
