/-!
# Selections

Ways of choosing elements of a list, each in lexicographic order of the positions that are chosen.
-/

namespace Clausal

variable {α : Type}

/-- One element of each list. -/
def tuples : List (List α) → List (List α)
  | [] => [[]]
  | choices :: rest =>
    let tails := tuples rest
    choices.flatMap fun x => tails.map (x :: ·)

/-! ## Later elements -/

/-- Each element of a list together with the elements after it. -/
def suffixes : List α → List (α × List α)
  | [] => []
  | x :: xs => (x, xs) :: suffixes xs

/-- The pairs of an element and a later one. -/
def laterPairs (xs : List α) : List (α × α) :=
  (suffixes xs).flatMap fun (x, later) => later.map (x, ·)

/-- The choices of `k` positions, repetitions allowed. -/
def multiselections : Nat → List α → List (List α)
  | 0, _ => [[]]
  | k + 1, xs =>
    (suffixes xs).flatMap fun (x, later) => (multiselections k (x :: later)).map (x :: ·)

/-! ## Positions that ascend -/

/-- The choices of `k` positions in ascending order that leave out at most `spare` positions before
the last one. -/
def selectSparing : Nat → Nat → List α → List (List α)
  | 0, _, _ => [[]]
  | _ + 1, _, [] => []
  | k + 1, spare, x :: xs =>
    (selectSparing k spare xs).map (x :: ·) ++
      match spare with
      | 0 => []
      | spare + 1 => selectSparing (k + 1) spare xs

/-- The elements at `k` positions in ascending order, for every choice of the positions. As many
positions may be left out as are not needed. -/
def selections (k : Nat) (xs : List α) : List (List α) :=
  if xs.length < k then [] else selectSparing k (xs.length - k) xs

/-- The list with the elements at `k` positions changed, for every choice of the positions that
leaves out at most `spare` positions before the last one. -/
def changeSparing (change : α → α) : Nat → Nat → List α → List (List α)
  | 0, _, xs => [xs]
  | _ + 1, _, [] => []
  | k + 1, spare, x :: xs =>
    (changeSparing change k spare xs).map (change x :: ·) ++
      match spare with
      | 0 => []
      | spare + 1 => (changeSparing change (k + 1) spare xs).map (x :: ·)

/-- The list with the elements at `k` positions changed, for every choice of the positions. -/
def changes (change : α → α) (k : Nat) (xs : List α) : List (List α) :=
  if xs.length < k then [] else changeSparing change k (xs.length - k) xs

/-! ## Positions in any order -/

/-- The choices of `k` elements of a list without repetitions, in any order. What is left after the
last choice does not matter. -/
def arrangements [DecidableEq α] : Nat → List α → List (List α)
  | 0, _ => [[]]
  | 1, xs => xs.map ([·])
  | k + 2, xs => xs.flatMap fun x => (arrangements (k + 1) (xs.erase x)).map (x :: ·)

end Clausal
