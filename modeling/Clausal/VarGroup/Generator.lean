import Clausal.VarGroup.Family

/-!
# Words one after the other

The generators of the four families. Each keeps one word by the positions of its letters and turns
them into those of the next word, from the last position to the first. Letters are drawn from the
alphabet when a position first needs them.
-/

namespace Clausal

/-- A generator of words: the state with the first word, if there is one, the state with the word
that follows, and the word of a state. -/
structure WordGenerator (σ : Type) where
  first : Option σ
  following : σ → Option σ
  word : σ → List Nat

namespace WordGenerator

variable {σ : Type}

/-- The words from a state on, unless there are more than `fuel` of them. -/
def wordsFrom (g : WordGenerator σ) : Nat → σ → Option (List (List Nat))
  | 0, _ => none
  | fuel + 1, s =>
    match g.following s with
    | none => some [g.word s]
    | some next => (g.wordsFrom fuel next).map (g.word s :: ·)

/-- All words, unless there are more than `fuel` of them. -/
def collect (g : WordGenerator σ) (fuel : Nat) : Option (List (List Nat)) :=
  match g.first with
  | none => some []
  | some s => g.wordsFrom fuel s

/-- The state after a step that also says whether the counter has ended. -/
def unlessEnded : Bool × σ → Option σ
  | (true, _) => none
  | (false, s) => some s

/-- The state after a number of steps, unless one of them ends. -/
def skip (step : σ → Bool × σ) : Nat → σ → Option σ
  | 0, s => some s
  | steps + 1, s => (unlessEnded (step s)).bind (skip step steps)

/-- One step of a counter, from the last digit to the first: `turn` gets a digit when all those
behind it have ended, and says whether it has, too. -/
def scan (turn : Nat → List Nat → Bool × List Nat) : List Nat → Bool × List Nat
  | [] => (true, [])
  | i :: is =>
    match scan turn is with
    | (false, is) => (false, i :: is)
    | (true, is) => turn i is

/-! ## Positions among the letters drawn so far -/

/-- The positions of the letters of a word, and how many letters have been drawn. -/
structure Cursor where
  drawn : Nat
  positions : List Nat
deriving DecidableEq

/-- Draws one more of `n` letters, if one is left. -/
def draw (n drawn : Nat) : Nat := if drawn < n then drawn + 1 else drawn

/-- The letters at positions of the alphabet `1, …, n`. -/
def letters (positions : List Nat) : List Nat := positions.map (· + 1)

/-- A position goes up by one and those behind it follow it closely, unless they would not fit. -/
def ascend (drawn i : Nat) (is : List Nat) : Bool × List Nat :=
  if i + (is.length + 1) = drawn then (true, i :: is)
  else (false, List.range' (i + 1) (is.length + 1))

/-- Strictly increasing words. A letter is drawn when the last position is that of the last letter
drawn. -/
def combinations (n k : Nat) : WordGenerator Cursor where
  first := if min k n < k then none else some ⟨min k n, List.range k⟩
  following c :=
    match c.positions.getLast? with
    | none => none
    | some last =>
      let drawn := if last + 1 = c.drawn then draw n c.drawn else c.drawn
      (unlessEnded (scan (ascend drawn) c.positions)).map (⟨drawn, ·⟩)
  word c := letters c.positions

/-- A position goes up by one, unless it is that of the last letter drawn, and those behind it move
to the same letter. -/
def fill (drawn i : Nat) (is : List Nat) : Bool × List Nat :=
  if i < drawn - 1 then (false, List.replicate (is.length + 1) (i + 1)) else (true, i :: is)

/-- Non-decreasing words. A letter is drawn for each of them. -/
def multisets (n k : Nat) : WordGenerator Cursor where
  first :=
    if k = 0 then some ⟨0, []⟩
    else if draw n 0 = 0 then none
    else some ⟨draw n 0, List.replicate k 0⟩
  following c :=
    let drawn := draw n c.drawn
    (unlessEnded (scan (fill drawn) c.positions)).map (⟨drawn, ·⟩)
  word c := letters c.positions

/-! ## Positions in cycles -/

/-- One step of the positions of all letters, of which the first ones, as many as there are cycles,
form the word. Each of these is exchanged with every later one, as often as its cycle says, and goes
behind them in the end. -/
def advance : List Nat → List Nat → Bool × List Nat × List Nat
  | is, [] => (true, is, [])
  | [], c :: cs => (true, [], c :: cs)
  | i :: is, c :: cs =>
    match advance is cs with
    | (false, is, cs) => (false, i :: is, c :: cs)
    | (true, is, cs) =>
      if c = 0 then (true, is ++ [i], is.length :: cs)
      else
        let place := is.length - c
        (false, is.getD place i :: is.set place i, (c - 1) :: cs)

/-- The cycles before the first step: each position is exchanged with all later ones. -/
def fullCycles (n k : Nat) : List Nat := (List.range' (n - k) k).reverse

/-- Where a generator of permutations stands. -/
inductive Stage where
  /-- All letters but the last one are the first of the alphabet, and the last one has just been
  drawn. -/
  | drawing (drawn : Nat)
  /-- All letters have been drawn. -/
  | turning (positions cycles : List Nat)
deriving DecidableEq

/-- Words of distinct letters, at least one. When no letter is left to draw, the positions are
advanced past the words given by then. -/
def permutations (n k : Nat) : WordGenerator Stage where
  first := if min k n ≠ k then none else some (.drawing (min k n))
  following
    | .drawing drawn =>
      if drawn < n then some (.drawing (drawn + 1))
      else
        (skip (fun s => advance s.1 s.2) (drawn - k + 1)
          (List.range drawn, fullCycles drawn k)).map fun s => .turning s.1 s.2
    | .turning positions cycles =>
      (unlessEnded (advance positions cycles)).map fun s => .turning s.1 s.2
  word
    | .drawing drawn => letters (List.range (k - 1) ++ [drawn - 1])
    | .turning positions cycles => letters (positions.take cycles.length)

/-! ## Letters -/

/-- A letter becomes the next one, or the first one again after the last of `n`. -/
def onward (n letter : Nat) (word : List Nat) : Bool × List Nat :=
  if letter < n then (false, (letter + 1) :: word) else (true, 1 :: word)

/-- All words. -/
def words (n k : Nat) : WordGenerator (List Nat) where
  first := if 0 < k ∧ n = 0 then none else some (List.replicate k 1)
  following word := unlessEnded (scan (onward n) word)
  word := id

end WordGenerator

/-- The words of length `k` over `1, …, n` as the generator of the family gives them, unless there
are more than `fuel`. -/
def Family.generate (family : Family) (n k fuel : Nat) : Option (List (List Nat)) :=
  if k = 0 then some [[]]
  else
    match family with
    | combinations => (WordGenerator.combinations n k).collect fuel
    | multisets => (WordGenerator.multisets n k).collect fuel
    | permutations => (WordGenerator.permutations n k).collect fuel
    | words => (WordGenerator.words n k).collect fuel

end Clausal
