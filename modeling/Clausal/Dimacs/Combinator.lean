import Clausal.Dimacs.Parser
import Clausal.Literal.Dimacs

/-!
# The reader put together from small parsers

The reader in another form. Its lines are read by small parsers, which are put together and tell
apart several ways to stop (`Stop`). Numbers are checked digit by digit, and the reader replaces the
errors of the parsers by its own ones. The clauses are collected while the lines are read.
-/

namespace Clausal.Dimacs.Combinator

/-! ## Parsers -/

/-- What a parser was looking for. -/
inductive Expected where
  | tag
  | space
  | digit
  | separatedList
  | eof
deriving DecidableEq

/-- Where a parser did not find what it was looking for. -/
structure Mismatch where
  rest : List Char
  expected : Expected
deriving DecidableEq

/-- How a parser stops: for want of input, in a way that lets another parser try, or for good. -/
inductive Stop (ε : Type) where
  | incomplete
  | error (e : ε)
  | failure (e : ε)
deriving DecidableEq

def Stop.map {ε ε' : Type} (f : ε → ε') : Stop ε → Stop ε'
  | incomplete => incomplete
  | error e => error (f e)
  | failure e => failure (f e)

/-- What is read from the start of a text, and the rest of the text. -/
abbrev Result (α : Type) := Except (Stop Mismatch) (α × List Char)

structure Parser (α : Type) where
  run : List Char → Result α
  length_le : ∀ {s rest : List Char} {a : α}, run s = .ok (a, rest) → rest.length ≤ s.length

namespace Parser

variable {α β γ : Type}

/-- Looks for something that may be there or not. -/
def ofOption (expected : Expected) (read : List Char → Option (α × List Char))
    (h : ∀ (s rest : List Char) (a : α), read s = some (a, rest) → rest.length ≤ s.length) :
    Parser α where
  run s :=
    match read s with
    | none => .error (.error ⟨s, expected⟩)
    | some result => .ok result
  length_le := by
    intro s rest a hrun
    split at hrun
    · cases hrun
    · rename_i result hread
      cases hrun
      exact h _ _ _ hread

def map (f : α → β) (p : Parser α) : Parser β where
  run s :=
    match p.run s with
    | .error e => .error e
    | .ok (a, rest) => .ok (f a, rest)
  length_le := by
    intro s rest b hrun
    split at hrun
    · cases hrun
    · rename_i a rest' hp
      cases hrun
      exact p.length_le hp

/-- One parser after the other. -/
def seq (p : Parser α) (q : Parser β) : Parser (α × β) where
  run s :=
    match p.run s with
    | .error e => .error e
    | .ok (a, next) =>
      match q.run next with
      | .error e => .error e
      | .ok (b, rest) => .ok ((a, b), rest)
  length_le := by
    intro s rest ab hrun
    split at hrun
    · cases hrun
    · rename_i a next hp
      split at hrun
      · cases hrun
      · rename_i b rest' hq
        cases hrun
        exact Nat.le_trans (q.length_le hq) (p.length_le hp)

def terminated (p : Parser α) (q : Parser β) : Parser α :=
  (p.seq q).map (·.1)

def delimited (p : Parser α) (q : Parser β) (r : Parser γ) : Parser β :=
  (p.seq (q.terminated r)).map (·.2)

/-- Nothing may be left of the text. -/
def allConsuming (p : Parser α) : Parser α where
  run s :=
    match p.run s with
    | .error e => .error e
    | .ok (a, rest) => if rest.isEmpty then .ok (a, rest) else .error (.error ⟨rest, .eof⟩)
  length_le := by
    intro s rest a hrun
    split at hrun
    · cases hrun
    · rename_i a' rest' hp
      split at hrun
      · cases hrun
        exact p.length_le hp
      · cases hrun

/-- The other elements of a list. A separator without an element after it is left, and one that takes
up nothing is refused. -/
def more (separator : Parser β) (p : Parser α) (s : List Char) : Result (List α) :=
  match hseparator : separator.run s with
  | .error (.error _) => .ok ([], s)
  | .error e => .error e
  | .ok (_, next) =>
    if hsame : next.length = s.length then .error (.error ⟨next, .separatedList⟩)
    else
      match hp : p.run next with
      | .error (.error _) => .ok ([], s)
      | .error e => .error e
      | .ok (a, after) =>
        have : after.length < s.length := Nat.lt_of_le_of_lt (p.length_le hp)
          (Nat.lt_of_le_of_ne (separator.length_le hseparator) hsame)
        match more separator p after with
        | .error e => .error e
        | .ok (as, rest) => .ok (a :: as, rest)
termination_by s.length

theorem length_le_of_more {separator : Parser β} {p : Parser α} {s rest : List Char} {as : List α}
    (h : more separator p s = .ok (as, rest)) : rest.length ≤ s.length := by
  rw [more] at h
  split at h
  · cases h
    exact Nat.le_refl _
  · cases h
  · rename_i next hseparator
    split at h
    · cases h
    · rename_i hsame
      split at h
      · cases h
        exact Nat.le_refl _
      · cases h
      · rename_i a after hp
        have hshorter : after.length < s.length := Nat.lt_of_le_of_lt (p.length_le hp)
          (Nat.lt_of_le_of_ne (separator.length_le hseparator) hsame)
        dsimp only at h
        split at h
        · cases h
        · rename_i as' rest' hmore
          cases h
          exact Nat.le_trans (length_le_of_more hmore) (Nat.le_of_lt hshorter)
termination_by s.length

/-- Elements between separators, as many as there are. -/
def separatedList (separator : Parser β) (p : Parser α) : Parser (List α) where
  run s :=
    match p.run s with
    | .error (.error _) => .ok ([], s)
    | .error e => .error e
    | .ok (a, next) =>
      match more separator p next with
      | .error e => .error e
      | .ok (as, rest) => .ok (a :: as, rest)
  length_le := by
    intro s rest as hrun
    split at hrun
    · cases hrun
      exact Nat.le_refl _
    · cases hrun
    · rename_i a next hp
      split at hrun
      · cases hrun
      · rename_i as' rest' hmore
        cases hrun
        exact Nat.le_trans (length_le_of_more hmore) (p.length_le hp)

end Parser

/-! ## Characters and numbers -/

theorem length_le_of_expect? {word s rest : List Char} (h : expect? word s = some rest) :
    rest.length ≤ s.length := by
  unfold expect? at h
  split at h
  · cases h
    rw [List.length_drop]
    exact Nat.sub_le _ _
  · cases h

/-- A given word. -/
def tag (word : List Char) : Parser Unit :=
  .ofOption .tag (fun s => (expect? word s).map fun rest => ((), rest)) (by
    intro s rest _ h
    obtain ⟨rest', hrest, heq⟩ := Option.map_eq_some_iff.mp h
    cases heq
    exact length_le_of_expect? hrest)

theorem length_le_of_spaces? {s rest : List Char} (h : spaces? s = some rest) :
    rest.length ≤ s.length := by
  cases s with
  | nil => cases h
  | cons c s =>
    rw [spaces?] at h
    split at h
    · cases h
      exact Nat.le_succ_of_le (length_dropWhile_le isSpace s)
    · cases h

/-- At least one separator. -/
def space1 : Parser Unit :=
  .ofOption .space (fun s => (spaces? s).map fun rest => ((), rest)) (by
    intro s rest _ h
    obtain ⟨rest', hrest, heq⟩ := Option.map_eq_some_iff.mp h
    cases heq
    exact length_le_of_spaces? hrest)

/-- Any number of separators. -/
def space0 : Parser Unit where
  run s := .ok ((), skipSpaces s)
  length_le := by
    intro s rest _ h
    cases h
    exact length_dropWhile_le isSpace s

/-- Goes on with the digits of a number, as long as each of them can be taken up. -/
def scan {ν : Type} (step : ν → Nat → Option ν) (value : ν) : List Char → Option (ν × List Char)
  | [] => some (value, [])
  | c :: s =>
    if c.isDigit then
      (step value (c.toNat - '0'.toNat)).bind fun value => scan step value s
    else some (value, c :: s)

/-- Reads a number that starts with a digit. -/
def scanNumber {ν : Type} (step : ν → Nat → Option ν) (zero : ν) (s : List Char) :
    Option (ν × List Char) :=
  if s.head?.any Char.isDigit then scan step zero s else none

theorem length_le_of_scan {ν : Type} {step : ν → Nat → Option ν} {s rest : List Char}
    {value value' : ν} (h : scan step value s = some (value', rest)) : rest.length ≤ s.length := by
  induction s generalizing value with
  | nil =>
    cases h
    exact Nat.le_refl _
  | cons c s ih =>
    rw [scan] at h
    split at h
    · obtain ⟨next, -, hnext⟩ := Option.bind_eq_some_iff.mp h
      exact Nat.le_succ_of_le (ih hnext)
    · cases h
      exact Nat.le_refl _

theorem length_le_of_scanNumber {ν : Type} {step : ν → Nat → Option ν} {s rest : List Char}
    {zero value : ν} (h : scanNumber step zero s = some (value, rest)) : rest.length ≤ s.length := by
  unfold scanNumber at h
  split at h
  · exact length_le_of_scan h
  · cases h

/-- Another digit of a number, which has to stay in a word. -/
def wordStep (value digit : Nat) : Option Nat :=
  (checkedWord (10 * value)).bind fun value => checkedWord (value + digit)

/-- Another digit of a number, which has to stay within 32 bits. A negative one is counted down. -/
def intStep (negative : Bool) (value : Int) (digit : Nat) : Option Int :=
  (checked32 (10 * value)).bind fun value =>
    checked32 (if negative then value - digit else value + digit)

def word : Parser Nat :=
  .ofOption .digit (scanNumber wordStep 0) fun _ _ _ => length_le_of_scanNumber

def int : Parser Int :=
  .ofOption .digit (fun s => scanNumber (intStep (splitSign s).1) 0 (splitSign s).2) (by
    intro s rest value h
    exact Nat.le_trans (length_le_of_scanNumber h) (length_splitSign_le s))

/-! ## Lines -/

/-- Why a file is not read. -/
inductive Error where
  /-- One of the reader's own reasons. -/
  | known (e : Dimacs.Error)
  /-- A number stands for no literal. -/
  | literal (line : Nat) (e : Clausal.Error)
  /-- The error of a parser as it is. -/
  | mismatch (m : Mismatch)
  /-- A parser wants more input. -/
  | incomplete
deriving DecidableEq

def Stop.unwrap : Stop Error → Error
  | incomplete => .incomplete
  | error e => e
  | failure e => e

def problemParser : Parser (Unit × Unit × Unit × Unit × Nat × Unit × Nat) :=
  (tag ['p']).seq <| space1.seq <| (tag ['c', 'n', 'f']).seq <| space1.seq <|
    word.seq <| space1.seq <| word.terminated space0

/-- Reads a problem line: the numbers of variables and clauses. -/
def problemLine (line : Nat) (s : List Char) : Except (Stop Error) ((Nat × Nat) × List Char) :=
  match problemParser.allConsuming.run s with
  | .error stop => .error (stop.map fun _ => .known (.problemLine line))
  | .ok ((_, _, _, _, vars, _, clauses), rest) =>
    if vars < counterSize ∧ vars ≤ maxVar then
      match checkedWord clauses with
      | none => .error (.error (.known (.tooManyVariables clauses)))
      | some clauses => .ok ((vars, clauses), rest)
    else .error (.error (.known (.tooManyVariables vars)))

def valuesParser : Parser (List Int) :=
  space0.delimited (.separatedList space1 int) space0

/-- Reads a line of numbers. -/
def valuesLine (line : Nat) (s : List Char) : Except (Stop Error) (List Int × List Char) :=
  match valuesParser.allConsuming.run s with
  | .error stop => .error (stop.map fun m => .known (.unreadableLiteral line (String.ofList m.rest)))
  | .ok result => .ok result

/-- What has been read: the problem line, the clauses that are complete, and the literals of the one
that is not. -/
structure State where
  announced : Announced
  clauses : List Clause
  buffer : Clause

def addValue (line vars : Nat) (state : State) (value : Int) : Except Error State :=
  if value = 0 then .ok { state with clauses := state.clauses ++ [state.buffer], buffer := [] }
  else if vars < value.natAbs then .error (.known (.literalOutOfRange line value vars))
  else
    match Lit.ofDimacs value with
    | .error e => .error (.literal line e)
    | .ok l => .ok { state with buffer := state.buffer ++ [l] }

def readLine (line : Nat) (state : State) (s : List Char) : Except Error State :=
  match s.head? with
  | none | some 'c' => .ok state
  | some 'p' =>
    if state.announced.isSome then .error (.known (.duplicateProblemLine line))
    else
      match problemLine line s with
      | .error stop => .error stop.unwrap
      | .ok (numbers, _) => .ok { state with announced := some numbers }
  | some _ =>
    match state.announced with
    | none => .error (.known (.clauseBeforeProblemLine line))
    | some (vars, _) =>
      match valuesLine line s with
      | .error stop => .error stop.unwrap
      | .ok (values, _) => values.foldlM (addValue line vars) state

def readLines (line : Nat) (state : State) : List (List UInt8) → Except Error State
  | [] => .ok state
  | bytes :: rest =>
    match String.fromUTF8? ⟨bytes.toArray⟩ with
    | none => .error (.known (.unreadable .invalidUtf8))
    | some s =>
      match readLine line state (trimBlank s.toList) with
      | .error e => .error e
      | .ok state => readLines (line + 1) state rest

/-! ## Files -/

/-- What a file holds, if it is complete. -/
def finish (state : State) : Except Error (Nat × List Clause) :=
  if !state.buffer.isEmpty then .error (.known .incompleteClause)
  else
    match state.announced with
    | none => .error (.known .missingProblemLine)
    | some (vars, count) =>
      if state.clauses.length ≠ count then .error (.known (.clauseCount count state.clauses.length))
      else .ok (vars, state.clauses)

/-- Reads a file: the number of variables and the clauses. -/
def parse (bytes : ByteArray) : Except Error (Nat × List Clause) :=
  match readLines 1 ⟨none, [], []⟩ (splitLines bytes.data.toList) with
  | .error e => .error e
  | .ok state => finish state

end Clausal.Dimacs.Combinator
