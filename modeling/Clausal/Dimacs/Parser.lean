import Clausal.Clause
import Clausal.Dimacs.Error
import Clausal.Limits
import Clausal.Text.Blank
import Clausal.Text.Decimal

/-!
# Reading DIMACS files

A file is read line by line. Blank lines and lines that start with `c` are skipped. A line that
starts with `p` announces the numbers of variables and of clauses; there has to be exactly one,
before all clauses. The other lines hold the literals of the clauses, each clause ended by 0 and
free to span several lines.
-/

namespace Clausal.Dimacs

/-! ## Numbers in a line -/

/-- Whether a character separates the parts of a line. -/
def isSpace (c : Char) : Bool :=
  c = ' ' || c = '\t' || c = '\r' || c = '\n'

def skipSpaces (s : List Char) : List Char := s.dropWhile isSpace

/-- Whether nothing follows, or a separator does. -/
def atEnd : List Char → Bool
  | [] => true
  | c :: _ => isSpace c

/-- A sign, if there is one, and the rest. -/
def splitSign : List Char → Bool × List Char
  | '-' :: rest => (true, rest)
  | '+' :: rest => (false, rest)
  | s => (false, s)

def readDigits? (s : List Char) : Option (Nat × List Char) :=
  (digitsValue? (s.takeWhile Char.isDigit)).map fun n => (n, s.dropWhile Char.isDigit)

/-- A number, if it fits into 32 bits. -/
def checked32 (value : Int) : Option Int :=
  if -2147483648 ≤ value ∧ value ≤ 2147483647 then some value else none

/-- Reads a signed number that fits into 32 bits. -/
def readInt? (s : List Char) : Option (Int × List Char) :=
  (readDigits? (splitSign s).2).bind fun (n, rest) =>
    (checked32 (if (splitSign s).1 then -(n : Int) else n)).map fun value => (value, rest)

theorem length_dropWhile_le {α : Type} (p : α → Bool) (s : List α) :
    (s.dropWhile p).length ≤ s.length :=
  (List.dropWhile_sublist p).length_le

theorem length_splitSign_le (s : List Char) : (splitSign s).2.length ≤ s.length := by
  unfold splitSign
  split <;> simp

theorem length_lt_of_readDigits? {s rest : List Char} {n : Nat}
    (h : readDigits? s = some (n, rest)) :
    rest.length < s.length := by
  obtain ⟨n, hn, heq⟩ := Option.map_eq_some_iff.1 h
  obtain ⟨rfl, rfl⟩ := Prod.mk.inj heq
  cases s with
  | nil => simp [digitsValue?] at hn
  | cons c s =>
    by_cases hc : c.isDigit
    · rw [List.dropWhile_cons_of_pos hc]
      exact Nat.lt_succ_of_le (length_dropWhile_le _ _)
    · simp [digitsValue?, hc] at hn

theorem length_lt_of_readInt? {s rest : List Char} {value : Int}
    (h : readInt? s = some (value, rest)) :
    rest.length < s.length := by
  obtain ⟨⟨n, rest⟩, hn, heq⟩ := Option.bind_eq_some_iff.1 h
  obtain ⟨value, -, heq⟩ := Option.map_eq_some_iff.1 heq
  obtain ⟨rfl, rfl⟩ := Prod.mk.inj heq
  exact Nat.lt_of_lt_of_le (length_lt_of_readDigits? hn) (length_splitSign_le s)

/-- Reads the numbers of a line. The error is what is left of the line where it does not go on with
a number. -/
def readValues (s : List Char) : Except (List Char) (List Int) :=
  if (skipSpaces s).isEmpty then .ok []
  else
    match h : readInt? (skipSpaces s) with
    | none => .error (skipSpaces s)
    | some (value, rest) =>
      have : rest.length < s.length :=
        Nat.lt_of_lt_of_le (length_lt_of_readInt? h) (length_dropWhile_le _ _)
      if atEnd rest then (readValues rest).map (value :: ·) else .error rest
termination_by s.length

/-! ## The problem line -/

def expect? (word s : List Char) : Option (List Char) :=
  if word.isPrefixOf s then some (s.drop word.length) else none

def spaces? : List Char → Option (List Char)
  | c :: rest => if isSpace c then some (skipSpaces rest) else none
  | [] => none

/-- Reads an unsigned number that fits into a word. -/
def readWord? (s : List Char) : Option (Nat × List Char) :=
  (readDigits? s).bind fun (n, rest) => (checkedWord n).map fun n => (n, rest)

def readProblemLine? (s : List Char) : Option (Nat × Nat) := do
  let s ← expect? ['p'] s
  let s ← spaces? s
  let s ← expect? ['c', 'n', 'f'] s
  let s ← spaces? s
  let (vars, s) ← readWord? s
  let s ← spaces? s
  let (clauses, s) ← readWord? s
  if (skipSpaces s).isEmpty then some (vars, clauses) else none

/-! ## Lines -/

/-- The numbers of variables and of clauses, once they are announced. -/
abbrev Announced := Option (Nat × Nat)

/-- Refuses the first of some values that is no literal over `vars` variables. Zero is let pass. -/
def checkValues (line vars : Nat) (values : List Int) : Except Error (List Int) :=
  match values.find? fun value => vars < value.natAbs with
  | some value => .error (.literalOutOfRange line value vars)
  | none => .ok values

/-- Reads a line without white space at its ends: what is announced after it, and the values in it.
A blank line and a comment say nothing. -/
def readLine (line : Nat) (announced : Announced) (s : List Char) :
    Except Error (Announced × List Int) :=
  match s.head? with
  | none | some 'c' => .ok (announced, [])
  | some 'p' =>
    if announced.isSome then .error (.duplicateProblemLine line)
    else
      match readProblemLine? s with
      | none => .error (.problemLine line)
      | some (vars, clauses) =>
        if maxVar < vars then .error (.tooManyVariables vars) else .ok (some (vars, clauses), [])
  | some _ =>
    match announced with
    | none => .error (.clauseBeforeProblemLine line)
    | some (vars, _) =>
      match readValues s with
      | .error rest => .error (.unreadableLiteral line (String.ofList rest))
      | .ok values => (checkValues line vars values).map (announced, ·)

def readBytes (line : Nat) (announced : Announced) (bytes : List UInt8) :
    Except Error (Announced × List Int) :=
  match String.fromUTF8? ⟨bytes.toArray⟩ with
  | none => .error (.unreadable .invalidUtf8)
  | some s => readLine line announced (trimBlank s.toList)

/-- Reads lines, the first of which has a given number: what is announced after them, and the values
in all of them. -/
def readLines (line : Nat) (announced : Announced) :
    List (List UInt8) → Except Error (Announced × List Int)
  | [] => .ok (announced, [])
  | bytes :: rest =>
    match readBytes line announced bytes with
    | .error e => .error e
    | .ok (announced, values) =>
      (readLines (line + 1) announced rest).map fun (announced, more) => (announced, values ++ more)

/-- Splits at line feeds. -/
def splitLines : List UInt8 → List (List UInt8)
  | [] => [[]]
  | b :: rest =>
    if b = 10 then [] :: splitLines rest
    else
      match splitLines rest with
      | first :: others => (b :: first) :: others
      | [] => [[b]]

/-! ## Files -/

/-- The literal that a nonzero value stands for. -/
def literalOf (value : Int) : Lit := ⟨value.natAbs, value < 0⟩

/-- The clauses between the zeros, and the literals after the last zero. -/
def splitClauses : List Int → List Clause × Clause
  | [] => ([], [])
  | value :: rest =>
    let (clauses, pending) := splitClauses rest
    if value = 0 then ([] :: clauses, pending)
    else
      match clauses with
      | [] => ([], literalOf value :: pending)
      | c :: clauses => ((literalOf value :: c) :: clauses, pending)

/-- What a file holds, if it is complete. -/
def assemble (announced : Announced) (values : List Int) : Except Error (Nat × List Clause) :=
  let (clauses, pending) := splitClauses values
  if !pending.isEmpty then .error .incompleteClause
  else
    match announced with
    | none => .error .missingProblemLine
    | some (vars, count) =>
      if clauses.length = count then .ok (vars, clauses)
      else .error (.clauseCount count clauses.length)

/-- Reads a file: the number of variables and the clauses. -/
def parse (bytes : ByteArray) : Except Error (Nat × List Clause) :=
  match readLines 1 none (splitLines bytes.data.toList) with
  | .error e => .error e
  | .ok (announced, values) => assemble announced values

end Clausal.Dimacs
