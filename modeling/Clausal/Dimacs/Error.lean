import Clausal.Folder

/-!
# Errors of the DIMACS reader

Lines are numbered from 1, counting comments and blank lines.
-/

namespace Clausal.Dimacs

/-- Why a file cannot be read as text. -/
inductive ReadFailure where
  | invalidUtf8
  | access (e : AccessError)
deriving DecidableEq

/-- Why a file is no DIMACS file. -/
inductive Error where
  /-- A line of a clause does not go on with a literal. -/
  | unreadableLiteral (line : Nat) (rest : String)
  /-- A literal is over a variable that was not announced. -/
  | literalOutOfRange (line : Nat) (value : Int) (vars : Nat)
  | problemLine (line : Nat)
  | duplicateProblemLine (line : Nat)
  | clauseBeforeProblemLine (line : Nat)
  | missingProblemLine
  /-- The last clause is not ended. -/
  | incompleteClause
  /-- The number of clauses is not the one announced. -/
  | clauseCount (expected found : Nat)
  | tooManyVariables (value : Nat)
  /-- The file is no text. -/
  | unreadable (cause : ReadFailure)
deriving DecidableEq

def ReadFailure.message : ReadFailure → String
  | invalidUtf8 => "stream did not contain valid UTF-8"
  | access e => e.message

namespace Error

def message : Error → String
  | unreadableLiteral line rest => s!"invalid literal at line {line}: cannot parse '{rest}'"
  | literalOutOfRange line value vars =>
    s!"invalid literal at line {line}: {value} is not a literal over {vars} variables"
  | problemLine line => s!"p-line at line {line} should have format 'p cnf <n> <m>'"
  | duplicateProblemLine line => s!"there is another p-line at line {line}"
  | clauseBeforeProblemLine line => s!"non comment line {line} before p cnf <n> <m>"
  | missingProblemLine => "missing p-line"
  | incompleteClause => "the last clause is not terminated by 0"
  | clauseCount expected found => s!"expected {expected} clauses but found {found}"
  | tooManyVariables value => s!"value in p-line too large: {value}"
  | unreadable cause => "IO error: " ++ cause.message

/-- Whether two errors are of one kind and agree in what they say. Any two failures to read count as
one. -/
def same : Error → Error → Bool
  | unreadable _, unreadable _ => true
  | e, e' => e = e'

end Error

/-- Whether two readings agree. -/
def sameResult {α : Type} [DecidableEq α] : Except Error α → Except Error α → Bool
  | .ok a, .ok b => a = b
  | .error e, .error e' => e.same e'
  | _, _ => false

end Clausal.Dimacs
