import Clausal.Limits
import Clausal.Literal
import Clausal.VarGroup.Family

/-!
# Errors

One constructor for each way in which a call can be refused. `Error.message` words it, `Error.kind`
says which of the four classes it belongs to. `invalidIdentifier` is the odd one out: it belongs to
no class, because a caller who vouches for an identifier that is not valid gets no answer at all.
-/

namespace Clausal

/-- The class of an error. -/
inductive ErrorKind where
  | invalidLiteral
  | indexOutOfRange
  | invalidArgument
  | overlapViolation
  | fatal
deriving DecidableEq

/-- Why a call is refused. -/
inductive Error where
  | zeroLiteral
  | variableIdentifier (id : Nat)
  /-- The caller vouched for an identifier that is not valid. -/
  | invalidIdentifier (id : Nat)
  | vertex (v order : Nat)
  | leftVertex (v order : Nat)
  | rightVertex (v order : Nat)
  | notAnEdge (u v : Nat)
  | component (position value range : Nat)
  | letter (i n : Nat)
  /-- A sequence is not in the family. -/
  | notAWord (word : List Nat) (family : Family) (k n : Nat)
  /-- A sequence is missing from the table of the group. -/
  | notListed (word : List Nat)
  | domain (i n : Nat)
  | bit (b bits : Nat)
  | notInGroup (var first last : Nat)
  | selfLoop (v : Nat)
  | patternLength (given arity : Nat)
  | indexLength (given arity : Nat)
  | tooManyVariables (size start : Nat)
  | noDimension
  | emptyDimension (position : Nat)
  | blockTooLarge
  | emptyMapping (n m : Nat)
  | mappingTooLarge
  | tooFewBits (j bits : Nat)
  | unterminatedPlaceholder (format : String)
  | invalidPlaceholder (placeholder format : String)
  | tooFewArguments (format : String) (arguments : Nat)
  | relationSymbol (text : String)
  /-- `≠` cannot be stated by one linear constraint. -/
  | notPseudoBoolean
  | zeroCoefficient (lit : Lit)
  /-- A bound is out of range once normalized. -/
  | boundOverflow
  | emptyParity
  | parityConstant (constant : Nat)
  | unknownVariable (lit : Lit) (vars : Nat)
  /-- A mapping belongs to no group of the formula. -/
  | foreignMapping
  /-- A group starts too low. -/
  | overlap (first last vars : Nat)
deriving DecidableEq

/-- Numbers between brackets. -/
def bracketed (items : List String) : String :=
  "[" ++ ", ".intercalate items ++ "]"

namespace Error

def kind : Error → ErrorKind
  | zeroLiteral | variableIdentifier _ => .invalidLiteral
  | invalidIdentifier _ => .fatal
  | vertex .. | leftVertex .. | rightVertex .. | notAnEdge .. | component .. | letter ..
  | notAWord .. | notListed .. | domain .. | bit .. | notInGroup .. => .indexOutOfRange
  | overlap .. => .overlapViolation
  | _ => .invalidArgument

/-- What an error says, without its class. -/
def detail : Error → String
  | zeroLiteral => "0 is not a valid literal"
  | variableIdentifier id => s!"variable identifier {id} is not in 1..={maxVar}"
  | invalidIdentifier id => s!"invalid variable identifier {id}"
  | vertex v order => s!"vertex {v} is not in 1..={order}"
  | leftVertex v order => s!"left vertex {v} is not in 1..={order}"
  | rightVertex v order => s!"right vertex {v} is not in 1..={order}"
  | notAnEdge u v => s!"({u},{v}) is not an edge"
  | component position value range =>
    s!"component {position} of the index is {value}, not in 1..={range}"
  | letter i n => s!"{i} is not in the alphabet 1..={n}"
  | notAWord word family k n =>
    bracketed (word.map toString) ++ " is not one of the " ++ family.name
      ++ s!" of length {k} over 1..={n}"
  | notListed word => bracketed (word.map toString) ++ " is not an index of the group"
  | domain i n => s!"{i} is not in the domain 1..={n}"
  | bit b bits => s!"bit {b} is not in 0..{bits}"
  | notInGroup var first last => s!"variable {var} is not in the group range {first}..={last}"
  | selfLoop v => s!"self loop on vertex {v} in a simple graph"
  | patternLength given arity => s!"pattern has {given} components but indices have {arity}"
  | indexLength given arity => s!"index has {given} components but should have {arity}"
  | tooManyVariables size start =>
    s!"{size} variables starting from {start} exceed the maximum variable identifier"
  | noDimension => "a block needs at least one dimension"
  | emptyDimension position => s!"dimension {position} of the block is empty"
  | blockTooLarge => "block is too large"
  | emptyMapping n m =>
    s!"binary mapping from {n} to {m} elements needs a non-empty domain and range"
  | mappingTooLarge => "binary mapping is too large"
  | tooFewBits j bits => s!"{j} cannot be written with {bits} bits"
  | unterminatedPlaceholder format => s!"unterminated placeholder in label '{format}'"
  | invalidPlaceholder placeholder format =>
    "invalid placeholder '\x7b" ++ placeholder ++ s!"\x7d' in label '{format}'"
  | tooFewArguments format arguments => s!"label '{format}' needs more than {arguments} arguments"
  | relationSymbol text =>
    s!"invalid operator '{text}', only <, <=, >, >=, ==, != allowed"
  | notPseudoBoolean => "!= is not a pseudo-boolean relation"
  | zeroCoefficient lit => "coefficient of " ++ lit.text ++ " must be nonzero"
  | boundOverflow => "bound of the pseudo-boolean constraint overflows"
  | emptyParity => "parity constraint over no literals"
  | parityConstant constant => s!"parity constant must be 0 or 1, not {constant}"
  | unknownVariable lit vars =>
    "literal " ++ lit.text ++ s!" refers to a variable beyond the {vars} variables of the formula"
  | foreignMapping => "the mapping was not created by this formula"
  | overlap first last vars =>
    s!"group {first}..={last} starts at or before the last used variable {vars}"

def message (e : Error) : String :=
  match e.kind with
  | .invalidLiteral => "invalid literal: " ++ e.detail
  | .indexOutOfRange => "index out of range: " ++ e.detail
  | .invalidArgument => "invalid argument: " ++ e.detail
  | .overlapViolation => "variable groups overlap: " ++ e.detail
  | .fatal => e.detail

end Error

end Clausal
