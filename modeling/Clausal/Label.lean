import Clausal.Error
import Clausal.Text.Decimal

/-!
# Label formats

A label format is a text with placeholders. An empty pair of braces stands for the next argument, a
number between braces for the argument at that position, counted from 0, and whatever follows a
colon inside of a placeholder is ignored. A doubled brace stands for itself; so does a closing brace
on its own.

A format is read in two steps: `tokens` finds the placeholders, `resolve` numbers them.
-/

namespace Clausal

/-- A piece of a format. -/
inductive LabelPiece where
  | char (c : Char)
  | argument (position : Nat)
deriving DecidableEq

/-- A format, ready to be filled in. -/
structure LabelFormat where
  pieces : List LabelPiece
deriving DecidableEq

namespace LabelFormat

/-! ## Reading -/

/-- A piece of the text of a format. -/
inductive Token where
  | char (c : Char)
  | placeholder (content : List Char)
  | unterminated
deriving DecidableEq

/-- Splits the text of a format. The first argument is the content of the placeholder that is being
read, in reverse, if there is one. -/
def tokens : Option (List Char) → List Char → List Token
  | none, [] => []
  | some _, [] => [.unterminated]
  | some content, c :: rest =>
    if c = '\x7d' then .placeholder content.reverse :: tokens none rest
    else tokens (some (c :: content)) rest
  | none, c :: rest =>
    if c = '\x7b' then
      match rest with
      | d :: rest' =>
        if d = '\x7b' then .char '\x7b' :: tokens none rest' else tokens (some []) (d :: rest')
      | [] => tokens (some []) []
    else if c = '\x7d' then
      match rest with
      | d :: rest' =>
        .char '\x7d' :: if d = '\x7d' then tokens none rest' else tokens none (d :: rest')
      | [] => [.char '\x7d']
    else .char c :: tokens none rest

/-- The number in a placeholder: decimal digits that may follow a plus sign, and fit into a word. -/
def position? (digits : List Char) : Option Nat :=
  (digitsValue? (match digits with
    | '+' :: rest => rest
    | _ => digits)).bind checkedWord

/-- Turns tokens into pieces. `next` is the argument that the next empty placeholder stands for. -/
def resolve (format : String) (arguments : Nat) (next : Nat) :
    List Token → Except Error (List LabelPiece)
  | [] => .ok []
  | .char c :: rest => (resolve format arguments next rest).map (.char c :: ·)
  | .unterminated :: _ => .error (.unterminatedPlaceholder format)
  | .placeholder content :: rest =>
    let name := content.takeWhile (· ≠ ':')
    if name.isEmpty then
      if arguments ≤ next then .error (.tooFewArguments format arguments)
      else (resolve format arguments (next + 1) rest).map (.argument next :: ·)
    else
      match position? name with
      | none => .error (.invalidPlaceholder (String.ofList content) format)
      | some i =>
        if arguments ≤ i then .error (.tooFewArguments format arguments)
        else (resolve format arguments next rest).map (.argument i :: ·)

/-- Reads a format that will be filled in with a given number of arguments. -/
def parse (format : String) (arguments : Nat) : Except Error LabelFormat :=
  (resolve format arguments 0 (tokens none format.toList)).map (⟨·⟩)

/-! ## Filling in -/

/-- The text of one piece. An argument that is not there leaves nothing. -/
def renderPiece (arguments : List String) : LabelPiece → String
  | .char c => String.singleton c
  | .argument i => arguments[i]?.getD ""

/-- The format with its arguments filled in. -/
def render (format : LabelFormat) (arguments : List String) : String :=
  String.join (format.pieces.map (renderPiece arguments))

/-! ## Defaults -/

/-- The format of variables that no group labels: the name `varText` of the identifier. -/
def plain : LabelFormat := ⟨[.char 'x', .argument 0]⟩

/-- The text of a format with a name and `n` placeholders between parentheses. -/
def tuple (name : String) (n : Nat) : String :=
  name ++ "(" ++ ",".intercalate (List.replicate n "\x7b\x7d") ++ ")"

end LabelFormat

end Clausal
