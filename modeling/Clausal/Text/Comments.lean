import Clausal.Header

/-!
# Comment lines

Both file formats carry the header of a formula and the labels of its variables as comments: lines
that start with a mark. A line with nothing but the mark ends each of the two parts.
-/

namespace Clausal

/-- Lines, each ended by a line feed. -/
def unlines (lines : List String) : String :=
  String.join (lines.map (· ++ "\n"))

/-- Whether a character is printable ASCII. -/
def isPrintable (c : Char) : Bool :=
  0x20 ≤ c.toNat && c.toNat < 0x7F

/-- The text with a question mark for each character that is not printable ASCII. -/
def printable (s : String) : String :=
  String.ofList (s.toList.map fun c => if isPrintable c then c else '?')

/-- One line for each field of a header. -/
def headerComments (mark : String) (header : Header) : List String :=
  header.map (fun (field, value) => mark ++ " " ++ printable field ++ ": " ++ printable value)
    ++ [mark]

/-- One line for each label, with the number of the variable. -/
def labelComments (mark : String) (labels : List String) : List String :=
  (labels.zipIdx 1).map (fun (label, i) => mark ++ s!" varname {i} {label}") ++ [mark]

/-- The comments that are asked for, header first. -/
def comments (mark : String) (header : Option Header) (labels : Option (List String)) :
    List String :=
  (header.map (headerComments mark)).getD [] ++ (labels.map (labelComments mark)).getD []

end Clausal
