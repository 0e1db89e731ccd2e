/-!
# Headers

A header is a list of named fields with a value each, in the order in which they were first set.
-/

namespace Clausal

/-- Fields and their values. -/
abbrev Header := List (String × String)

namespace Header

def descriptionField : String := "description"

def field? (h : Header) (field : String) : Option String :=
  (h.find? (·.1 = field)).map (·.2)

/-- Sets a field, at its place if it exists, at the end otherwise. -/
def put (h : Header) (field value : String) : Header :=
  match h with
  | [] => [(field, value)]
  | (f, v) :: rest => if f = field then (f, value) :: rest else (f, v) :: put rest field value

end Header

end Clausal
