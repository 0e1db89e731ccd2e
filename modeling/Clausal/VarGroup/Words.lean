import Clausal.VarGroup.Index
import Clausal.Label

/-!
# Words

One variable for each word of length `k` of a family over `1, …, n`, in lexicographic order. The
label has one argument, the letters of the word with commas between them.
-/

namespace Clausal

/-- The variables of the words of a family. -/
structure Words where
  ids : IdRange
  n : Nat
  k : Nat
  family : Family
  sequences : List Index
  format : LabelFormat
deriving DecidableEq

namespace Words

def defaultLabel : String := "p_\x7b\x7b\x7b\x7d\x7d\x7d"

def create (start n k : Nat) (family : Family) (label : Option String) : Except Error Words := do
  let sequences := family.sequences n k
  let ids ← IdRange.alloc start sequences.length
  let format ← LabelFormat.parse (label.getD defaultLabel) 1
  return ⟨ids, n, k, family, sequences, format⟩

def idOf (g : Words) (word : Index) : Except Error Nat :=
  if g.family.accepts g.n word then
    match g.sequences.idxOf? word with
    | some i => .ok (g.ids.first + i)
    | none => .error (.notListed word)
  else .error (.notAWord word g.family g.k g.n)

/-- The pattern written out, if its letters are in the alphabet and, where no component is open,
form a word. -/
def checkPattern (g : Words) (p : Pattern) : Except Error Pattern := do
  let p ← p.expand g.k
  match p.reduceOption.find? fun i => i = 0 || g.n < i with
  | some i => throw (.letter i g.n)
  | none =>
    match p.fixed? with
    | some word =>
      let _ ← g.idOf word
      return p
    | none => return p

/-- The words that match a pattern, in lexicographic order. -/
def indices (g : Words) (p : Pattern) : Except Error (List Index) :=
  (g.checkPattern p).map fun p => g.sequences.filter p.admits

def evaluate (g : Words) (word : Index) : Except Error Lit := do
  word.checkLength g.k
  return .positive (← g.idOf word)

def lits (g : Words) (p : Pattern) : Except Error (List Lit) :=
  (g.checkPattern p).map fun p =>
    let matching := (g.sequences.zip g.ids.toList).filter fun (word, _) => p.admits word
    matching.map fun (_, id) => .positive id

def toIndex (g : Words) (l : Lit) : Except Error Index :=
  if g.ids.contains l then .ok (g.sequences[l.var - g.ids.first]?.getD [])
  else .error (g.ids.outside l)

def renderLabel (g : Words) (word : Index) : String :=
  g.format.render [",".intercalate (word.map toString)]

end Words

end Clausal
