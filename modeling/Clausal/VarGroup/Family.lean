import Clausal.Selection

/-!
# Families of words

The four families of sequences over `1, …, n` that can index variables, each given by a list of its
words and by the property that they have.
-/

namespace Clausal

/-- A family of sequences over `1, …, n`. -/
inductive Family where
  /-- Strictly increasing sequences. -/
  | combinations
  /-- Non-decreasing sequences. -/
  | multisets
  /-- Sequences of distinct letters. -/
  | permutations
  /-- All sequences. -/
  | words
deriving DecidableEq

namespace Family

def name : Family → String
  | combinations => "combinations"
  | multisets => "combinations with replacement"
  | permutations => "permutations"
  | words => "words"

/-- The words of length `k` over `1, …, n`, in lexicographic order. There is one empty word whatever
the letters are, and no permutation of more letters than there are. -/
def sequences (family : Family) (n k : Nat) : List (List Nat) :=
  if k = 0 then [[]]
  else
    let letters := List.range' 1 n
    match family with
    | combinations => selections k letters
    | multisets => multiselections k letters
    | permutations => if n < k then [] else arrangements k letters
    | words => tuples (List.replicate k letters)

/-- Whether each letter stands in a relation to the next one. -/
def chain (rel : Nat → Nat → Bool) : List Nat → Bool
  | [] => true
  | [_] => true
  | a :: b :: rest => rel a b && chain rel (b :: rest)

/-- Whether no letter occurs twice. -/
def allDistinct : List Nat → Bool
  | [] => true
  | a :: rest => !rest.contains a && allDistinct rest

/-- Whether a sequence over `1, …, n` belongs to the family. -/
def accepts (family : Family) (n : Nat) (word : List Nat) : Bool :=
  word.all (fun i => 1 ≤ i && i ≤ n) &&
    match family with
    | combinations => chain (· < ·) word
    | multisets => chain (· ≤ ·) word
    | permutations => allDistinct word
    | words => true

end Family

end Clausal
