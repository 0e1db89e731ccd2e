import Clausal.Limits
import Clausal.Literal

/-!
# Literals in a word

A literal is kept in a word of 32 bits: the identifier of its variable above the lowest bit, and in
the lowest bit whether the literal is negated. Literals are compared by their words.
-/

namespace Clausal

/-- A literal in a word. -/
structure PackedLit where
  word : UInt32
deriving DecidableEq

/-- The word of a literal. -/
def Lit.pack (l : Lit) : PackedLit :=
  ⟨(UInt32.ofNat l.var <<< 1) + if l.negated then 1 else 0⟩

namespace PackedLit

def var (p : PackedLit) : Nat := (p.word >>> 1).toNat

def negated (p : PackedLit) : Bool := p.word &&& 1 = 1

def flip (p : PackedLit) : PackedLit := ⟨p.word ^^^ 1⟩

def le (p q : PackedLit) : Bool := p.word ≤ q.word

def sort (ps : List PackedLit) : List PackedLit := ps.mergeSort le

/-- The literal that a word stands for. -/
def unpack (p : PackedLit) : Lit := ⟨p.var, p.negated⟩

end PackedLit

end Clausal
