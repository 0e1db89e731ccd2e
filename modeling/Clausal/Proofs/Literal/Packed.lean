import Clausal.Literal.Packed
import Mathlib.Data.Nat.Bitwise

/-!
# Packed literals

The word of a literal is its place in the order (`PackedLit.toNat_pack`), as long as its variable is a
valid one. So nothing is lost in a word (`PackedLit.unpack_pack`), the lowest bit is flipped for the
negation (`PackedLit.flip_pack`), and sorting words sorts literals (`PackedLit.sort_pack`).
-/

namespace Clausal.PackedLit

section

variable {l : Lit} (h : l.var ≤ maxVar)

include h

theorem toNat_pack : l.pack.word.toNat = l.rank := by
  obtain ⟨v, negated⟩ := l
  dsimp only [maxVar] at h
  have hshift : (UInt32.ofNat v <<< 1).toNat = 2 * v := by
    rw [UInt32.toNat_shiftLeft, UInt32.toNat_ofNat', Nat.shiftLeft_eq]
    simp only [UInt32.reduceToNat, Nat.reduceMod, Nat.reducePow]
    omega
  rw [Lit.pack, UInt32.toNat_add, hshift, Lit.rank]
  cases negated with
  | false =>
    simp only [Bool.false_eq_true, if_false, UInt32.reduceToNat, Bool.toNat_false]
    omega
  | true =>
    simp only [if_true, UInt32.reduceToNat, Bool.toNat_true]
    omega

theorem var_pack : l.pack.var = l.var := by
  rw [var, UInt32.toNat_shiftRight, toNat_pack h, Lit.rank]
  have hbit := l.negated.toNat_lt
  simp only [UInt32.reduceToNat, Nat.reduceMod, Nat.shiftRight_one]
  omega

theorem negated_pack : l.pack.negated = l.negated := by
  have hbit : (l.pack.word &&& 1).toNat = l.negated.toNat := by
    have hlt := l.negated.toNat_lt
    rw [UInt32.toNat_and, toNat_pack h, Lit.rank]
    simp only [UInt32.reduceToNat, Nat.and_one_is_mod]
    omega
  simp only [negated, ← UInt32.toNat_inj, hbit]
  cases l.negated <;> rfl

theorem unpack_pack : l.pack.unpack = l := by
  rw [unpack, var_pack h, negated_pack h]

theorem flip_pack : l.pack.flip = l.flip.pack := by
  have hflip : l.flip.var ≤ maxVar := h
  have hword : (l.pack.word ^^^ 1).toNat = l.flip.pack.word.toNat := by
    rw [UInt32.toNat_xor, toNat_pack h, toNat_pack hflip]
    obtain ⟨v, negated⟩ := l
    cases negated with
    | false => exact Nat.xor_one_of_even (even_two_mul v)
    | true => exact Nat.xor_one_of_odd (odd_two_mul_add_one v)
  rw [flip, UInt32.toNat_inj.mp hword]

end

theorem pack_inj {l m : Lit} (hl : l.var ≤ maxVar) (hm : m.var ≤ maxVar) :
    l.pack = m.pack ↔ l = m := by
  refine ⟨fun h => ?_, congrArg Lit.pack⟩
  rw [← unpack_pack hl, h, unpack_pack hm]

theorem le_pack {l m : Lit} (hl : l.var ≤ maxVar) (hm : m.var ≤ maxVar) :
    l.pack.le m.pack = l.le m := by
  rw [le, Lit.le, decide_eq_decide, UInt32.le_iff_toNat_le, toNat_pack hl, toNat_pack hm]

theorem sort_pack {lits : List Lit} (h : ∀ l ∈ lits, l.var ≤ maxVar) :
    sort (lits.map Lit.pack) = (Lit.sort lits).map Lit.pack := by
  rw [sort, Lit.sort, List.map_mergeSort]
  intro l hl m hm
  exact (le_pack (h l hl) (h m hm)).symm

end Clausal.PackedLit
