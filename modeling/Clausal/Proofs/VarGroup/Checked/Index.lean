import Clausal.VarGroup.Checked
import Clausal.Proofs.Checked
import Clausal.Proofs.VarGroup.Pattern

/-!
# Checked identifiers, indices and patterns

Identifiers that end at the last variable there can be fit into a counter, and so does the one after
them. Only the empty range at identifier zero has no identifier before its end.
-/

namespace Clausal

/-! ## Identifiers -/

theorem maxVar_lt : maxVar + 1 < counterSize := by decide

theorem counterSize_lt : counterSize < wordSize := by decide

theorem checkedId_of_le {first place : Nat} (h : first + place ≤ maxVar + 1) :
    checkedId first place = some (first + place) := by
  have := maxVar_lt
  rw [checkedId, checkedCounter_of_lt (by omega), Option.bind_eq_bind, Option.bind_some,
    checkedCounter_of_lt (by omega)]

theorem checkedId_eq_some {start size stop : Nat} (h : checkedId start size = some stop) :
    stop = start + size := by
  rw [checkedId, Option.bind_eq_bind, Option.bind_eq_some_iff] at h
  obtain ⟨size', hsize, hstop⟩ := h
  rw [checkedCounter] at hsize hstop
  split_ifs at hsize hstop
  cases hsize
  cases hstop
  rfl

theorem IdRange.checkedAlloc_eq {start size : Nat} (h : 0 < start + size) :
    checkedAlloc start size = .of (alloc start size) := by
  rw [checkedAlloc, alloc]
  cases hid : checkedId start size with
  | none =>
    rw [if_neg fun hstop => by
      rw [checkedId_of_le hstop.2] at hid
      cases hid]
    rfl
  | some stop =>
    obtain rfl := checkedId_eq_some hid
    have hlast : checkedSub (start + size) 1 = some (start + size - 1) := checkedSub_of_le h
    dsimp only
    rw [hlast, Checked.step_some, Checked.of_ok_bind]
    by_cases hstop : start + size ≤ maxVar + 1
    · rw [if_pos (by omega), if_pos ⟨h, hstop⟩]
      rfl
    · rw [if_neg (by omega), if_neg fun hboth => hstop hboth.2]
      rfl

/-! ## Components -/

theorem Index.checkedPair_pair (u v : Nat) : checkedPair [u, v] = .of (.ok (u, v)) := rfl

theorem Pattern.checkedSides_eq (p : Pattern) : p.checkedSides = .of (BipartiteEdges.sides p) := by
  rw [checkedSides, BipartiteEdges.sides, expand_eq]
  by_cases hmismatched : p.Mismatched 2
  · rw [if_pos hmismatched]
    rfl
  · obtain ⟨u, v, huv⟩ := List.length_eq_two.mp (length_full hmismatched)
    rw [if_neg hmismatched, huv]
    rfl

/-! ## Single variables -/

namespace SingleVar

variable {g : SingleVar} (h : g.ids.stop ≤ maxVar + 1)

include h

theorem checkedIds_eq : g.checkedIds = some g.ids := by
  have hstop : g.var + 1 ≤ maxVar + 1 := h
  have := maxVar_lt
  rw [checkedIds, checkedCounter_of_lt (by omega), Option.bind_eq_bind, Option.bind_some,
    Nat.add_sub_cancel_left]
  rfl

theorem checkedToIndex_eq (l : Lit) : g.checkedToIndex l = .of (g.toIndex l) := by
  rw [checkedToIndex, toIndex]
  split_ifs
  · rfl
  · rw [checkedIds_eq h]
    rfl

end SingleVar

end Clausal
