import Clausal.Proofs.VarGroup.Checked.Index
import Clausal.Proofs.VarGroup.Made

/-!
# Checked tables of words

The identifiers of words are those of their range, so all of them can be computed, and a word is
found in the table at its first place.
-/

namespace Clausal.Words

theorem checkedTable_eq {first : Nat} {sequences : List Index}
    (h : first + sequences.length ≤ maxVar + 1) :
    checkedTable first sequences = some (sequences.zipIdx first) := by
  have hmap : sequences.zipIdx first =
      sequences.zipIdx.map fun e => (e.1, first + e.2) := by
    rw [List.zipIdx_eq_map_add]
  rw [hmap]
  refine mapM_eq_some fun e he => ?_
  have hlt := List.snd_lt_add_of_mem_zipIdx he
  dsimp only
  rw [checkedId_of_le (by omega)]
  rfl

theorem lookup_zipIdx (first : Nat) (sequences : List Index) (word : Index) :
    (sequences.zipIdx first).lookup word = (sequences.idxOf? word).map (first + ·) := by
  induction sequences generalizing first with
  | nil => rfl
  | cons x sequences ih =>
    rw [List.zipIdx_cons, List.lookup_cons, List.idxOf?_cons, ih, BEq.comm]
    cases x == word with
    | true => rfl
    | false =>
      cases sequences.idxOf? word with
      | none => rfl
      | some i => exact congrArg some (Nat.add_right_comm first 1 i)

theorem checkedCreate_eq {start : Nat} (hstart : 1 ≤ start) (n k : Nat) (family : Family)
    (label : Option String) :
    checkedCreate start n k family label = .of (create start n k family label) := by
  refine Checked.bind_eq_of (IdRange.checkedAlloc_eq (by omega)) fun ids hids => ?_
  obtain ⟨rfl, -, hstop⟩ := IdRange.alloc_eq_ok_iff.mp hids
  rw [checkedTable_eq hstop]
  exact Checked.bind_eq_of rfl fun format _ => rfl

section Create

variable {start n k : Nat} {family : Family} {label : Option String} {g : Words}
  (h : create start n k family label = .ok g)

include h

theorem checkedTable_of_create :
    checkedTable g.ids.first g.sequences = some (g.sequences.zipIdx g.ids.first) := by
  refine checkedTable_eq ?_
  rw [(create_eq_ok h).2.2]
  exact (create_allocated h).2

theorem checkedIdOf_eq (word : Index) : g.checkedIdOf word = .of (g.idOf word) := by
  rw [checkedIdOf, idOf]
  split_ifs
  · rw [checkedTable_of_create h, Checked.step_some, Checked.of_ok_bind, lookup_zipIdx]
    cases g.sequences.idxOf? word <;> rfl
  · rfl

theorem checkedPattern_eq (p : Pattern) : g.checkedPattern p = .of (g.checkPattern p) := by
  refine Checked.bind_eq_of rfl fun p _ => ?_
  cases p.reduceOption.find? fun i => i = 0 || g.n < i with
  | some i => rfl
  | none =>
    cases p.fixed? with
    | none => rfl
    | some word => exact Checked.bind_eq_of (checkedIdOf_eq h word) fun _ _ => rfl

theorem checkedEvaluate_eq (word : Index) : g.checkedEvaluate word = .of (g.evaluate word) :=
  Checked.bind_eq_of rfl fun _ _ => Checked.bind_eq_of (checkedIdOf_eq h word) fun _ _ => rfl

theorem checkedLits_eq (p : Pattern) : g.checkedLits p = .of (g.lits p) := by
  refine Checked.bind_eq_of_map (checkedPattern_eq h p) fun p _ => ?_
  rw [checkedTable_of_create h, zip_ids_eq (create_eq_ok h).2.2]
  rfl

theorem checkedToIndex_eq (l : Lit) : g.checkedToIndex l = .of (g.toIndex l) := by
  rw [checkedToIndex, toIndex]
  by_cases hcontains : g.ids.contains l = true
  · obtain ⟨hfirst, hlt⟩ := IdRange.contains_iff.mp hcontains
    obtain ⟨-, -, hlength⟩ := create_eq_ok h
    have hplace : l.var - g.ids.first < g.sequences.length := by omega
    rw [if_pos hcontains, if_pos hcontains, checkedSub_of_le hfirst, Option.bind_eq_bind,
      Option.bind_some, List.getElem?_eq_getElem hplace]
    rfl
  · rw [if_neg hcontains, if_neg hcontains]
    rfl

end Create

end Clausal.Words
