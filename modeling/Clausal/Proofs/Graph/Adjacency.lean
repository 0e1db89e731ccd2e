import Clausal.Graph.Adjacency
import Mathlib.Algebra.Ring.Nat
import Mathlib.Data.List.Sort
import Mathlib.Data.Prod.Lex

/-!
# Adjacency tables

Inserting into an increasing list keeps it increasing, linking a vertex to another changes the row
of that vertex alone, and the pairs of a table are its rows one after the other. What every accepted
change keeps holds after all changes (`changeEach_preserves`).
-/

namespace Clausal

namespace Adjacency

/-! ## Sorted lists -/

theorem mem_insertSorted {x y : Nat} {l : List Nat} : y ∈ insertSorted x l ↔ y = x ∨ y ∈ l := by
  induction l with
  | nil => simp [insertSorted]
  | cons z l ih =>
    rw [insertSorted]
    split_ifs with hlt heq
    · exact List.mem_cons
    · rw [heq, List.mem_cons]
      tauto
    · rw [List.mem_cons, ih, List.mem_cons]
      tauto

theorem pairwise_insertSorted {x : Nat} {l : List Nat} (h : l.Pairwise (· < ·)) :
    (insertSorted x l).Pairwise (· < ·) := by
  induction l with
  | nil => exact List.pairwise_singleton _ x
  | cons z l ih =>
    obtain ⟨hhead, htail⟩ := List.pairwise_cons.mp h
    rw [insertSorted]
    split_ifs with hlt heq
    · refine List.pairwise_cons.mpr ⟨fun y hy => ?_, h⟩
      rcases List.mem_cons.mp hy with rfl | hy
      · exact hlt
      · exact hlt.trans (hhead y hy)
    · exact h
    · refine List.pairwise_cons.mpr ⟨fun y hy => ?_, ih htail⟩
      rcases mem_insertSorted.mp hy with rfl | hy
      · omega
      · exact hhead y hy

theorem length_insertSorted {x : Nat} {l : List Nat} (h : x ∉ l) :
    (insertSorted x l).length = l.length + 1 := by
  induction l with
  | nil => rfl
  | cons z l ih =>
    rw [List.mem_cons, not_or] at h
    rw [insertSorted]
    split_ifs with hlt heq
    · rfl
    · exact absurd heq h.1
    · rw [List.length_cons, ih h.2, List.length_cons]

/-! ## Tables -/

variable {table : Adjacency}

theorem range_of_mem_neighbors {v x : Nat} (h : x ∈ table.neighbors v) :
    1 ≤ v ∧ v ≤ table.size := by
  cases v with
  | zero => cases h
  | succ i =>
    refine ⟨Nat.succ_pos i, ?_⟩
    by_contra hsize
    rw [neighbors, Array.getElem?_eq_none (by omega)] at h
    cases h

@[simp] theorem size_link (v x : Nat) : (table.link v x).size = table.size := Array.size_modify

theorem neighbors_link {v : Nat} (hv : 1 ≤ v ∧ v ≤ table.size) (x w : Nat) :
    (table.link v x).neighbors w =
      if w = v then insertSorted x (table.neighbors v) else table.neighbors w := by
  obtain ⟨i, rfl⟩ : ∃ i, v = i + 1 := ⟨v - 1, by omega⟩
  cases w with
  | zero => rfl
  | succ j =>
    rw [neighbors, link, Array.getElem?_modify, Nat.add_sub_cancel]
    by_cases hij : i = j
    · subst hij
      rw [if_pos rfl, if_pos rfl, neighbors, Array.getElem?_eq_getElem (by omega)]
      rfl
    · rw [if_neg hij, if_neg (by omega), neighbors]

@[simp] theorem size_isolated (n : Nat) : (isolated n).size = n := Array.size_replicate

@[simp] theorem neighbors_isolated (n v : Nat) : (isolated n).neighbors v = [] := by
  cases v with
  | zero => rfl
  | succ i =>
    rw [neighbors, isolated, Array.getElem?_replicate]
    split_ifs <;> rfl

/-! ## Pairs -/

@[simp] theorem pairs_isolated (n : Nat) : (isolated n).pairs = [] := by
  rw [pairs, List.flatMap_eq_nil_iff]
  intro v _
  rw [neighbors_isolated, List.map_nil]

theorem mem_pairs {e : Nat × Nat} : e ∈ table.pairs ↔ e.2 ∈ table.neighbors e.1 := by
  rw [pairs, List.mem_flatMap]
  constructor
  · rintro ⟨v, -, he⟩
    obtain ⟨x, hx, rfl⟩ := List.mem_map.mp he
    exact hx
  · intro he
    have := range_of_mem_neighbors he
    exact ⟨e.1, List.mem_range'_1.mpr (by omega), List.mem_map.mpr ⟨e.2, he, rfl⟩⟩

theorem pairwise_pairs (h : ∀ v, (table.neighbors v).Pairwise (· < ·)) :
    table.pairs.Pairwise (Prod.Lex (· < ·) (· < ·)) := by
  rw [pairs, List.pairwise_flatMap]
  refine ⟨fun v _ => List.pairwise_map.mpr ((h v).imp fun hlt => ?_), ?_⟩
  · exact Prod.Lex.right v hlt
  · refine (List.pairwise_lt_range' 1).imp fun hlt e he e' he' => ?_
    obtain ⟨x, -, rfl⟩ := List.mem_map.mp he
    obtain ⟨x', -, rfl⟩ := List.mem_map.mp he'
    exact Prod.Lex.left x x' hlt

theorem nodup_pairs (h : ∀ v, (table.neighbors v).Pairwise (· < ·)) : table.pairs.Nodup :=
  (pairwise_pairs h).nodup

/-- The pairs of consecutive rows, the first of which belongs to vertex `first`. -/
def pairsFrom (first : Nat) : List (List Nat) → List (Nat × Nat)
  | [] => []
  | row :: rows => row.map (first, ·) ++ pairsFrom (first + 1) rows

theorem pairsFrom_eq_flatMap (first : Nat) (rows : List (List Nat)) :
    pairsFrom first rows = (List.range' first rows.length).flatMap fun v =>
      (rows[v - first]?.getD []).map (v, ·) := by
  induction rows generalizing first with
  | nil => rfl
  | cons row rows ih =>
    rw [pairsFrom, ih, List.length_cons, List.range'_succ, List.flatMap_cons, Nat.sub_self]
    refine congrArg₂ (· ++ ·) rfl (List.flatMap_congr fun v hv => ?_)
    have := (List.mem_range'_1.mp hv).1
    rw [show v - first = v - (first + 1) + 1 by omega, List.getElem?_cons_succ]

theorem pairs_eq_pairsFrom (table : Adjacency) : table.pairs = pairsFrom 1 table.toList := by
  rw [pairsFrom_eq_flatMap, pairs, Array.length_toList]
  refine List.flatMap_congr fun v hv => ?_
  obtain ⟨i, rfl⟩ : ∃ i, v = i + 1 := ⟨v - 1, by have := List.mem_range'_1.mp hv; omega⟩
  rw [neighbors, Nat.add_sub_cancel, Array.getElem?_toList]

theorem length_pairsFrom (first : Nat) (rows : List (List Nat)) :
    (pairsFrom first rows).length = (rows.map List.length).sum := by
  induction rows generalizing first with
  | nil => rfl
  | cons row rows ih =>
    rw [pairsFrom, List.length_append, List.length_map, ih, List.map_cons, List.sum_cons]

theorem length_pairs_link {v x : Nat} (hv : 1 ≤ v ∧ v ≤ table.size)
    (hx : x ∉ table.neighbors v) : (table.link v x).pairs.length = table.pairs.length + 1 := by
  obtain ⟨i, rfl⟩ : ∃ i, v = i + 1 := ⟨v - 1, by omega⟩
  have hi : i < table.toList.length := by simpa using Nat.lt_of_succ_le hv.2
  rw [neighbors, ← Array.getElem?_toList, List.getElem?_eq_getElem hi, Option.getD_some] at hx
  rw [pairs_eq_pairsFrom, pairs_eq_pairsFrom, length_pairsFrom, length_pairsFrom, link,
    Nat.add_sub_cancel, Array.toList_modify, List.modify_eq_take_cons_drop hi]
  conv_rhs => rw [← List.take_append_drop i table.toList, List.drop_eq_getElem_cons hi]
  simp only [List.map_append, List.map_cons, List.sum_append, List.sum_cons,
    length_insertSorted hx]
  omega

end Adjacency

/-! ## Checks and changes -/

theorem vertexCheck_eq_ok_iff {n v : Nat} {e : Error} :
    (if v = 0 ∨ n < v then .error e else .ok () : Except Error Unit) = .ok () ↔ 1 ≤ v ∧ v ≤ n := by
  split_ifs with h
  · simp only [false_iff]
    omega
  · simp only [true_iff]
    omega

/-- What every accepted change keeps holds after all changes. -/
theorem changeEach_preserves {σ α : Type} {P : σ → Prop} {check : σ → α → Except Error Unit}
    {change : σ → α → σ} {xs : List α} {s : σ} (hs : P s)
    (hstep : ∀ s, ∀ x ∈ xs, P s → check s x = .ok () → P (change s x)) :
    P (changeEach check change s xs).2 := by
  induction xs generalizing s with
  | nil => exact hs
  | cons x xs ih =>
    rw [changeEach]
    split
    · rename_i hcheck
      exact ih (hstep s x List.mem_cons_self hs hcheck) fun s' y hy =>
        hstep s' y (List.mem_cons_of_mem x hy)
    · exact hs

theorem changeEach_eq_ok {σ α : Type} {P : σ → Prop} {check : σ → α → Except Error Unit}
    {change : σ → α → σ} {xs : List α} {s : σ} (hs : P s)
    (hcheck : ∀ s, ∀ x ∈ xs, P s → check s x = .ok ()) (hstep : ∀ s x, P s → P (change s x)) :
    (changeEach check change s xs).1 = .ok () := by
  induction xs generalizing s with
  | nil => rfl
  | cons x xs ih =>
    rw [changeEach, hcheck s x List.mem_cons_self hs]
    exact ih (hstep s x hs) fun s y hy => hcheck s y (List.mem_cons_of_mem x hy)

end Clausal
