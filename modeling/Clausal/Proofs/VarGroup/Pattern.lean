import Clausal.VarGroup.Index
import Clausal.Proofs.Selection

/-!
# Patterns and the values that they leave

A pattern is read here against the values that each component is declared for. It is `within` them
if each fixed component is one of them, and it narrows them to the values that it leaves; the tuples
that fit the pattern are the tuples over what is left (`Pattern.filter_tuples`).
-/

namespace Clausal

/-! ## Identifiers -/

namespace IdRange

theorem alloc_eq_ok_iff {start size : Nat} {r : IdRange} : alloc start size = .ok r ↔
    r = ⟨start, size⟩ ∧ 0 < start + size ∧ start + size ≤ maxVar + 1 := by
  rw [alloc]
  split_ifs with h
  · simp [h, eq_comm]
  · simp only [false_iff]
    exact fun hr => h hr.2

theorem contains_iff {r : IdRange} {l : Lit} :
    r.contains l = true ↔ r.first ≤ l.var ∧ l.var < r.first + r.size := by
  rw [contains, Bool.and_eq_true, decide_eq_true_eq, decide_eq_true_eq, stop]

theorem getElem_toList {r : IdRange} {i : Nat} (hi : i < r.toList.length) :
    r.toList[i] = r.first + i := by
  simp [toList]

end IdRange

/-! ## Values -/

theorem Index.checkLength_eq_ok_iff {index : Index} {arity : Nat} :
    index.checkLength arity = .ok () ↔ index.length = arity := by
  rw [checkLength]
  split_ifs with h
  · simp [h]
  · simp [h]

theorem contains_range'_iff {n i : Nat} :
    (List.range' 1 n).contains i = true ↔ ¬ (i = 0 ∨ n < i) := by
  rw [List.contains_iff_mem, List.mem_range'_1]
  omega

theorem refuse_kind {e : Error} (he : e.kind = .indexOutOfRange) (n i : Nat) :
    (if i = 0 ∨ n < i then .error e else .ok () : Except Error Unit).mapError Error.kind =
      if (List.range' 1 n).contains i then .ok () else .error .indexOutOfRange := by
  by_cases hi : i = 0 ∨ n < i
  · rw [if_pos hi, if_neg (fun htrue => contains_range'_iff.mp htrue hi)]
    exact congrArg Except.error he
  · rw [if_neg hi, if_pos (contains_range'_iff.mpr hi)]
    rfl

theorem filter_beq_of_nodup {α : Type} [BEq α] [LawfulBEq α] {xs : List α} (h : xs.Nodup) {x : α}
    (hx : x ∈ xs) : xs.filter (· == x) = [x] := by
  rw [List.filter_beq, List.count_eq_one_of_mem h hx]
  rfl

theorem flatMap_ite_nil {α β : Type} (q : α → Bool) (f : α → List β) (xs : List α) :
    (xs.flatMap fun x => if q x then f x else []) = (xs.filter q).flatMap f := by
  induction xs with
  | nil => rfl
  | cons x xs ih =>
    rw [List.flatMap_cons, ih, List.filter_cons]
    split_ifs
    · rw [List.flatMap_cons]
    · rfl

/-! ## Patterns -/

namespace Pattern

/-- The pattern with all components written out, where no component stands for open ones. -/
def full (p : Pattern) (arity : Nat) : Pattern :=
  if p.isEmpty then List.replicate arity none else p

/-- Whether each fixed component is one of the values of its position. -/
def within (p : Pattern) (values : List (List Nat)) : Bool :=
  (p.zip values).all fun (fixed, choices) => fixed.all choices.contains

/-- Whether a pattern is neither empty nor of the right length. -/
abbrev Mismatched (p : Pattern) (arity : Nat) : Prop := p ≠ [] ∧ p.length ≠ arity

variable {p : Pattern}

theorem expand_eq (p : Pattern) (arity : Nat) : p.expand arity =
    if p.Mismatched arity then .error (.patternLength p.length arity) else .ok (p.full arity) := by
  cases p with
  | nil => simp [expand, full]
  | cons fixed p => simp [expand, full, Mismatched]

theorem length_full {arity : Nat} (h : ¬ p.Mismatched arity) : (p.full arity).length = arity := by
  rw [full]
  split_ifs with hnil
  · exact List.length_replicate
  · by_contra hlen
    exact h ⟨by simpa using hnil, hlen⟩

@[simp] theorem admits_nil_left (index : Index) : admits [] index = true := rfl

@[simp] theorem admits_cons_cons (fixed : Option Nat) (p : Pattern) (i : Nat) (index : Index) :
    admits (fixed :: p) (i :: index) = (fixed.all (· == i) && p.admits index) := rfl

@[simp] theorem within_nil_left (values : List (List Nat)) : within [] values = true := rfl

@[simp] theorem within_cons_cons (fixed : Option Nat) (p : Pattern) (choices : List Nat)
    (values : List (List Nat)) : within (fixed :: p) (choices :: values) =
      (fixed.all choices.contains && p.within values) := rfl

theorem admits_replicate_none (arity : Nat) (index : Index) :
    admits (List.replicate arity none) index = true := by
  induction arity generalizing index with
  | zero => rfl
  | succ arity ih =>
    cases index with
    | nil => rfl
    | cons i index => rw [List.replicate_succ, admits_cons_cons, ih]; rfl

theorem within_replicate_none (arity : Nat) (values : List (List Nat)) :
    within (List.replicate arity none) values = true := by
  induction arity generalizing values with
  | zero => rfl
  | succ arity ih =>
    cases values with
    | nil => rfl
    | cons choices values => rw [List.replicate_succ, within_cons_cons, ih]; rfl

theorem within_replicate {k : Nat} (h : p.length = k) (letters : List Nat) :
    p.within (List.replicate k letters) = true ↔ ∀ i, some i ∈ p → i ∈ letters := by
  induction p generalizing k with
  | nil => simp
  | cons fixed p ih =>
    obtain ⟨k, rfl⟩ : ∃ j, k = j + 1 := ⟨p.length, h.symm⟩
    rw [List.replicate_succ, within_cons_cons, Bool.and_eq_true, ih (Nat.succ.inj h)]
    cases fixed with
    | none => simp
    | some i => simp

theorem fixed?_eq_some_iff {index : Index} : p.fixed? = some index ↔ p = index.map some := by
  rw [fixed?]
  induction p generalizing index with
  | nil => cases index <;> simp
  | cons fixed p ih =>
    cases index with
    | nil => cases fixed <;> simp [Option.bind_eq_some_iff]
    | cons i index => cases fixed <;> simp [Option.bind_eq_some_iff, ih, and_comm]

/-! ## Narrowing -/

/-- The values of each component that a pattern leaves. -/
def narrow (p : Pattern) (values : List (List Nat)) : List (List Nat) :=
  List.zipWith (fun fixed choices => choices.filter fun i => fixed.all (· == i)) p values

theorem narrow_cons_cons (fixed : Option Nat) (p : Pattern) (choices : List Nat)
    (values : List (List Nat)) : narrow (fixed :: p) (choices :: values) =
      choices.filter (fun i => fixed.all (· == i)) :: p.narrow values := rfl

theorem filter_all_none (choices : List Nat) :
    choices.filter (fun i => (none : Option Nat).all (· == i)) = choices :=
  List.filter_eq_self.mpr fun _ _ => rfl

theorem filter_all_some {choices : List Nat} (hnodup : choices.Nodup) {i : Nat}
    (hi : i ∈ choices) : choices.filter (fun j => (some i).all (· == j)) = [i] := by
  rw [← filter_beq_of_nodup hnodup hi]
  exact List.filter_congr fun j _ => BEq.comm

theorem within_map_some {index : Index} {values : List (List Nat)}
    (h : index.length = values.length) :
    within (index.map some) values = true ↔ index ∈ tuples values := by
  rw [mem_tuples]
  induction index generalizing values with
  | nil => simp [List.eq_nil_of_length_eq_zero h.symm]
  | cons i index ih =>
    obtain ⟨choices, values, rfl⟩ := List.exists_cons_of_length_eq_add_one h.symm
    rw [List.map_cons, within_cons_cons, Bool.and_eq_true, ih (Nat.succ.inj h),
      List.forall₂_cons, Option.all_some, List.contains_iff_mem]

theorem filter_tuples {p : Pattern} {values : List (List Nat)} (h : p.length = values.length) :
    (tuples values).filter p.admits = tuples (p.narrow values) := by
  induction p generalizing values with
  | nil =>
    rw [List.eq_nil_of_length_eq_zero h.symm]
    rfl
  | cons fixed p ih =>
    obtain ⟨choices, values, rfl⟩ := List.exists_cons_of_length_eq_add_one h.symm
    rw [narrow_cons_cons, tuples, tuples, List.filter_flatMap]
    have hrow : ∀ i, ((tuples values).map (i :: ·)).filter (admits (fixed :: p)) =
        if fixed.all (· == i) then (tuples (narrow p values)).map (i :: ·) else [] := by
      intro i
      rw [← ih (Nat.succ.inj h), List.filter_map]
      split_ifs with hi
      · refine congrArg _ (List.filter_congr fun index _ => ?_)
        rw [Function.comp_apply, admits_cons_cons, hi, Bool.true_and]
      · refine List.map_eq_nil_iff.mpr (List.filter_eq_nil_iff.mpr fun index _ => ?_)
        rw [Function.comp_apply, admits_cons_cons]
        simp [hi]
    simp only [hrow]
    exact flatMap_ite_nil _ _ choices

end Pattern

end Clausal
