import Clausal.Selection
import Mathlib.Algebra.Ring.Nat
import Mathlib.Data.List.Sublists
import Mathlib.Data.List.Lex
import Mathlib.Data.Nat.Choose.Basic
import Mathlib.Data.Nat.Factorial.Basic

/-!
# What selections list

`tuples` numbers one element of each list in mixed radix. `selections k xs` lists the sublists of
`xs` of length `k`: leaving out at most `spare` positions loses none of them when the list has
exactly `spare` positions more than are chosen. Over an increasing list all selections are in
strictly increasing lexicographic order.
-/

namespace Clausal

variable {α : Type}

/-! ## One element of each list -/

theorem mem_tuples {cs : List (List α)} {ys : List α} :
    ys ∈ tuples cs ↔ List.Forall₂ (· ∈ ·) ys cs := by
  induction cs generalizing ys with
  | nil => simp [tuples]
  | cons c cs ih =>
    rw [tuples, List.forall₂_cons_right_iff, List.mem_flatMap]
    constructor
    · rintro ⟨x, hx, hys⟩
      obtain ⟨zs, hzs, rfl⟩ := List.mem_map.mp hys
      exact ⟨x, zs, hx, ih.mp hzs, rfl⟩
    · rintro ⟨x, zs, hx, hzs, rfl⟩
      exact ⟨x, hx, List.mem_map.mpr ⟨zs, ih.mpr hzs, rfl⟩⟩

theorem mem_tuples_replicate {k : Nat} {xs ys : List α} :
    ys ∈ tuples (List.replicate k xs) ↔ ys.length = k ∧ ∀ y ∈ ys, y ∈ xs := by
  rw [mem_tuples]
  induction k generalizing ys with
  | zero => simp +contextual [List.length_eq_zero_iff]
  | succ k ih =>
    rw [List.replicate_succ, List.forall₂_cons_right_iff]
    constructor
    · rintro ⟨y, rest, hy, hrest, rfl⟩
      obtain ⟨hlen, hmem⟩ := ih.mp hrest
      exact ⟨congrArg Nat.succ hlen, List.forall_mem_cons.mpr ⟨hy, hmem⟩⟩
    · rintro ⟨hlen, hmem⟩
      obtain ⟨y, rest, rfl⟩ := List.exists_cons_of_length_eq_add_one hlen
      rw [List.forall_mem_cons] at hmem
      exact ⟨y, rest, hmem.1, ih.mpr ⟨Nat.succ.inj hlen, hmem.2⟩, rfl⟩

theorem length_tuples_cons (xs : List α) (cs : List (List α)) :
    (tuples (xs :: cs)).length = xs.length * (tuples cs).length := by
  simp [tuples, List.length_flatMap]

theorem length_tuples_replicate (k : Nat) (xs : List α) :
    (tuples (List.replicate k xs)).length = xs.length ^ k := by
  induction k with
  | zero => rfl
  | succ k ih => rw [List.replicate_succ, length_tuples_cons, ih, Nat.pow_succ, Nat.mul_comm]

/-- The first component changes every time the later ones have run through all of their tuples. -/
theorem getElem?_tuples_cons (xs : List α) (cs : List (List α)) (i : Nat) :
    (tuples (xs :: cs))[i]? = xs[i / (tuples cs).length]?.bind fun x =>
      (tuples cs)[i % (tuples cs).length]?.map (x :: ·) := by
  induction xs generalizing i with
  | nil => simp [tuples]
  | cons x xs ih =>
    rw [tuples] at ih ⊢
    rw [List.flatMap_cons, List.getElem?_append, List.length_map]
    split_ifs with hi
    · rw [Nat.div_eq_of_lt hi, Nat.mod_eq_of_lt hi, List.getElem?_map]
      rfl
    · have hle : (tuples cs).length ≤ i := by omega
      rw [ih]
      rcases Nat.eq_zero_or_pos (tuples cs).length with hzero | hpos
      · simp [List.eq_nil_of_length_eq_zero hzero]
      · rw [Nat.mod_eq_sub_mod hle, Nat.div_eq_sub_div hpos hle]
        rfl

theorem tuples_pair (xs ys : List α) :
    tuples [xs, ys] = xs.flatMap fun x => ys.map fun y => [x, y] := by
  have hsingle : tuples [ys] = ys.map ([·]) := List.map_eq_flatMap.symm
  rw [tuples, hsingle]
  simp only [List.map_map]
  rfl

/-! ## Later elements -/

theorem forall_mem_suffixes {Q : α → α → Prop} {xs : List α} :
    (∀ e ∈ suffixes xs, ∀ y ∈ e.2, Q e.1 y) ↔ xs.Pairwise Q := by
  induction xs with
  | nil => simp [suffixes]
  | cons x xs ih => rw [suffixes, List.forall_mem_cons, ih, List.pairwise_cons]

theorem forall_mem_laterPairs {Q : α → α → Prop} {xs : List α} :
    (∀ e ∈ laterPairs xs, Q e.1 e.2) ↔ xs.Pairwise Q := by
  rw [laterPairs, List.forall_mem_flatMap, ← forall_mem_suffixes]
  exact forall₂_congr fun e _ => List.forall_mem_map

theorem mem_of_mem_laterPairs {xs : List α} {e : α × α} (he : e ∈ laterPairs xs) :
    e.1 ∈ xs ∧ e.2 ∈ xs := by
  apply forall_mem_laterPairs (Q := fun x y => x ∈ xs ∧ y ∈ xs).mpr _ e he
  apply List.pairwise_of_forall_mem_list
  intro x hx y hy
  exact ⟨hx, hy⟩

theorem laterPairs_eq_nil {xs : List α} (h : xs.length ≤ 1) : laterPairs xs = [] := by
  match xs, h with
  | [], _ => rfl
  | [x], _ => rfl

theorem pairwise_iff_of_increasing {xs : List Nat} (hxs : xs.Pairwise (· < ·))
    {Q : Nat → Nat → Prop} : xs.Pairwise Q ↔ ∀ x ∈ xs, ∀ y ∈ xs, x < y → Q x y := by
  refine ⟨fun hQ x hx y hy hlt => ?_, fun hQ => hxs.imp_of_mem fun hx hy => hQ _ hx _ hy⟩
  obtain ⟨i, hi, rfl⟩ := List.getElem_of_mem hx
  obtain ⟨j, hj, rfl⟩ := List.getElem_of_mem hy
  refine List.pairwise_iff_getElem.mp hQ i j hi hj ?_
  by_contra hij
  rcases Nat.lt_or_eq_of_le (Nat.le_of_not_lt hij) with hji | rfl
  · have := List.pairwise_iff_getElem.mp hxs j i hj hi hji
    omega
  · omega

theorem forall_mem_laterPairs_of_increasing {xs : List Nat} (hxs : xs.Pairwise (· < ·))
    (Q : Nat → Nat → Prop) :
    (∀ e ∈ laterPairs xs, Q e.1 e.2) ↔ ∀ x ∈ xs, ∀ y ∈ xs, x < y → Q x y :=
  forall_mem_laterPairs.trans (pairwise_iff_of_increasing hxs)

theorem takeWhile_lt_eq_filter {xs : List Nat} (hxs : xs.Pairwise (· < ·)) (bound : Nat) :
    xs.takeWhile (· < bound) = xs.filter (· < bound) := by
  induction xs with
  | nil => rfl
  | cons x xs ih =>
    obtain ⟨hhead, htail⟩ := List.pairwise_cons.mp hxs
    rw [List.takeWhile_cons, List.filter_cons, ih htail]
    split_ifs with hx
    · rfl
    · refine (List.filter_eq_nil_iff.mpr fun y hy => ?_).symm
      have := hhead y hy
      simp only [decide_eq_true_eq] at hx ⊢
      omega

/-! ## Positions that ascend -/

/-- The first position is chosen, or it is left out and the others can spare one less. -/
theorem mem_selectSparing_cons (k spare : Nat) (x : α) (xs ys : List α) :
    ys ∈ selectSparing (k + 1) spare (x :: xs) ↔
      (∃ zs ∈ selectSparing k spare xs, x :: zs = ys) ∨
        ∃ s, spare = s + 1 ∧ ys ∈ selectSparing (k + 1) s xs := by
  cases spare <;> simp [selectSparing]

theorem mem_selectSparing {k spare : Nat} {xs : List α} (ys : List α)
    (h : xs.length = k + spare) :
    ys ∈ selectSparing k spare xs ↔ ys.Sublist xs ∧ ys.length = k := by
  induction xs generalizing k spare ys with
  | nil =>
    obtain rfl : k = 0 := by simp at h; omega
    simp [selectSparing]
  | cons x xs ih =>
    cases k with
    | zero => simp +contextual [selectSparing, List.length_eq_zero_iff]
    | succ k =>
      simp only [List.length_cons] at h
      rw [mem_selectSparing_cons, List.sublist_cons_iff, or_and_right, or_comm]
      refine or_congr ?_ ?_
      · constructor
        · rintro ⟨s, rfl, hmem⟩
          exact (ih ys (by omega)).mp hmem
        · rintro ⟨hsub, hlen⟩
          -- a sublist of the remaining positions leaves out the first one
          have := hsub.length_le
          exact ⟨spare - 1, by omega, (ih ys (by omega)).mpr ⟨hsub, hlen⟩⟩
      · constructor
        · rintro ⟨zs, hzs, rfl⟩
          obtain ⟨hsub, hlen⟩ := (ih zs (by omega)).mp hzs
          exact ⟨⟨zs, rfl, hsub⟩, by simp [hlen]⟩
        · rintro ⟨⟨zs, rfl, hsub⟩, hlen⟩
          exact ⟨zs, (ih zs (by omega)).mpr ⟨hsub, by simpa using hlen⟩, rfl⟩

theorem mem_selections (k : Nat) (xs ys : List α) :
    ys ∈ selections k xs ↔ ys.Sublist xs ∧ ys.length = k := by
  rw [selections]
  split_ifs with h
  · simp only [List.not_mem_nil, false_iff, not_and]
    intro hsub hlen
    have := hsub.length_le
    omega
  · exact mem_selectSparing ys (by omega)

/-! ## Repetitions allowed -/

theorem mem_suffixes {e : α × List α} {xs : List α} :
    e ∈ suffixes xs ↔ (e.1 :: e.2) <:+ xs := by
  induction xs with
  | nil => simp [suffixes]
  | cons x xs ih =>
    rw [suffixes, List.mem_cons, ih, List.suffix_cons_iff, List.cons.injEq, Prod.ext_iff]

theorem mem_multiselections {k : Nat} {xs ys : List Nat} (hxs : xs.Pairwise (· < ·)) :
    ys ∈ multiselections k xs ↔ ys.length = k ∧ (∀ y ∈ ys, y ∈ xs) ∧ ys.Pairwise (· ≤ ·) := by
  induction k generalizing xs ys with
  | zero => simp +contextual [multiselections, List.length_eq_zero_iff]
  | succ k ih =>
    rw [multiselections, List.mem_flatMap]
    constructor
    · rintro ⟨e, he, hys⟩
      rw [mem_suffixes] at he
      obtain ⟨zs, hzs, rfl⟩ := List.mem_map.mp hys
      have hsorted := hxs.sublist he.sublist
      obtain ⟨hlen, hmem, hle⟩ := (ih hsorted).mp hzs
      refine ⟨by rw [List.length_cons, hlen], ?_, ?_⟩
      · rintro y (_ | ⟨_, hy⟩)
        · exact he.subset List.mem_cons_self
        · exact he.subset (hmem y hy)
      · refine List.pairwise_cons.mpr ⟨fun y hy => ?_, hle⟩
        rcases List.mem_cons.mp (hmem y hy) with rfl | hy
        · exact le_rfl
        · exact ((List.pairwise_cons.mp hsorted).1 y hy).le
    · rintro ⟨hlen, hmem, hle⟩
      obtain ⟨y, zs, rfl⟩ := List.exists_cons_of_length_eq_add_one hlen
      obtain ⟨before, later, rfl⟩ := List.append_of_mem (hmem y List.mem_cons_self)
      obtain ⟨hhead, htail⟩ := List.pairwise_cons.mp hle
      have hsuffix : (y :: later) <:+ before ++ y :: later := ⟨before, rfl⟩
      refine ⟨(y, later), mem_suffixes.mpr hsuffix, List.mem_map.mpr ⟨zs, ?_, rfl⟩⟩
      refine (ih (hxs.sublist hsuffix.sublist)).mpr ⟨by simpa using hlen, fun z hz => ?_, htail⟩
      -- a smaller element of the list is no letter of a non-decreasing sequence
      rcases List.mem_append.mp (hmem z (List.mem_cons_of_mem y hz)) with hbefore | hlater
      · have := (List.pairwise_append.mp hxs).2.2 z hbefore y List.mem_cons_self
        have := hhead z hz
        omega
      · exact hlater

/-! ## Positions in any order -/

theorem mem_arrangements [DecidableEq α] {k : Nat} {xs ys : List α} (hxs : xs.Nodup) :
    ys ∈ arrangements k xs ↔ ys.length = k ∧ (∀ y ∈ ys, y ∈ xs) ∧ ys.Nodup := by
  induction k, xs using arrangements.induct generalizing ys with
  | case1 xs => simp +contextual [arrangements, List.length_eq_zero_iff]
  | case2 xs =>
    rw [arrangements, List.mem_map, List.length_eq_one_iff]
    constructor
    · rintro ⟨x, hx, rfl⟩
      simpa using hx
    · rintro ⟨⟨x, rfl⟩, hmem, -⟩
      exact ⟨x, hmem x List.mem_cons_self, rfl⟩
  | case3 k xs ih =>
    rw [arrangements, List.mem_flatMap]
    constructor
    · rintro ⟨x, hx, hys⟩
      obtain ⟨zs, hzs, rfl⟩ := List.mem_map.mp hys
      obtain ⟨hlen, hmem, hnodup⟩ := (ih x (hxs.erase x)).mp hzs
      refine ⟨by rw [List.length_cons, hlen], ?_, ?_⟩
      · rintro y (_ | ⟨_, hy⟩)
        · exact hx
        · exact List.mem_of_mem_erase (hmem y hy)
      · exact List.nodup_cons.mpr ⟨fun hmem' => hxs.not_mem_erase (hmem x hmem'), hnodup⟩
    · rintro ⟨hlen, hmem, hnodup⟩
      obtain ⟨y, zs, rfl⟩ := List.exists_cons_of_length_eq_add_one hlen
      obtain ⟨hy, hzs⟩ := List.nodup_cons.mp hnodup
      refine ⟨y, hmem y List.mem_cons_self, List.mem_map.mpr ⟨zs, ?_, rfl⟩⟩
      refine (ih y (hxs.erase y)).mpr ⟨by simpa using hlen, fun z hz => ?_, hzs⟩
      refine (List.mem_erase_of_ne ?_).mpr (hmem z (List.mem_cons_of_mem y hz))
      rintro rfl
      exact hy hz

/-! ## Lexicographic order -/

section Lex

variable {r : α → α → Prop}

/-- Lists that are put together head by head ascend when the heads do, and for each head the tails
do. -/
theorem pairwise_flatMap_cons {β : Type} {es : List β} {head : β → α} {tails : β → List (List α)}
    (hheads : es.Pairwise fun e e' => r (head e) (head e'))
    (htails : ∀ e ∈ es, (tails e).Pairwise (List.Lex r)) :
    (es.flatMap fun e => (tails e).map (head e :: ·)).Pairwise (List.Lex r) := by
  rw [List.pairwise_flatMap]
  refine ⟨fun e he => List.pairwise_map.mpr ((htails e he).imp List.Lex.cons), ?_⟩
  refine hheads.imp fun hlt ys hys zs hzs => ?_
  obtain ⟨ys, -, rfl⟩ := List.mem_map.mp hys
  obtain ⟨zs, -, rfl⟩ := List.mem_map.mp hzs
  exact List.Lex.rel hlt

theorem pairwise_tuples {cs : List (List α)} (hcs : ∀ c ∈ cs, c.Pairwise r) :
    (tuples cs).Pairwise (List.Lex r) := by
  induction cs with
  | nil => exact List.pairwise_singleton _ _
  | cons c cs ih =>
    refine pairwise_flatMap_cons (hcs c List.mem_cons_self) fun _ _ => ih fun c' hc' => ?_
    exact hcs c' (List.mem_cons_of_mem c hc')

theorem pairwise_selectSparing {k spare : Nat} {xs : List α} (hxs : xs.Pairwise r)
    (h : xs.length = k + spare) : (selectSparing k spare xs).Pairwise (List.Lex r) := by
  induction xs generalizing k spare with
  | nil =>
    obtain rfl : k = 0 := by simp at h; omega
    exact List.pairwise_singleton _ _
  | cons x xs ih =>
    obtain ⟨hhead, htail⟩ := List.pairwise_cons.mp hxs
    rw [List.length_cons] at h
    cases k with
    | zero => exact List.pairwise_singleton _ _
    | succ k =>
      have hchosen : ((selectSparing k spare xs).map (x :: ·)).Pairwise (List.Lex r) :=
        List.pairwise_map.mpr ((ih htail (by omega)).imp List.Lex.cons)
      cases spare with
      | zero => simpa only [selectSparing, List.append_nil] using hchosen
      | succ spare =>
        simp only [selectSparing]
        refine List.pairwise_append.mpr ⟨hchosen, ih htail (by omega), fun ys hys zs hzs => ?_⟩
        obtain ⟨ys, -, rfl⟩ := List.mem_map.mp hys
        obtain ⟨hsub, hlen⟩ := (mem_selectSparing zs (by omega)).mp hzs
        obtain ⟨z, zs, rfl⟩ := List.exists_cons_of_length_eq_add_one hlen
        exact List.Lex.rel (hhead z (hsub.subset List.mem_cons_self))

theorem pairwise_selections {k : Nat} {xs : List α} (hxs : xs.Pairwise r) :
    (selections k xs).Pairwise (List.Lex r) := by
  rw [selections]
  split_ifs with h
  · exact List.Pairwise.nil
  · exact pairwise_selectSparing hxs (by omega)

end Lex

theorem pairwise_suffixes {xs : List Nat} (hxs : xs.Pairwise (· < ·)) :
    (suffixes xs).Pairwise (·.1 < ·.1) := by
  induction xs with
  | nil => exact List.Pairwise.nil
  | cons x xs ih =>
    obtain ⟨hhead, htail⟩ := List.pairwise_cons.mp hxs
    refine List.pairwise_cons.mpr ⟨fun e he => ?_, ih htail⟩
    exact hhead e.1 ((mem_suffixes.mp he).subset List.mem_cons_self)

theorem pairwise_multiselections {k : Nat} {xs : List Nat} (hxs : xs.Pairwise (· < ·)) :
    (multiselections k xs).Pairwise (· < ·) := by
  induction k generalizing xs with
  | zero => exact List.pairwise_singleton _ _
  | succ k ih =>
    refine pairwise_flatMap_cons (pairwise_suffixes hxs) fun e he => ih ?_
    exact hxs.sublist (mem_suffixes.mp he).sublist

theorem pairwise_arrangements {k : Nat} {xs : List Nat} (hxs : xs.Pairwise (· < ·)) :
    (arrangements k xs).Pairwise (· < ·) := by
  induction k, xs using arrangements.induct with
  | case1 xs => exact List.pairwise_singleton _ _
  | case2 xs => exact List.pairwise_map.mpr (hxs.imp List.Lex.rel)
  | case3 k xs ih => exact pairwise_flatMap_cons hxs fun x _ => ih x (hxs.erase x)

/-! ## No repetitions -/

theorem nodup_of_pairwise_lex {xss : List (List α)} (h : xss.Pairwise (List.Lex (· ≠ ·))) :
    xss.Nodup :=
  h.imp List.Lex.to_ne

theorem nodup_selections {k : Nat} {xs : List α} (hxs : xs.Nodup) : (selections k xs).Nodup :=
  nodup_of_pairwise_lex (pairwise_selections hxs)

theorem mem_changeSparing_cons {change : α → α} {k spare : Nat} {x : α} {xs ys : List α} :
    ys ∈ changeSparing change (k + 1) spare (x :: xs) ↔
      (∃ zs ∈ changeSparing change k spare xs, change x :: zs = ys) ∨
        ∃ s, spare = s + 1 ∧ ∃ zs ∈ changeSparing change (k + 1) s xs, x :: zs = ys := by
  cases spare <;> simp [changeSparing]

theorem length_of_mem_changeSparing {change : α → α} {k spare : Nat} {xs ys : List α}
    (h : ys ∈ changeSparing change k spare xs) : ys.length = xs.length := by
  induction xs generalizing k spare ys with
  | nil => cases k <;> simp_all [changeSparing]
  | cons x xs ih =>
    cases k with
    | zero => rw [List.mem_singleton.mp h]
    | succ k =>
      rcases mem_changeSparing_cons.mp h with ⟨zs, hzs, rfl⟩ | ⟨s, -, zs, hzs, rfl⟩
      · exact congrArg Nat.succ (ih hzs)
      · exact congrArg Nat.succ (ih hzs)

theorem length_of_mem_changes {change : α → α} {k : Nat} {xs ys : List α}
    (h : ys ∈ changes change k xs) : ys.length = xs.length := by
  rw [changes] at h
  split_ifs at h
  · cases h
  · exact length_of_mem_changeSparing h

theorem pairwise_changeSparing {change : α → α} (hchange : ∀ x, change x ≠ x) (k spare : Nat)
    (xs : List α) : (changeSparing change k spare xs).Pairwise (List.Lex (· ≠ ·)) := by
  induction xs generalizing k spare with
  | nil => cases k <;> simp [changeSparing]
  | cons x xs ih =>
    cases k with
    | zero => exact List.pairwise_singleton _ _
    | succ k =>
      have hhead : ∀ (y : α) (k spare : Nat),
          ((changeSparing change k spare xs).map (y :: ·)).Pairwise (List.Lex (· ≠ ·)) :=
        fun y k spare => List.pairwise_map.mpr ((ih k spare).imp List.Lex.cons)
      cases spare with
      | zero => simpa only [changeSparing, List.append_nil] using hhead (change x) k 0
      | succ spare =>
        simp only [changeSparing]
        refine List.pairwise_append.mpr ⟨hhead _ _ _, hhead _ _ _, fun ys hys zs hzs => ?_⟩
        obtain ⟨ys, -, rfl⟩ := List.mem_map.mp hys
        obtain ⟨zs, -, rfl⟩ := List.mem_map.mp hzs
        exact List.Lex.rel (hchange x)

theorem nodup_changes {change : α → α} (hchange : ∀ x, change x ≠ x) (k : Nat) (xs : List α) :
    (changes change k xs).Nodup := by
  rw [changes]
  split_ifs
  · exact List.nodup_nil
  · exact nodup_of_pairwise_lex (pairwise_changeSparing hchange _ _ xs)

/-! ## How many -/

theorem length_selectSparing {k spare : Nat} {xs : List α} (h : xs.length = k + spare) :
    (selectSparing k spare xs).length = xs.length.choose k := by
  induction xs generalizing k spare with
  | nil =>
    obtain rfl : k = 0 := by simp at h; omega
    rfl
  | cons x xs ih =>
    rw [List.length_cons] at h ⊢
    cases k with
    | zero => rw [Nat.choose_zero_right, selectSparing, List.length_singleton]
    | succ k =>
      have hchosen : (selectSparing k spare xs).length = xs.length.choose k := ih (by omega)
      cases spare with
      | zero =>
        have hall : xs.length.choose (k + 1) = 0 := Nat.choose_eq_zero_of_lt (by omega)
        rw [Nat.choose_succ_succ, hall, selectSparing, List.append_nil, List.length_map, hchosen,
          Nat.add_zero]
      | succ spare =>
        rw [Nat.choose_succ_succ, selectSparing, List.length_append, List.length_map, hchosen,
          ih (by omega)]

theorem length_selections (k : Nat) (xs : List α) :
    (selections k xs).length = xs.length.choose k := by
  rw [selections]
  split_ifs with h
  · exact (Nat.choose_eq_zero_of_lt h).symm
  · exact length_selectSparing (by omega)

theorem length_changeSparing (change : α → α) (k spare : Nat) (xs : List α) :
    (changeSparing change k spare xs).length = (selectSparing k spare xs).length := by
  induction xs generalizing k spare with
  | nil => cases k <;> rfl
  | cons x xs ih =>
    cases k with
    | zero => rfl
    | succ k => cases spare <;> simp [changeSparing, selectSparing, ih]

theorem length_changes (change : α → α) (k : Nat) (xs : List α) :
    (changes change k xs).length = xs.length.choose k := by
  rw [← length_selections, changes, selections]
  split_ifs
  · rfl
  · exact length_changeSparing change k _ xs

theorem length_multiselections (k : Nat) (xs : List α) :
    (multiselections k xs).length = xs.length.multichoose k := by
  induction k generalizing xs with
  | zero => rw [Nat.multichoose_zero_right, multiselections, List.length_singleton]
  | succ k ih =>
    induction xs with
    | nil => rw [List.length_nil, Nat.multichoose_zero_succ]; rfl
    | cons x xs ihxs =>
      -- the first position is chosen first, or it is not chosen at all
      have hsplit : multiselections (k + 1) (x :: xs) =
          (multiselections k (x :: xs)).map (x :: ·) ++ multiselections (k + 1) xs := rfl
      rw [hsplit, List.length_append, List.length_map, ih, ihxs, List.length_cons,
        Nat.multichoose_succ_succ, Nat.add_comm]

theorem length_arrangements [DecidableEq α] (k : Nat) (xs : List α) :
    (arrangements k xs).length = xs.length.descFactorial k := by
  induction k, xs using arrangements.induct with
  | case1 xs => rfl
  | case2 xs => rw [arrangements, List.length_map, Nat.descFactorial_one]
  | case3 k xs ih =>
    have hrest : ∀ x ∈ xs, ((arrangements (k + 1) (xs.erase x)).map (x :: ·)).length =
        (xs.length - 1).descFactorial (k + 1) := fun x hx => by
      rw [List.length_map, ih x, List.length_erase_of_mem hx]
    rw [arrangements, List.length_flatMap, List.map_congr_left hrest, List.map_const',
      List.sum_replicate_nat]
    cases hn : xs.length with
    | zero => rw [Nat.zero_mul, Nat.zero_descFactorial_succ]
    | succ n => rw [Nat.succ_descFactorial_succ, Nat.add_sub_cancel]

end Clausal
