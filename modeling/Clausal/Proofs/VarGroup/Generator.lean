import Clausal.VarGroup.Generator
import Mathlib.Data.List.GetD
import Mathlib.Data.List.Nodup
import Mathlib.Tactic.SplitIfs

/-!
# What the generators give

The generator of each family gives the words of the family in the order of the table.

A counter that has ended at its later digits is turned on at an earlier one. So the words it goes
through are put together in the way the tables are, by recursion on the first digit: `Cycle` says
which words a counter goes through and where it ends, `Cycle.lift_last` and `Cycle.lift_next` put a
digit in front of them. Drawing letters late changes nothing, because a last position below the last
letter drawn goes up in any case (`Cursor.Follows`).
-/

namespace Clausal

namespace WordGenerator

variable {σ τ : Type}

/-! ## Counters -/

/-- From the state `s` a counter goes through states with these words; then it ends and is in the
state `s'`. -/
inductive Cycle (step : σ → Bool × σ) (word : σ → List Nat) : σ → List (List Nat) → σ → Prop
  | last {s s' : σ} (hstep : step s = (true, s')) : Cycle step word s [word s] s'
  | next {s t s' : σ} {ws : List (List Nat)} (hstep : step s = (false, t))
      (hrest : Cycle step word t ws s') : Cycle step word s (word s :: ws) s'

namespace Cycle

variable {step : σ → Bool × σ} {word : σ → List Nat} {step' : τ → Bool × τ} {word' : τ → List Nat}
  {s s' : σ} {u u' : τ} {ws ws' : List (List Nat)}

section Lift

variable {f : σ → τ} {g : List Nat → List Nat} (hword : ∀ s, word' (f s) = g (word s))
  (hnext : ∀ s t, step s = (false, t) → step' (f s) = (false, f t))

include hword hnext

/-- A counter that moves inside another one, which ends with it. -/
theorem lift_last (h : Cycle step word s ws s')
    (hlast : ∀ s, step s = (true, s') → step' (f s) = (true, u)) :
    Cycle step' word' (f s) (ws.map g) u := by
  induction h with
  | last hstep =>
    rw [List.map_singleton, ← hword]
    exact .last (hlast _ hstep)
  | next hstep _ ih =>
    rw [List.map_cons, ← hword]
    exact .next (hnext _ _ hstep) (ih hlast)

/-- A counter that moves inside another one, which goes on when it ends. -/
theorem lift_next (h : Cycle step word s ws s')
    (hlast : ∀ s, step s = (true, s') → step' (f s) = (false, u))
    (hrest : Cycle step' word' u ws' u') : Cycle step' word' (f s) (ws.map g ++ ws') u' := by
  induction h with
  | last hstep =>
    rw [List.map_singleton, ← hword]
    exact .next (hlast _ hstep) hrest
  | next hstep _ ih =>
    rw [List.map_cons, ← hword]
    exact .next (hnext _ _ hstep) (ih hlast)

end Lift

theorem skip (hrest : ws' ≠ []) (h : Cycle step word s (ws ++ ws') s') :
    ∃ t, WordGenerator.skip step ws.length s = some t ∧ Cycle step word t ws' s' := by
  induction ws generalizing s with
  | nil => exact ⟨s, rfl, h⟩
  | cons w ws ih =>
    generalize hall : (w :: ws) ++ ws' = all at h
    cases h with
    | last _ =>
      rw [List.cons_append, List.cons.injEq, List.append_eq_nil_iff] at hall
      exact absurd hall.2.2 hrest
    | next hstep htail =>
      rw [List.cons_append, List.cons.injEq] at hall
      rw [← hall.2] at htail
      obtain ⟨t, hskip, ht⟩ := ih htail
      refine ⟨t, ?_, ht⟩
      rw [List.length_cons, WordGenerator.skip, hstep]
      exact hskip

theorem skip_all (h : Cycle step word s ws s') : WordGenerator.skip step ws.length s = none := by
  induction h with
  | last hstep =>
    rw [List.length_singleton, WordGenerator.skip, hstep]
    rfl
  | next hstep _ ih =>
    rw [List.length_cons, WordGenerator.skip, hstep]
    exact ih

end Cycle

/-! ## Generators -/

variable {g : WordGenerator σ} {c d : σ} {ws : List (List Nat)}

/-- From a state on, the generator gives these words and no others. -/
def Gives (g : WordGenerator σ) (c : σ) (ws : List (List Nat)) : Prop :=
  ∀ fuel, ws.length ≤ fuel → g.wordsFrom fuel c = some ws

theorem gives_last (h : g.following c = none) : g.Gives c [g.word c] := by
  intro fuel hfuel
  cases fuel with
  | zero => cases hfuel
  | succ fuel => rw [wordsFrom, h]

theorem gives_next (h : g.following c = some d) (hd : g.Gives d ws) :
    g.Gives c (g.word c :: ws) := by
  intro fuel hfuel
  cases fuel with
  | zero => cases hfuel
  | succ fuel =>
    rw [wordsFrom, h]
    show (g.wordsFrom fuel d).map _ = _
    rw [hd fuel (Nat.le_of_succ_le_succ hfuel)]
    rfl

theorem gives_of_cycle {step : τ → Bool × τ} {word : τ → List Nat} {R : σ → τ → Prop} {s s' : τ}
    (hword : ∀ c s, R c s → g.word c = word s)
    (hlast : ∀ c s t, R c s → step s = (true, t) → g.following c = none)
    (hnext : ∀ c s t, R c s → step s = (false, t) → ∃ d, g.following c = some d ∧ R d t)
    (h : Cycle step word s ws s') (hc : R c s) : g.Gives c ws := by
  induction h generalizing c with
  | last hstep =>
    rw [← hword c _ hc]
    exact gives_last (hlast c _ _ hc hstep)
  | next hstep _ ih =>
    obtain ⟨d, hd, hdt⟩ := hnext c _ _ hc hstep
    rw [← hword c _ hc]
    exact gives_next hd (ih hdt)

theorem collect_of_gives {fuel : Nat} (hfirst : g.first = some c) (h : g.Gives c ws)
    (hfuel : ws.length ≤ fuel) : g.collect fuel = some ws := by
  rw [collect, hfirst]
  exact h fuel hfuel

theorem collect_of_first_eq_none (hfirst : g.first = none) (fuel : Nat) :
    g.collect fuel = some [] := by
  rw [collect, hfirst]

/-! ## Scans -/

section Scan

variable {turn : Nat → List Nat → Bool × List Nat} {letter : Nat → Nat}
  {i : Nat} {is is' js js' : List Nat} {vs : List (List Nat)}

theorem scan_cons_of_next (h : scan turn is = (false, js)) :
    scan turn (i :: is) = (false, i :: js) := by
  rw [scan, h]

theorem scan_cons_of_ended (h : scan turn is = (true, js)) :
    scan turn (i :: is) = turn i js := by
  rw [scan, h]

theorem scan_append_of_next {l l' : Nat} (h : turn l [] = (false, [l'])) (init : List Nat) :
    scan turn (init ++ [l]) = (false, init ++ [l']) := by
  induction init with
  | nil => exact h
  | cons i init ih => exact scan_cons_of_next ih

theorem cycle_nil : Cycle (scan turn) (List.map letter) [] [[]] [] :=
  .last rfl

theorem cycle_cons_last (h : Cycle (scan turn) (List.map letter) is ws is')
    (hturn : turn i is' = (true, js)) :
    Cycle (scan turn) (List.map letter) (i :: is) (ws.map (letter i :: ·)) js := by
  refine h.lift_last (fun _ => rfl) (fun _ _ => scan_cons_of_next) fun s hs => ?_
  rw [scan_cons_of_ended hs, hturn]

theorem cycle_cons_next (h : Cycle (scan turn) (List.map letter) is ws is')
    (hturn : turn i is' = (false, js)) (hrest : Cycle (scan turn) (List.map letter) js vs js') :
    Cycle (scan turn) (List.map letter) (i :: is) (ws.map (letter i :: ·) ++ vs) js' := by
  refine h.lift_next (fun _ => rfl) (fun _ _ => scan_cons_of_next) (fun s hs => ?_) hrest
  rw [scan_cons_of_ended hs, hturn]

end Scan

/-! ## The counters -/

/-- The positions from `i` on, with `spare` more of them than are chosen. -/
theorem cycle_ascend (k spare i : Nat) :
    Cycle (scan (ascend (i + k + spare))) letters (List.range' i k)
      (selectSparing k spare (List.range' (i + 1) (k + spare))) (List.range' (i + spare) k) := by
  generalize hlength : k + spare = length
  induction length generalizing k spare i with
  | zero =>
    obtain ⟨rfl, rfl⟩ : k = 0 ∧ spare = 0 := by omega
    exact cycle_nil
  | succ length ih =>
    cases k with
    | zero => exact cycle_nil
    | succ k =>
      have htail := ih k spare (i + 1) (by omega)
      have hdrawn : i + 1 + k + spare = i + (k + 1) + spare := by omega
      rw [hdrawn] at htail
      have hended : (List.range' (i + 1 + spare) k).length + 1 = k + 1 := by
        rw [List.length_range']
      rw [List.range'_succ, List.range'_succ]
      cases spare with
      | zero =>
        rw [selectSparing, List.append_nil]
        refine cycle_cons_last htail ?_
        rw [ascend, hended, if_pos (by omega)]
        rfl
      | succ spare =>
        have hrest := ih (k + 1) spare (i + 1) (by omega)
        have hdrawn' : i + 1 + (k + 1) + spare = i + (k + 1) + (spare + 1) := by omega
        have hend : i + 1 + spare = i + (spare + 1) := by omega
        rw [hdrawn', hend] at hrest
        rw [selectSparing]
        refine cycle_cons_next htail ?_ hrest
        rw [ascend, hended, if_neg (by omega)]

theorem cycle_fill (k m i : Nat) :
    Cycle (scan (fill (i + m + 1))) letters (List.replicate k i)
      (multiselections k (List.range' (i + 1) (m + 1))) (List.replicate k (i + m)) := by
  induction k generalizing m i with
  | zero => exact cycle_nil
  | succ k ih =>
    induction m generalizing i with
    | zero =>
      have hsplit : multiselections (k + 1) (List.range' (i + 1) 1) =
          (multiselections k (List.range' (i + 1) 1)).map ((i + 1) :: ·) :=
        List.append_nil _
      rw [hsplit]
      refine cycle_cons_last (ih 0 i) ?_
      rw [fill, if_neg (by omega)]
      rfl
    | succ m ihm =>
      have hsplit : multiselections (k + 1) (List.range' (i + 1) (m + 1 + 1)) =
          (multiselections k (List.range' (i + 1) (m + 1 + 1))).map ((i + 1) :: ·) ++
            multiselections (k + 1) (List.range' (i + 1 + 1) (m + 1)) := rfl
      have hrest := ihm (i + 1)
      have hdrawn : i + 1 + m + 1 = i + (m + 1) + 1 := by omega
      have hend : i + 1 + m = i + (m + 1) := by omega
      rw [hdrawn, hend] at hrest
      rw [hsplit]
      refine cycle_cons_next (ih (m + 1) i) ?_ hrest
      rw [fill, if_pos (by omega), List.length_replicate]

theorem cycle_onward (k m i : Nat) (h : 1 ≤ i)
    (htail : Cycle (scan (onward (i + m))) (List.map id) (List.replicate k 1)
      (tuples (List.replicate k (List.range' 1 (i + m)))) (List.replicate k 1)) :
    Cycle (scan (onward (i + m))) (List.map id) (i :: List.replicate k 1)
      ((List.range' i (m + 1)).flatMap fun x =>
        (tuples (List.replicate k (List.range' 1 (i + m)))).map (x :: ·))
      (1 :: List.replicate k 1) := by
  induction m generalizing i with
  | zero =>
    rw [List.range'_one, List.flatMap_singleton]
    refine cycle_cons_last htail ?_
    rw [onward, if_neg (by omega)]
  | succ m ih =>
    have hlast : i + 1 + m = i + (m + 1) := by omega
    have hrest := ih (i + 1) (by omega) (hlast ▸ htail)
    rw [hlast] at hrest
    rw [List.range'_succ, List.flatMap_cons]
    refine cycle_cons_next htail ?_ hrest
    rw [onward, if_pos (by omega)]

theorem cycle_words (k n : Nat) :
    Cycle (scan (onward (n + 1))) (List.map id) (List.replicate k 1)
      (tuples (List.replicate k (List.range' 1 (n + 1)))) (List.replicate k 1) := by
  induction k with
  | zero => exact cycle_nil
  | succ k ih =>
    have hlast : 1 + n = n + 1 := Nat.add_comm 1 n
    have hcycle := cycle_onward k n 1 (Nat.le_refl 1) (hlast ▸ ih)
    rw [hlast] at hcycle
    exact hcycle

/-! ## Letters drawn late -/

theorem draw_self (n : Nat) : draw n n = n :=
  if_neg (Nat.lt_irrefl n)

theorem draw_of_lt {n drawn : Nat} (h : drawn < n) : draw n drawn = drawn + 1 :=
  if_pos h

/-- The cursor is at these positions, and if it has not drawn all letters the last position is that
of a letter drawn. -/
structure Cursor.Follows (n : Nat) (c : Cursor) (is : List Nat) : Prop where
  positions : c.positions = is
  drawn : c.drawn = n ∨ c.drawn < n ∧ ∃ init last, is = init ++ [last] ∧ last < c.drawn

/-- Positions are turned on in the same way when letters are drawn late, if a last position below
that of the last letter drawn goes up by one. -/
theorem Cursor.Follows.next {turn : Nat → Nat → List Nat → Bool × List Nat} {n : Nat} {c : Cursor}
    {is : List Nat} (hc : c.Follows n is)
    (hturn : ∀ drawn last, last + 1 < drawn → turn drawn last [] = (false, [last + 1]))
    (drawn : Nat) (hall : c.drawn = n → drawn = n)
    (hlate : c.drawn < n → ∀ init last, is = init ++ [last] → last < c.drawn →
      last + 1 < drawn ∧ drawn ≤ n) :
    scan (turn drawn) is = scan (turn n) is ∧
      ∀ js, scan (turn n) is = (false, js) → Cursor.Follows n ⟨drawn, js⟩ js := by
  rcases hc.drawn with hdrawn | ⟨hdrawn, init, last, rfl, hlast⟩
  · rw [hall hdrawn]
    exact ⟨rfl, fun js _ => ⟨rfl, .inl rfl⟩⟩
  · obtain ⟨hbelow, hle⟩ := hlate hdrawn init last rfl hlast
    rw [scan_append_of_next (hturn drawn last hbelow),
      scan_append_of_next (hturn n last (by omega))]
    refine ⟨rfl, fun js hjs => ⟨rfl, ?_⟩⟩
    cases hjs
    rcases Nat.lt_or_eq_of_le hle with hlt | heq
    · exact .inr ⟨hlt, init, last + 1, rfl, hbelow⟩
    · exact .inl heq

theorem ascend_of_lt (drawn last : Nat) (h : last + 1 < drawn) :
    ascend drawn last [] = (false, [last + 1]) :=
  if_neg (Nat.ne_of_lt h)

theorem fill_of_lt (drawn last : Nat) (h : last + 1 < drawn) :
    fill drawn last [] = (false, [last + 1]) :=
  if_pos (by omega)

variable {n k : Nat} {is : List Nat}

theorem combinations_following {c : Cursor} (hc : c.Follows n is) : ∃ drawn,
    (combinations n k).following c = (unlessEnded (scan (ascend n) is)).map (⟨drawn, ·⟩) ∧
      ∀ js, scan (ascend n) is = (false, js) → Cursor.Follows n ⟨drawn, js⟩ js := by
  obtain ⟨drawn, positions⟩ := c
  obtain rfl : positions = is := hc.positions
  rcases List.eq_nil_or_concat' positions with rfl | ⟨init, last, rfl⟩
  · exact ⟨n, rfl, fun js hjs => by cases hjs⟩
  · have hlast : (init ++ [last]).getLast? = some last := List.getLast?_concat
    have hnext := hc.next ascend_of_lt (if last + 1 = drawn then draw n drawn else drawn)
      (fun hall => ?_) fun hlate init' last' hconcat hlast' => ?_
    · refine ⟨if last + 1 = drawn then draw n drawn else drawn, ?_, hnext.2⟩
      rw [← hnext.1]
      simp only [combinations, hlast]
    · dsimp only at hall
      rw [hall, draw_self, ite_self]
    · obtain ⟨-, hsame⟩ := List.append_inj' hconcat rfl
      obtain rfl : last = last' := by simpa using hsame
      dsimp only at hlate hlast'
      rw [draw_of_lt hlate]
      split_ifs <;> omega

theorem multisets_following {c : Cursor} (hc : c.Follows n is) : ∃ drawn,
    (multisets n k).following c = (unlessEnded (scan (fill n) is)).map (⟨drawn, ·⟩) ∧
      ∀ js, scan (fill n) is = (false, js) → Cursor.Follows n ⟨drawn, js⟩ js := by
  have hnext := hc.next fill_of_lt (draw n c.drawn) (fun hall => ?_) fun hlate _ _ _ _ => ?_
  · refine ⟨draw n c.drawn, ?_, hnext.2⟩
    rw [← hnext.1, ← hc.positions]
    rfl
  · rw [hall, draw_self]
  · rw [draw_of_lt hlate]
    omega

/-- A generator with a cursor gives the words of the counter that has all letters from the start. -/
theorem gives_of_follows {g : WordGenerator Cursor} {turn : Nat → List Nat → Bool × List Nat}
    (hword : ∀ c, g.word c = letters c.positions)
    (hfollowing : ∀ c is, Cursor.Follows n c is → ∃ drawn,
      g.following c = (unlessEnded (scan turn is)).map (⟨drawn, ·⟩) ∧
        ∀ js, scan turn is = (false, js) → Cursor.Follows n ⟨drawn, js⟩ js)
    {c : Cursor} {is' : List Nat} {ws : List (List Nat)} (hc : c.Follows n is)
    (h : Cycle (scan turn) letters is ws is') : g.Gives c ws := by
  refine gives_of_cycle (R := Cursor.Follows n) ?_ ?_ ?_ h hc
  · intro c is hc
    rw [hword, hc.positions]
  · intro c is js hc hjs
    obtain ⟨drawn, heq, -⟩ := hfollowing c is hc
    rw [heq, hjs]
    rfl
  · intro c is js hc hjs
    obtain ⟨drawn, heq, hnext⟩ := hfollowing c is hc
    rw [heq, hjs]
    exact ⟨_, rfl, hnext js hjs⟩

/-! ## All words -/

theorem collect_combinations {fuel : Nat} (hk : k ≠ 0)
    (hfuel : (selections k (List.range' 1 n)).length ≤ fuel) :
    (combinations n k).collect fuel = some (selections k (List.range' 1 n)) := by
  rw [selections, List.length_range'] at hfuel ⊢
  split_ifs at hfuel ⊢ with hn
  · exact collect_of_first_eq_none (if_pos (by omega)) fuel
  · have hmin : min k n = k := by omega
    have hcycle := cycle_ascend k (n - k) 0
    have hall : 0 + k + (n - k) = n := by omega
    have hlength : k + (n - k) = n := by omega
    rw [hall, hlength, Nat.zero_add] at hcycle
    refine collect_of_gives (c := ⟨k, List.range' 0 k⟩) ?_ ?_ hfuel
    · simp only [combinations, hmin, Nat.lt_irrefl, if_false, List.range_eq_range']
    · refine gives_of_follows (n := n) (fun _ => rfl) (fun _ _ => combinations_following) ?_ hcycle
      refine ⟨rfl, ?_⟩
      rcases Nat.lt_or_eq_of_le (Nat.le_of_not_lt hn) with hlt | heq
      · obtain ⟨j, rfl⟩ := Nat.exists_eq_add_one_of_ne_zero hk
        refine .inr ⟨hlt, List.range' 0 j, j, ?_, Nat.lt_succ_self j⟩
        rw [List.range'_1_concat, Nat.zero_add]
      · exact .inl heq

theorem collect_multisets {fuel : Nat} (hk : k ≠ 0)
    (hfuel : (multiselections k (List.range' 1 n)).length ≤ fuel) :
    (multisets n k).collect fuel = some (multiselections k (List.range' 1 n)) := by
  obtain ⟨k, rfl⟩ := Nat.exists_eq_add_one_of_ne_zero hk
  cases n with
  | zero => exact collect_of_first_eq_none rfl fuel
  | succ n =>
    have hcycle := cycle_fill (k + 1) n 0
    rw [Nat.zero_add, Nat.zero_add] at hcycle
    refine collect_of_gives (c := ⟨1, List.replicate (k + 1) 0⟩) rfl ?_ hfuel
    refine gives_of_follows (n := n + 1) (fun _ => rfl) (fun _ _ => multisets_following) ?_ hcycle
    refine ⟨rfl, ?_⟩
    rcases Nat.eq_zero_or_pos n with rfl | hn
    · exact .inl rfl
    · refine .inr ⟨Nat.succ_lt_succ hn, List.replicate k 0, 0, ?_, Nat.zero_lt_one⟩
      exact List.replicate_succ'

theorem collect_words {fuel : Nat} (hk : k ≠ 0)
    (hfuel : (tuples (List.replicate k (List.range' 1 n))).length ≤ fuel) :
    (words n k).collect fuel = some (tuples (List.replicate k (List.range' 1 n))) := by
  cases n with
  | zero =>
    obtain ⟨k, rfl⟩ := Nat.exists_eq_add_one_of_ne_zero hk
    exact collect_of_first_eq_none rfl fuel
  | succ n =>
    refine collect_of_gives (c := List.replicate k 1) (if_neg (by omega)) ?_ hfuel
    refine gives_of_cycle (R := Eq) ?_ ?_ ?_ (cycle_words k n) rfl
    · rintro c _ rfl
      exact (List.map_id c).symm
    · rintro c _ js rfl hjs
      show unlessEnded _ = none
      rw [hjs]
      rfl
    · rintro c _ js rfl hjs
      refine ⟨js, ?_, rfl⟩
      show unlessEnded _ = some js
      rw [hjs]
      rfl

/-! ## Permutations -/

theorem arrangements_succ (k : Nat) (xs : List Nat) :
    arrangements (k + 1) xs = xs.flatMap fun x => (arrangements k (xs.erase x)).map (x :: ·) := by
  cases k with
  | zero => exact List.map_eq_flatMap
  | succ k => rfl

/-- The first arrangements differ in the last letter only. -/
theorem arrangements_append (before later : List Nat) : ∃ rest,
    arrangements (before.length + 1) (before ++ later) = later.map (before ++ [·]) ++ rest := by
  induction before with
  | nil => exact ⟨[], (List.append_nil _).symm⟩
  | cons x before ih =>
    obtain ⟨rest, hrest⟩ := ih
    rw [List.length_cons, List.cons_append, arrangements_succ, List.flatMap_cons,
      List.erase_cons_head, hrest, List.map_append, List.map_map, List.append_assoc]
    exact ⟨_, rfl⟩

theorem fullCycles_succ {n k : Nat} (h : k ≤ n) :
    fullCycles (n + 1) (k + 1) = n :: fullCycles n k := by
  have hlast : n - k + k = n := Nat.sub_add_cancel h
  rw [fullCycles, Nat.add_sub_add_right, List.range'_1_concat, List.reverse_concat, hlast,
    fullCycles]

/-- One step of the positions and cycles of a permutation. -/
abbrev turnCycles (s : List Nat × List Nat) : Bool × List Nat × List Nat := advance s.1 s.2

/-- The word of the first positions, as many as there are cycles. -/
abbrev cyclesWord (s : List Nat × List Nat) : List Nat := letters (s.1.take s.2.length)

section Advance

variable {i : Nat} {js js' cs cs' : List Nat}

theorem advance_cons_of_next {c : Nat} (h : advance js cs = (false, js', cs')) :
    advance (i :: js) (c :: cs) = (false, i :: js', c :: cs') := by
  rw [advance, h]

theorem advance_cons_zero (h : advance js cs = (true, js', cs')) :
    advance (i :: js) (0 :: cs) = (true, js' ++ [i], js'.length :: cs') := by
  rw [advance, h]
  rfl

/-- The first position is exchanged with the first one that it has not been exchanged with. -/
theorem advance_cons_succ {j : Nat} {before later : List Nat}
    (h : advance js cs = (true, before ++ j :: later, cs')) :
    advance (i :: js) ((later.length + 1) :: cs) =
      (false, j :: (before ++ i :: later), later.length :: cs') := by
  have hplace : (before ++ j :: later).length - (later.length + 1) = before.length := by
    rw [List.length_append, List.length_cons]
    omega
  rw [advance, h]
  dsimp only
  rw [if_neg (Nat.succ_ne_zero _), hplace, List.getD_append_right _ _ _ _ (Nat.le_refl _),
    List.set_append_right _ _ (Nat.le_refl _), Nat.sub_self]
  rfl

theorem cycle_advance_last {c : Nat} {u : List Nat × List Nat}
    (h : Cycle turnCycles cyclesWord (js, cs) ws (js', cs'))
    (hturn : ∀ s, turnCycles s = (true, js', cs') → turnCycles (i :: s.1, c :: s.2) = (true, u)) :
    Cycle turnCycles cyclesWord (i :: js, c :: cs) (ws.map ((i + 1) :: ·)) u := by
  refine h.lift_last (f := fun s => (i :: s.1, c :: s.2)) (g := ((i + 1) :: ·)) ?_ ?_ hturn
  · exact fun s => rfl
  · exact fun s t hs => advance_cons_of_next hs

theorem cycle_advance_next {c : Nat} {u u' : List Nat × List Nat} {vs : List (List Nat)}
    (h : Cycle turnCycles cyclesWord (js, cs) ws (js', cs'))
    (hturn : ∀ s, turnCycles s = (true, js', cs') → turnCycles (i :: s.1, c :: s.2) = (false, u))
    (hrest : Cycle turnCycles cyclesWord u vs u') :
    Cycle turnCycles cyclesWord (i :: js, c :: cs) (ws.map ((i + 1) :: ·) ++ vs) u' := by
  refine h.lift_next (f := fun s => (i :: s.1, c :: s.2)) (g := ((i + 1) :: ·)) ?_ ?_ hturn hrest
  · exact fun s => rfl
  · exact fun s t hs => advance_cons_of_next hs

end Advance

theorem erase_letters {before later : List Nat} {i : Nat} (h : (before ++ i :: later).Nodup) :
    (letters (before ++ i :: later)).erase (i + 1) = letters (before ++ later) := by
  have hi : i ∉ before ++ later := (List.nodup_middle.mp h).notMem
  have hbefore : i + 1 ∉ before.map (· + 1) := by
    intro hmem
    obtain ⟨j, hj, hji⟩ := List.mem_map.mp hmem
    obtain rfl : j = i := Nat.succ.inj hji
    exact hi (List.mem_append_left later hj)
  rw [letters, List.map_append, List.map_cons, List.erase_append_right _ hbefore,
    List.erase_cons_head, letters, List.map_append]

/-- The first position runs through `i` and those after it, and is behind all of them in the end. -/
theorem cycle_advance_from {k n : Nat} {all : List Nat} (hnodup : all.Nodup)
    (hlength : all.length = n + 1)
    (htail : ∀ is : List Nat, is.Nodup → is.length = n →
      Cycle turnCycles cyclesWord (is, fullCycles n k) (arrangements k (letters is))
        (is, fullCycles n k))
    (before later : List Nat) (i : Nat) (hall : all = before ++ i :: later) :
    Cycle turnCycles cyclesWord (i :: (before ++ later), later.length :: fullCycles n k)
      ((letters (i :: later)).flatMap fun x =>
        (arrangements k ((letters all).erase x)).map (x :: ·))
      (all, n :: fullCycles n k) := by
  have hrest : (before ++ later).length = n := by
    rw [hall, List.length_append, List.length_cons] at hlength
    rw [List.length_append]
    omega
  have hhead : Cycle turnCycles cyclesWord (before ++ later, fullCycles n k)
      (arrangements k ((letters all).erase (i + 1))) (before ++ later, fullCycles n k) := by
    have hsub : (before ++ later).Sublist all :=
      hall ▸ (List.sublist_cons_self i later).append_left before
    rw [hall] at hnodup ⊢
    rw [erase_letters hnodup]
    exact htail _ (hall ▸ hnodup |>.sublist hsub) hrest
  have hletters : letters (i :: later) = (i + 1) :: letters later := rfl
  rw [hletters, List.flatMap_cons]
  cases later with
  | nil =>
    rw [List.append_nil] at hhead hrest ⊢
    have hended : (letters []).flatMap (fun x =>
        (arrangements k ((letters all).erase x)).map (x :: ·)) = [] := rfl
    rw [hended, List.append_nil]
    refine cycle_advance_last hhead fun s hs => ?_
    rw [turnCycles, List.length_nil, advance_cons_zero hs, hrest, hall]
  | cons j later =>
    have hall' : all = (before ++ [i]) ++ j :: later := by
      rw [hall, List.append_assoc, List.singleton_append]
    have hnext := cycle_advance_from hnodup hlength htail (before ++ [i]) later j hall'
    rw [List.append_assoc, List.singleton_append] at hnext
    exact cycle_advance_next hhead (fun s => advance_cons_succ) hnext

theorem cycle_advance (k : Nat) (is : List Nat) (hk : k ≤ is.length) (hnodup : is.Nodup) :
    Cycle turnCycles cyclesWord (is, fullCycles is.length k) (arrangements k (letters is))
      (is, fullCycles is.length k) := by
  induction k generalizing is with
  | zero => exact .last (by cases is <;> rfl)
  | succ k ih =>
    cases is with
    | nil => cases hk
    | cons i is =>
      have hk' : k ≤ is.length := Nat.le_of_succ_le_succ hk
      rw [arrangements_succ, List.length_cons, fullCycles_succ hk']
      refine cycle_advance_from hnodup rfl (fun js hjs hlength => ?_) [] is i rfl
      rw [← hlength]
      exact ih js (hlength ▸ hk') hjs

/-! ## Permutations one after the other -/

theorem gives_turning {s s' : List Nat × List Nat} (h : Cycle turnCycles cyclesWord s ws s') :
    (permutations n k).Gives (.turning s.1 s.2) ws := by
  refine gives_of_cycle (R := fun c s => c = Stage.turning s.1 s.2) ?_ ?_ ?_ h rfl
  · rintro c s rfl
    rfl
  · rintro c s t rfl hs
    show (unlessEnded (turnCycles s)).map _ = none
    rw [hs]
    rfl
  · rintro c s t rfl hs
    refine ⟨.turning t.1 t.2, ?_, rfl⟩
    show (unlessEnded (turnCycles s)).map _ = _
    rw [hs]
    rfl

theorem gives_drawing_all {given rest : List (List Nat)} {s' : List Nat × List Nat}
    (hlength : given.length = n - k + 1)
    (h : Cycle turnCycles cyclesWord (List.range n, fullCycles n k) (given ++ rest) s') :
    (permutations n k).Gives (.drawing n) ((permutations n k).word (.drawing n) :: rest) := by
  have hfollowing : (permutations n k).following (.drawing n) =
      (skip turnCycles given.length (List.range n, fullCycles n k)).map
        fun s => .turning s.1 s.2 := by
    rw [hlength]
    exact if_neg (Nat.lt_irrefl n)
  by_cases hrest : rest = []
  · rw [hrest] at h ⊢
    rw [List.append_nil] at h
    rw [h.skip_all] at hfollowing
    exact gives_last hfollowing
  · obtain ⟨t, hskip, ht⟩ := h.skip hrest
    rw [hskip] at hfollowing
    exact gives_next hfollowing (gives_turning ht)

/-- The words given while letters are drawn come before the others. -/
theorem gives_drawing {rest : List (List Nat)}
    (hall : (permutations n k).Gives (.drawing n) ((permutations n k).word (.drawing n) :: rest))
    (left drawn : Nat) (hleft : drawn + left = n) : (permutations n k).Gives (.drawing drawn)
      ((List.range' drawn (left + 1)).map (fun d => (permutations n k).word (.drawing d)) ++
        rest) := by
  induction left generalizing drawn with
  | zero =>
    obtain rfl : drawn = n := hleft
    exact hall
  | succ left ih => exact gives_next (if_pos (by omega)) (ih (drawn + 1) (by omega))

theorem letters_range (n : Nat) : letters (List.range n) = List.range' 1 n := by
  rw [letters, List.range'_eq_map_range]
  exact List.map_congr_left fun i _ => Nat.add_comm i 1

theorem word_drawing {drawn : Nat} (h : drawn ≠ 0) :
    (permutations n (k + 1)).word (.drawing drawn) = List.range' 1 k ++ [drawn] := by
  have hdrawn : drawn - 1 + 1 = drawn := Nat.sub_add_cancel (Nat.pos_of_ne_zero h)
  show letters (List.range k ++ [drawn - 1]) = _
  rw [letters, List.map_append, List.map_singleton, hdrawn, ← letters, letters_range]

theorem collect_permutations {fuel : Nat} (hk : k ≠ 0)
    (hfuel : (if n < k then [] else arrangements k (List.range' 1 n)).length ≤ fuel) :
    (permutations n k).collect fuel =
      some (if n < k then [] else arrangements k (List.range' 1 n)) := by
  split_ifs at hfuel ⊢ with hn
  · exact collect_of_first_eq_none (if_pos (by omega)) fuel
  · obtain ⟨k, rfl⟩ := Nat.exists_eq_add_one_of_ne_zero hk
    have hmin : min (k + 1) n = k + 1 := by omega
    have hcycle := cycle_advance (k + 1) (List.range n) (by rw [List.length_range]; omega)
      List.nodup_range
    rw [List.length_range, letters_range] at hcycle
    obtain ⟨rest, hrest⟩ := arrangements_append (List.range' 1 k) (List.range' (1 + k) (n - k))
    have hsplit : k + (n - k) = n := by omega
    have hstart : 1 + k = k + 1 := Nat.add_comm 1 k
    have hleft : n - k = n - (k + 1) + 1 := by omega
    have hdrawn : (List.range' (k + 1) (n - k)).map (List.range' 1 k ++ [·]) =
        (List.range' (k + 1) (n - k)).map fun d => (permutations n (k + 1)).word (.drawing d) := by
      refine List.map_congr_left fun d hd => (word_drawing ?_).symm
      rw [List.mem_range'_1] at hd
      omega
    rw [List.length_range', List.range'_append_1, hsplit, hstart, hdrawn, hleft] at hrest
    rw [hrest] at hcycle hfuel ⊢
    refine collect_of_gives (c := .drawing (k + 1)) ?_ ?_ hfuel
    · simp only [permutations, hmin, ne_eq, not_true_eq_false, if_false]
    · refine gives_drawing (gives_drawing_all ?_ hcycle) _ _ (by omega)
      rw [List.length_map, List.length_range']

end WordGenerator

/-- **The generators give the tables.** Given the time for as many words as there are, the generator
of a family gives the words of the table in the same order and ends. -/
theorem Family.generate_eq (family : Family) {n k fuel : Nat}
    (hfuel : (family.sequences n k).length ≤ fuel) :
    family.generate n k fuel = some (family.sequences n k) := by
  rw [sequences] at hfuel ⊢
  by_cases hk : k = 0
  · rw [if_pos hk]
    exact if_pos hk
  · rw [if_neg hk] at hfuel ⊢
    refine (if_neg hk).trans ?_
    cases family with
    | combinations => exact WordGenerator.collect_combinations hk hfuel
    | multisets => exact WordGenerator.collect_multisets hk hfuel
    | permutations => exact WordGenerator.collect_permutations hk hfuel
    | words => exact WordGenerator.collect_words hk hfuel

end Clausal
