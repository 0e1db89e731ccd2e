import Clausal.Dimacs.Combinator
import Clausal.Proofs.Dimacs.Parser

/-!
# The reader and its parsers

The reader that is put together from small parsers does what the other one does (`parse_eq`). None
of its parsers stops for good or for want of input (`Parser.Backtracks`). A number that is checked at
each digit is in range at all of them exactly when it is in the end (`scan_eq`), and a list of numbers
is left where the line does not go on with one (`more_numbers`). Every number up to the announced one
stands for a literal. So of all errors only the reader's own ones are left.
-/

namespace Clausal.Dimacs.Combinator

namespace Parser

variable {α β γ : Type} {p : Parser α} {q : Parser β} {s rest : List Char} {a : α} {b : β}

/-! ## Parsers that let others try -/

/-- A parser stops for no other reason than a mismatch. -/
def Backtracks (p : Parser α) : Prop :=
  ∀ s stop, p.run s = .error stop → ∃ m, stop = .error m

theorem backtracks_ofOption {expected : Expected} {read : List Char → Option (α × List Char)}
    {h : ∀ s rest a, read s = some (a, rest) → rest.length ≤ s.length} :
    (ofOption expected read h).Backtracks := by
  intro s stop hrun
  simp only [ofOption] at hrun
  split at hrun
  · cases hrun
    exact ⟨_, rfl⟩
  · cases hrun

theorem Backtracks.map {f : α → β} (hp : p.Backtracks) : (p.map f).Backtracks := by
  intro s stop hrun
  simp only [Parser.map] at hrun
  split at hrun
  · rename_i stop' hstop
    cases hrun
    exact hp s _ hstop
  · cases hrun

theorem Backtracks.seq (hp : p.Backtracks) (hq : q.Backtracks) : (p.seq q).Backtracks := by
  intro s stop hrun
  simp only [Parser.seq] at hrun
  split at hrun
  · rename_i stop' hstop
    cases hrun
    exact hp s _ hstop
  · rename_i a next hnext
    split at hrun
    · rename_i stop' hstop
      cases hrun
      exact hq next _ hstop
    · cases hrun

theorem Backtracks.allConsuming (hp : p.Backtracks) : p.allConsuming.Backtracks := by
  intro s stop hrun
  simp only [Parser.allConsuming] at hrun
  split at hrun
  · rename_i stop' hstop
    cases hrun
    exact hp s _ hstop
  · split_ifs at hrun
    cases hrun
    exact ⟨_, rfl⟩

/-! ## What is read -/

theorem run_ofOption_eq_ok_iff {expected : Expected} {read : List Char → Option (α × List Char)}
    {h : ∀ s rest a, read s = some (a, rest) → rest.length ≤ s.length} :
    (ofOption expected read h).run s = .ok (a, rest) ↔ read s = some (a, rest) := by
  simp only [ofOption]
  cases read s with
  | none => simp
  | some result => simp

theorem run_map_eq_ok_iff {f : α → β} :
    (p.map f).run s = .ok (b, rest) ↔ ∃ a, p.run s = .ok (a, rest) ∧ f a = b := by
  simp only [Parser.map]
  rcases p.run s with stop | ⟨a, rest'⟩
  · simp
  · simp [and_comm, eq_comm]

theorem run_seq_eq_ok_iff : (p.seq q).run s = .ok ((a, b), rest) ↔
    ∃ next, p.run s = .ok (a, next) ∧ q.run next = .ok (b, rest) := by
  simp only [Parser.seq]
  constructor
  · intro hrun
    split at hrun
    · cases hrun
    · rename_i next hp
      split at hrun
      · cases hrun
      · rename_i hq
        cases hrun
        exact ⟨next, hp, hq⟩
  · rintro ⟨next, hp, hq⟩
    rw [hp]
    dsimp only
    rw [hq]

theorem run_allConsuming_eq_ok_iff :
    p.allConsuming.run s = .ok (a, rest) ↔ p.run s = .ok (a, []) ∧ rest = [] := by
  simp only [Parser.allConsuming]
  constructor
  · intro hrun
    split at hrun
    · cases hrun
    · rename_i hp
      split_ifs at hrun with hempty
      cases hrun
      rw [List.isEmpty_iff] at hempty
      subst hempty
      exact ⟨hp, rfl⟩
  · rintro ⟨hp, rfl⟩
    rw [hp]
    rfl

end Parser

/-! ## Numbers -/

theorem le_foldl_digits (digits : List Char) (n : Nat) :
    n ≤ digits.foldl (fun value c => 10 * value + (c.toNat - '0'.toNat)) n := by
  induction digits generalizing n with
  | nil => exact Nat.le_refl n
  | cons c digits ih =>
    have hstep := ih (10 * n + (c.toNat - '0'.toNat))
    rw [List.foldl_cons]
    omega

section Scan

variable {ν : Type} {check : Nat → Option ν} {step : ν → Nat → Option ν}
  (hstep : ∀ n d v, check n = some v → step v d = check (10 * n + d))
  (hmono : ∀ m n, check m = none → m ≤ n → check n = none)

include hstep hmono

/-- Checking a number at each of its digits is the same as checking it in the end. -/
theorem scan_eq {n : Nat} {v : ν} (h : check n = some v) (s : List Char) :
    scan step v s =
      (check ((s.takeWhile Char.isDigit).foldl
        (fun value c => 10 * value + (c.toNat - '0'.toNat)) n)).map
          fun v => (v, s.dropWhile Char.isDigit) := by
  induction s generalizing n v with
  | nil =>
    rw [scan, List.takeWhile_nil, List.foldl_nil, h]
    rfl
  | cons c s ih =>
    rw [scan]
    by_cases hc : c.isDigit = true
    · rw [if_pos hc, hstep _ _ _ h, List.takeWhile_cons_of_pos hc, List.foldl_cons,
        List.dropWhile_cons_of_pos hc]
      cases hnext : check (10 * n + (c.toNat - '0'.toNat)) with
      | none =>
        rw [hmono _ _ hnext (le_foldl_digits _ _)]
        rfl
      | some v' => exact ih hnext
    · rw [if_neg hc, List.takeWhile_cons_of_neg hc, List.foldl_nil, List.dropWhile_cons_of_neg hc, h]
      rfl

theorem scanNumber_eq {zero : ν} (hzero : check 0 = some zero) (s : List Char) :
    scanNumber step zero s =
      (readDigits? s).bind fun (n, rest) => (check n).map fun v => (v, rest) := by
  have hscan := scan_eq hstep hmono hzero s
  rw [scanNumber, readDigits?, digitsValue?]
  cases s with
  | nil => rfl
  | cons c s =>
    by_cases hc : c.isDigit = true
    · have hdigits : ¬ (((c :: s).takeWhile Char.isDigit).isEmpty ||
          ((c :: s).takeWhile Char.isDigit).any fun c => !c.isDigit) = true := by
        rw [Bool.or_eq_true, not_or, List.isEmpty_iff, List.any_eq_true]
        refine ⟨?_, ?_⟩
        · rw [List.takeWhile_cons_of_pos hc]
          exact List.cons_ne_nil c _
        · rintro ⟨c', hc', hnot⟩
          rw [List.mem_takeWhile_imp hc'] at hnot
          cases hnot
      rw [if_pos (by simpa using hc), hscan, if_neg hdigits]
      rfl
    · rw [if_neg (by simpa using hc), List.takeWhile_cons_of_neg hc]
      rfl

end Scan

theorem scanNumber_wordStep (s : List Char) : scanNumber wordStep 0 s = readWord? s := by
  have hstep : ∀ n d v, checkedWord n = some v → wordStep v d = checkedWord (10 * n + d) := by
    intro n d v h
    obtain ⟨rfl, -⟩ := checkedWord_eq_some_iff.mp h
    rw [wordStep, checkedWord]
    split_ifs with hfits
    · rfl
    · rw [checkedWord, if_neg (by omega)]
      rfl
  have hmono : ∀ m n, checkedWord m = none → m ≤ n → checkedWord n = none := by
    intro m n h hle
    rw [checkedWord] at h ⊢
    split_ifs at h with hfits
    exact if_neg (by omega)
  exact scanNumber_eq hstep hmono rfl s

/-- A number with its sign, if it fits into 32 bits. -/
def checkedSigned (negative : Bool) (n : Nat) : Option Int :=
  checked32 (if negative then -(n : Int) else n)

/-- A number nearer to zero need not be checked first. -/
theorem bind_checked32 {x y : Int} (h : 0 ≤ x ∧ x ≤ y ∨ y ≤ x ∧ x ≤ 0) {f : Int → Option Int}
    (hf : f x = checked32 y) : (checked32 x).bind f = checked32 y := by
  rw [checked32]
  split_ifs with hfits
  · exact hf
  · rw [checked32, if_neg (by omega)]
    rfl

theorem scanNumber_intStep (s : List Char) :
    scanNumber (intStep (splitSign s).1) 0 (splitSign s).2 = readInt? s := by
  have hstep : ∀ (negative : Bool) n d v, checkedSigned negative n = some v →
      intStep negative v d = checkedSigned negative (10 * n + d) := by
    intro negative n d v h
    obtain ⟨rfl, -⟩ := checked32_eq_some_iff.mp h
    cases negative with
    | false =>
      refine bind_checked32 (Or.inl ?_) ?_
      · simp only [Bool.false_eq_true, if_false]
        omega
      · simp only [Bool.false_eq_true, if_false]
        congr 1
    | true =>
      refine bind_checked32 (Or.inr ?_) ?_
      · simp only [if_true]
        omega
      · simp only [if_true]
        congr 1
        omega
  have hmono : ∀ (negative : Bool) m n, checkedSigned negative m = none → m ≤ n →
      checkedSigned negative n = none := by
    intro negative m n h hle
    rw [checkedSigned, checked32] at h ⊢
    cases negative with
    | false =>
      simp only [Bool.false_eq_true, if_false] at h ⊢
      split_ifs at h with hfits
      exact if_neg (by omega)
    | true =>
      simp only [if_true] at h ⊢
      split_ifs at h with hfits
      exact if_neg (by omega)
  have hzero : checkedSigned (splitSign s).1 0 = some 0 := by
    cases (splitSign s).1 <;> rfl
  exact scanNumber_eq (hstep _) (hmono _) hzero _

/-! ## The problem line -/

theorem run_tag_eq_ok_iff {w s rest : List Char} :
    (tag w).run s = .ok ((), rest) ↔ expect? w s = some rest := by
  rw [tag, Parser.run_ofOption_eq_ok_iff, Option.map_eq_some_iff]
  simp

theorem run_space1_eq_ok_iff {s rest : List Char} :
    space1.run s = .ok ((), rest) ↔ spaces? s = some rest := by
  rw [space1, Parser.run_ofOption_eq_ok_iff, Option.map_eq_some_iff]
  simp

theorem run_space0_eq_ok_iff {s rest : List Char} {u : Unit} :
    space0.run s = .ok (u, rest) ↔ rest = skipSpaces s := by
  simp [space0, eq_comm]

theorem run_word_eq_ok_iff {s rest : List Char} {n : Nat} :
    word.run s = .ok (n, rest) ↔ readWord? s = some (n, rest) := by
  rw [word, Parser.run_ofOption_eq_ok_iff, scanNumber_wordStep]

theorem run_int_eq_ok_iff {s rest : List Char} {value : Int} :
    int.run s = .ok (value, rest) ↔ readInt? s = some (value, rest) := by
  rw [int, Parser.run_ofOption_eq_ok_iff, scanNumber_intStep]

theorem backtracks_space0 : space0.Backtracks := by
  intro s stop hrun
  cases hrun

theorem backtracks_problemParser : problemParser.Backtracks := by
  have hword : word.Backtracks := Parser.backtracks_ofOption
  have hspace : space1.Backtracks := Parser.backtracks_ofOption
  have htag : ∀ w, (tag w).Backtracks := fun _ => Parser.backtracks_ofOption
  exact (htag _).seq <| hspace.seq <| (htag _).seq <| hspace.seq <| hword.seq <| hspace.seq <|
    (hword.seq backtracks_space0).map

theorem run_problemParser_eq_ok_iff {s rest : List Char} {vars clauses : Nat} :
    problemParser.allConsuming.run s = .ok (((), (), (), (), vars, (), clauses), rest) ↔
      rest = [] ∧ readProblemLine? s = some (vars, clauses) := by
  simp only [problemParser, Parser.run_allConsuming_eq_ok_iff, Parser.run_seq_eq_ok_iff,
    Parser.terminated, Parser.run_map_eq_ok_iff, run_tag_eq_ok_iff, run_space1_eq_ok_iff,
    run_word_eq_ok_iff, run_space0_eq_ok_iff, readProblemLine?, Option.bind_eq_bind,
    Option.bind_eq_some_iff, Prod.exists]
  constructor
  · rintro ⟨⟨s₁, h₁, s₂, h₂, s₃, h₃, s₄, h₄, s₅, h₅, s₆, h₆, m, _, ⟨s₇, h₇, hlast⟩, rfl⟩, rfl⟩
    refine ⟨rfl, s₁, h₁, s₂, h₂, s₃, h₃, s₄, h₄, vars, s₅, h₅, s₆, h₆, m, s₇, h₇, ?_⟩
    rw [← hlast]
    rfl
  · rintro ⟨rfl, s₁, h₁, s₂, h₂, s₃, h₃, s₄, h₄, n, s₅, h₅, s₆, h₆, m, s₇, h₇, h⟩
    split_ifs at h with hlast
    cases h
    exact ⟨⟨s₁, h₁, s₂, h₂, s₃, h₃, s₄, h₄, s₅, h₅, s₆, h₆, clauses, (), ⟨s₇, h₇,
      (List.isEmpty_iff.mp hlast).symm⟩, rfl⟩, rfl⟩

theorem checkedWord_of_readProblemLine? {s : List Char} {vars clauses : Nat}
    (h : readProblemLine? s = some (vars, clauses)) : checkedWord clauses = some clauses := by
  simp only [readProblemLine?, Option.bind_eq_bind, Option.bind_eq_some_iff, Prod.exists] at h
  obtain ⟨_, -, _, -, _, -, _, -, n, _, -, _, -, m, _, hread, h⟩ := h
  split_ifs at h
  cases h
  obtain ⟨⟨value, rest⟩, -, h⟩ := Option.bind_eq_some_iff.mp hread
  obtain ⟨value', hvalue, heq⟩ := Option.map_eq_some_iff.mp h
  cases heq
  obtain ⟨rfl, hfits⟩ := checkedWord_eq_some_iff.mp hvalue
  exact hvalue

theorem problemLine_eq (line : Nat) (s : List Char) : problemLine line s =
    match readProblemLine? s with
    | none => .error (.error (.known (.problemLine line)))
    | some (vars, clauses) =>
      if maxVar < vars then .error (.error (.known (.tooManyVariables vars)))
      else .ok ((vars, clauses), []) := by
  rw [problemLine]
  cases hproblem : readProblemLine? s with
  | none =>
    cases hrun : problemParser.allConsuming.run s with
    | error stop =>
      obtain ⟨m, rfl⟩ := backtracks_problemParser.allConsuming _ _ hrun
      rfl
    | ok result =>
      obtain ⟨⟨_, _, _, _, vars, _, clauses⟩, rest⟩ := result
      rw [(run_problemParser_eq_ok_iff.mp hrun).2] at hproblem
      cases hproblem
  | some numbers =>
    obtain ⟨vars, clauses⟩ := numbers
    rw [run_problemParser_eq_ok_iff.mpr ⟨rfl, hproblem⟩]
    dsimp only
    by_cases hlarge : maxVar < vars
    · rw [if_pos hlarge, if_neg fun h => Nat.not_lt.mpr h.2 hlarge]
    · have hvars : vars ≤ maxVar := Nat.le_of_not_lt hlarge
      rw [if_neg hlarge, if_pos ⟨Nat.lt_of_le_of_lt hvars (by decide), hvars⟩,
        checkedWord_of_readProblemLine? hproblem]

/-! ## Lines of numbers -/

theorem run_int_cases (s : List Char) :
    (∃ m, int.run s = .error (.error m) ∧ readInt? s = none) ∨
      ∃ value rest, int.run s = .ok (value, rest) ∧ readInt? s = some (value, rest) := by
  rcases hrun : int.run s with stop | ⟨value, rest⟩
  · obtain ⟨m, rfl⟩ : ∃ m, stop = .error m := Parser.backtracks_ofOption s stop hrun
    refine Or.inl ⟨m, rfl, ?_⟩
    cases hread : readInt? s with
    | none => rfl
    | some result =>
      obtain ⟨value, rest⟩ := result
      rw [run_int_eq_ok_iff.mpr hread] at hrun
      cases hrun
  · exact Or.inr ⟨value, rest, rfl, run_int_eq_ok_iff.mp hrun⟩

namespace Parser

variable {α β : Type} {separator : Parser β} {p : Parser α} {s next after : List Char} {m : Mismatch}
  {a : α} {b : β}

theorem more_eq (separator : Parser β) (p : Parser α) (s : List Char) : more separator p s =
    match separator.run s with
    | .error (.error _) => .ok ([], s)
    | .error stop => .error stop
    | .ok (_, next) =>
      if next.length = s.length then .error (.error ⟨next, .separatedList⟩)
      else
        match p.run next with
        | .error (.error _) => .ok ([], s)
        | .error stop => .error stop
        | .ok (a, after) =>
          match more separator p after with
          | .error stop => .error stop
          | .ok (as, rest) => .ok (a :: as, rest) := by
  rw [more]
  split
  · rename_i hstop
    rw [hstop]
  · rename_i stop hne hstop
    rw [hstop]
    cases stop with
    | incomplete => rfl
    | error m => exact absurd rfl (hne m)
    | failure m => rfl
  · rename_i next hnext
    conv_rhs => rw [hnext]
    dsimp only
    split_ifs with hsame
    · rfl
    · split
      · rename_i hstop
        rw [hstop]
      · rename_i stop hne hstop
        rw [hstop]
        cases stop with
        | incomplete => rfl
        | error m => exact absurd rfl (hne m)
        | failure m => rfl
      · rename_i after hafter
        cases hmore : more separator p after <;> simp only [hafter, hmore]

end Parser

/-- What is said about the numbers of a line when `rest` is left after them. -/
def endValues (values : List Int) (rest : List Char) : Except (List Char) (List Int) :=
  if (skipSpaces rest).isEmpty then .ok values else .error (skipSpaces rest)

theorem endValues_cons (value : Int) (values : List Int) (rest : List Char) :
    endValues (value :: values) rest = (endValues values rest).map (value :: ·) := by
  rw [endValues, endValues]
  split_ifs <;> rfl

theorem endValues_of_readInt?_eq_none {s : List Char} (h : readInt? (skipSpaces s) = none) :
    endValues [] s = readValues s := by
  rw [endValues]
  split_ifs with hempty
  · exact (readValues_of_isEmpty hempty).symm
  · exact (readValues_of_none hempty h).symm

theorem endValues_of_spaces?_eq_none {s : List Char} (h : spaces? s = none) :
    endValues [] s = if atEnd s then readValues s else .error s := by
  cases s with
  | nil =>
    have hend : atEnd [] = true := rfl
    rw [if_pos hend, readValues_of_isEmpty rfl]
    rfl
  | cons c s =>
    have hc : ¬ isSpace c = true := by
      intro hc
      rw [spaces?, if_pos hc] at h
      cases h
    have hskip : skipSpaces (c :: s) = c :: s := List.dropWhile_cons_of_neg hc
    rw [endValues, hskip, if_neg (by simp), atEnd, if_neg hc]

theorem length_skipSpaces_lt {s : List Char} (hne : s ≠ []) (hend : Ended isSpace s) :
    (skipSpaces s).length < s.length := by
  cases s with
  | nil => exact absurd rfl hne
  | cons c s =>
    rw [skipSpaces, List.dropWhile_cons_of_pos (hend c rfl)]
    exact Nat.lt_succ_of_le (length_dropWhile_le _ _)

theorem not_isEmpty_of_readInt? {s rest : List Char} {value : Int}
    (h : readInt? s = some (value, rest)) : ¬ s.isEmpty = true := by
  intro hempty
  have hlength := length_lt_of_readInt? h
  rw [List.isEmpty_iff.mp hempty] at hlength
  exact Nat.not_lt_zero _ hlength

theorem endValues_of_readInt?_eq_some {s after rest : List Char} {value : Int} {values : List Int}
    (hread : readInt? (skipSpaces s) = some (value, after))
    (h : endValues values rest = if atEnd after then readValues after else .error after) :
    endValues (value :: values) rest = readValues s := by
  rw [endValues_cons, h, readValues_of_some (not_isEmpty_of_readInt? hread) hread]
  split_ifs <;> rfl

/-- A list of numbers is left where the line does not go on with a separator and a number. -/
theorem more_numbers (s : List Char) : ∃ values rest, Parser.more space1 int s = .ok (values, rest) ∧
    endValues values rest = if atEnd s then readValues s else .error s := by
  induction hn : s.length using Nat.strong_induction_on generalizing s with
  | _ n ih =>
    rw [Parser.more_eq]
    cases hspaces : spaces? s with
    | none =>
      have hrun : space1.run s = .error (.error ⟨s, .space⟩) := by
        simp only [space1, Parser.ofOption, hspaces, Option.map_none]
      rw [hrun]
      exact ⟨[], s, rfl, endValues_of_spaces?_eq_none hspaces⟩
    | some next =>
      obtain ⟨hne, hend, rfl⟩ := spaces?_eq_some_iff.mp hspaces
      have hshorter := length_skipSpaces_lt hne hend
      rw [if_pos (atEnd_iff.mpr hend), run_space1_eq_ok_iff.mpr hspaces]
      dsimp only
      rw [if_neg hshorter.ne]
      obtain ⟨m, hrun, hread⟩ | ⟨value, after, hrun, hread⟩ := run_int_cases (skipSpaces s)
      · rw [hrun]
        exact ⟨[], s, rfl, endValues_of_readInt?_eq_none hread⟩
      · have hafter := length_lt_of_readInt? hread
        obtain ⟨values, rest, hmore, hvalues⟩ := ih after.length (by omega) after rfl
        rw [hrun]
        dsimp only
        rw [hmore]
        exact ⟨value :: values, rest, rfl, endValues_of_readInt?_eq_some hread hvalues⟩

theorem skipSpaces_skipSpaces (s : List Char) : skipSpaces (skipSpaces s) = skipSpaces s :=
  List.dropWhile_idempotent isSpace s

theorem run_valuesParser (s : List Char) : valuesParser.allConsuming.run s =
    match readValues s with
    | .error rest => .error (.error ⟨rest, .eof⟩)
    | .ok values => .ok (values, []) := by
  have hlist : ∃ values rest, (Parser.separatedList space1 int).run (skipSpaces s) =
      .ok (values, rest) ∧ endValues values rest = readValues s := by
    simp only [Parser.separatedList]
    obtain ⟨m, hrun, hread⟩ | ⟨value, after, hrun, hread⟩ := run_int_cases (skipSpaces s)
    · rw [hrun]
      refine ⟨[], _, rfl, ?_⟩
      rw [← endValues_of_readInt?_eq_none hread, endValues, endValues, skipSpaces_skipSpaces]
    · obtain ⟨values, rest, hmore, hvalues⟩ := more_numbers after
      rw [hrun]
      dsimp only
      rw [hmore]
      exact ⟨value :: values, rest, rfl, endValues_of_readInt?_eq_some hread hvalues⟩
  obtain ⟨values, rest, hrun, hvalues⟩ := hlist
  rw [← hvalues, endValues]
  simp only [valuesParser, Parser.allConsuming, Parser.delimited, Parser.terminated, Parser.map,
    Parser.seq, space0, hrun]
  split_ifs with hempty
  · rw [List.isEmpty_iff.mp hempty]
  · rfl

theorem valuesLine_eq (line : Nat) (s : List Char) : valuesLine line s =
    match readValues s with
    | .error rest => .error (.error (.known (.unreadableLiteral line (String.ofList rest))))
    | .ok values => .ok (values, []) := by
  rw [valuesLine, run_valuesParser]
  cases readValues s with
  | error rest => rfl
  | ok values => rfl

/-! ## Collecting the clauses -/

/-- What has been read once the numbers of some lines are collected. -/
def State.ofValues (announced : Announced) (values : List Int) : State :=
  ⟨announced, (splitClauses values).1, (splitClauses values).2⟩

theorem addValue_ofValues {announced : Announced} {values : List Int} {line vars : Nat} {value : Int}
    (hvars : vars ≤ maxVar) : addValue line vars (.ofValues announced values) value =
      if vars < value.natAbs then .error (.known (.literalOutOfRange line value vars))
      else .ok (.ofValues announced (values ++ [value])) := by
  rw [addValue]
  by_cases hzero : value = 0
  · subst hzero
    have hzero : ¬ vars < (0 : Int).natAbs := Nat.not_lt_zero vars
    rw [if_pos rfl, if_neg hzero, State.ofValues, State.ofValues, splitClauses_concat_zero]
  · rw [if_neg hzero]
    by_cases hlarge : vars < value.natAbs
    · rw [if_pos hlarge, if_pos hlarge]
    · have hlit : Lit.ofDimacs value = .ok (literalOf value) := by
        rw [Lit.ofDimacs, if_neg hzero, Lit.ofVar?, checkVar, if_neg (by omega)]
        rfl
      rw [if_neg hlarge, if_neg hlarge, hlit, State.ofValues, State.ofValues,
        splitClauses_concat hzero]

theorem checkValues_cons {line vars : Nat} {value : Int} {values : List Int} :
    checkValues line vars (value :: values) =
      if vars < value.natAbs then .error (.literalOutOfRange line value vars)
      else (checkValues line vars values).map (value :: ·) := by
  rw [checkValues, checkValues]
  split_ifs with hlarge
  · rw [List.find?_cons_of_pos (by simpa using hlarge)]
  · rw [List.find?_cons_of_neg (by simpa using hlarge)]
    cases values.find? fun value => vars < value.natAbs with
    | none => rfl
    | some value => rfl

theorem foldlM_addValue {announced : Announced} {line vars : Nat} (hvars : vars ≤ maxVar)
    (before values : List Int) : values.foldlM (addValue line vars) (.ofValues announced before) =
      ((checkValues line vars values).mapError .known).map fun values =>
        .ofValues announced (before ++ values) := by
  induction values generalizing before with
  | nil =>
    have hcheck : checkValues line vars [] = .ok [] := rfl
    rw [hcheck, Except.mapError_ok, Except.map_ok, List.append_nil]
    rfl
  | cons value values ih =>
    rw [List.foldlM_cons, addValue_ofValues hvars, checkValues_cons]
    split_ifs with hlarge
    · rfl
    · rw [Except.ok_bind, ih]
      cases checkValues line vars values with
      | error e => rfl
      | ok values =>
        simp only [Except.map_ok, Except.mapError_ok, List.append_assoc, List.singleton_append]

section Lines

variable {announced : Announced} (hvars : ∀ n m, announced = some (n, m) → n ≤ maxVar)

include hvars

theorem readLine_ofValues (line : Nat) (values : List Int) (s : List Char) :
    readLine line (.ofValues announced values) s =
      ((Dimacs.readLine line announced s).mapError .known).map fun (announced, more) =>
        .ofValues announced (values ++ more) := by
  have hskipped : s.head? = none ∨ s.head? = some 'c' → .ok (.ofValues announced values) =
      ((Dimacs.readLine line announced s).mapError Error.known).map fun (announced, more) =>
        State.ofValues announced (values ++ more) := by
    intro h
    rw [readLine_of_skipped line announced h, Except.mapError_ok, Except.map_ok]
    dsimp only
    rw [List.append_nil]
  unfold readLine
  split
  · rename_i hhead
    exact hskipped (Or.inl hhead)
  · rename_i hhead
    exact hskipped (Or.inr hhead)
  · rename_i hhead
    rw [readLine_of_problem line announced hhead, problemLine_eq, State.ofValues]
    split_ifs with hannounced
    · rfl
    · cases readProblemLine? s with
      | none => rfl
      | some numbers =>
        dsimp only
        split_ifs with hlarge
        · rfl
        · rw [Except.mapError_ok, Except.map_ok, List.append_nil]
          rfl
  · rename_i c hc hp hhead
    rw [readLine_of_values line announced (by simp [hhead]) (by simpa [hhead] using hc)
      (by simpa [hhead] using hp), valuesLine_eq]
    cases announced with
    | none => rfl
    | some numbers =>
      cases readValues s with
      | error rest => rfl
      | ok more =>
        dsimp only
        refine (foldlM_addValue (hvars _ _ rfl) values more).trans ?_
        cases checkValues line numbers.1 more with
        | error e => rfl
        | ok more => rfl

end Lines

theorem vars_le_of_readLine {line : Nat} {announced announced' : Announced} {s : List Char}
    {values : List Int} (hvars : ∀ n m, announced = some (n, m) → n ≤ maxVar)
    (h : Dimacs.readLine line announced s = .ok (announced', values)) :
    ∀ n m, announced' = some (n, m) → n ≤ maxVar := by
  by_cases hskip : s.head? = none ∨ s.head? = some 'c'
  · rw [readLine_of_skipped line announced hskip] at h
    cases h
    exact hvars
  · obtain ⟨hne, hc⟩ := not_or.mp hskip
    by_cases hp : s.head? = some 'p'
    · obtain ⟨-, -, n, m, rfl, -, hle, -⟩ := (readLine_announce hp).mp h
      rintro n' m' ⟨⟩
      exact hle
    · obtain ⟨n, m, rfl, rfl, -⟩ := (readLine_values hne hc hp).mp h
      exact hvars

theorem readLines_ofValues {announced : Announced}
    (hvars : ∀ n m, announced = some (n, m) → n ≤ maxVar) (line : Nat) (values : List Int)
    (lines : List (List UInt8)) : readLines line (.ofValues announced values) lines =
      ((Dimacs.readLines line announced lines).mapError .known).map fun (announced, more) =>
        .ofValues announced (values ++ more) := by
  induction lines generalizing line announced values with
  | nil =>
    rw [readLines, Dimacs.readLines, Except.mapError_ok, Except.map_ok]
    dsimp only
    rw [List.append_nil]
  | cons bytes lines ih =>
    rw [readLines, Dimacs.readLines, readBytes]
    cases String.fromUTF8? ⟨bytes.toArray⟩ with
    | none => rfl
    | some s =>
      dsimp only
      rw [readLine_ofValues hvars]
      cases hread : Dimacs.readLine line announced (trimBlank s.toList) with
      | error e => rfl
      | ok result =>
        obtain ⟨announced', more⟩ := result
        rw [Except.mapError_ok, Except.map_ok]
        dsimp only
        rw [ih (vars_le_of_readLine hvars hread)]
        cases Dimacs.readLines (line + 1) announced' lines with
        | error e => rfl
        | ok result =>
          simp only [Except.mapError_ok, Except.map_ok, List.append_assoc]

theorem finish_ofValues (announced : Announced) (values : List Int) :
    finish (.ofValues announced values) = (assemble announced values).mapError .known := by
  rw [finish, assemble, State.ofValues]
  dsimp only
  split_ifs with hpending
  · rfl
  · cases announced with
    | none => rfl
    | some numbers =>
      dsimp only
      split_ifs <;> first | rfl | contradiction

/-- Both readers read the same, and none of the errors of the parsers reaches the caller. -/
theorem parse_eq (bytes : ByteArray) : parse bytes = (Dimacs.parse bytes).mapError .known := by
  have hstart : (⟨none, [], []⟩ : State) = .ofValues none [] := rfl
  have hvars : ∀ n m, (none : Announced) = some (n, m) → n ≤ maxVar := by
    rintro n m ⟨⟩
  rw [parse, Dimacs.parse, hstart, readLines_ofValues hvars]
  cases Dimacs.readLines 1 none (splitLines bytes.data.toList) with
  | error e => rfl
  | ok result => exact finish_ofValues result.1 ([] ++ result.2)

end Clausal.Dimacs.Combinator
