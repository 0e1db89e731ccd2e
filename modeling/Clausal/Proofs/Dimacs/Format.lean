import Clausal.Proofs.Dimacs.Line
import Clausal.Proofs.Text.Lines
import Mathlib.Data.List.DropRight

/-!
# The format of DIMACS files

What a DIMACS file says is settled by its text. White space at the ends of lines, blank lines and
comments do not count. The first line that is left is the problem line, all others hold numbers, and
only the sequence of these numbers matters (`Describes`). It has to keep to what the problem line
announces (`Complete`), and is cut into clauses at its zeros.

The lines of a file are read successfully exactly when they are as described: first those that do
not count and the problem line (`readLines_start_iff`), then lines of numbers
(`readLines_announced_iff`).
-/

namespace Clausal.Dimacs

/-! ## The format -/

/-- Whether a character separates the words of a line. -/
def isGap (c : Char) : Bool := c = ' ' || c = '\t' || c = '\r'

/-- The lines that are neither blank nor comments, without white space at their ends. -/
def content (lines : List (List Char)) : List (List Char) :=
  (lines.map trimBlank).filter fun line => line.head? ≠ none ∧ line.head? ≠ some 'c'

/-- A problem line announces `n` variables and `m` clauses. -/
def Announces (n m : Nat) (problem : List Char) : Prop :=
  (∃ a b, words isGap problem = [['p'], ['c', 'n', 'f'], a, b] ∧ Decimal n a ∧ Decimal m b) ∧
    n ≤ maxVar ∧ m < wordSize

/-- The text announces `n` variables and `m` clauses in its first line, and holds nothing but
numbers in the others. -/
def Describes (text : String) (n m : Nat) (values : List Int) : Prop :=
  ∃ problem rest, content (text.toList.splitOn '\n') = problem :: rest ∧ Announces n m problem ∧
    (∀ line ∈ rest, line.head? ≠ some 'p') ∧
    List.Forall₂ Number (rest.flatMap (words isGap)) values

/-- The numbers of a file are literals over `n` variables and the ends of `m` clauses, and the last
one is an end. -/
structure Complete (n m : Nat) (values : List Int) : Prop where
  in_range : ∀ v ∈ values, v ≠ 0 → v.natAbs ≤ n
  ended : values = [] ∨ values.getLast? = some 0
  count : values.count 0 = m

/-! ## Trimmed lines -/

theorem isBlank_of_isSpace {c : Char} (h : isSpace c = true) : isBlank c = true := by
  simp only [isSpace, Bool.or_eq_true, decide_eq_true_eq] at h
  rcases h with ((rfl | rfl) | rfl) | rfl
  all_goals decide

theorem trimBlank_isPrefix (line : List Char) : trimBlank line <+: line.dropWhile isBlank :=
  List.rdropWhile_prefix isBlank (line.dropWhile isBlank)

theorem head_trimBlank (line : List Char) : ∀ c ∈ (trimBlank line).head?, isSpace c = false := by
  intro c hc
  obtain ⟨tail, htail⟩ := trimBlank_isPrefix line
  have hhead : c ∈ (line.dropWhile isBlank).head? := by
    rw [← htail, List.head?_append_of_ne_nil]
    · exact hc
    · exact List.ne_nil_of_mem (List.mem_of_mem_head? hc)
  by_contra hspace
  have hblank := isBlank_of_isSpace (by simpa using hspace)
  rw [head_dropWhile line c hhead] at hblank
  cases hblank

theorem head_trimBlank_isGap (line : List Char) :
    ∀ c ∈ (trimBlank line).head?, isGap c = false := by
  intro c hc
  have hspace := head_trimBlank line c hc
  rw [isSpace, Bool.or_eq_false_iff] at hspace
  exact hspace.1

theorem words_trimBlank {line : List Char} (hline : '\n' ∉ line) :
    words isSpace (trimBlank line) = words isGap (trimBlank line) := by
  apply words_congr
  intro c hc
  have hmem : c ∈ line := (List.dropWhile_sublist _).subset ((trimBlank_isPrefix line).subset hc)
  have hne : c ≠ '\n' := by
    rintro rfl
    exact hline hmem
  rw [isSpace, isGap, decide_eq_false hne, Bool.or_false]

/-! ## One line -/

section Line

variable {i : Nat} {announced announced' : Announced} {line : List Char} {values : List Int}

theorem readLine_of_skipped (i : Nat) (announced : Announced)
    (h : line.head? = none ∨ line.head? = some 'c') :
    readLine i announced line = .ok (announced, []) := by
  unfold readLine
  rcases h with h | h
  · rw [h]
  · rw [h]
    rfl

theorem readLine_of_problem (i : Nat) (announced : Announced) (hp : line.head? = some 'p') :
    readLine i announced line =
      if announced.isSome then .error (.duplicateProblemLine i)
      else
        match readProblemLine? line with
        | none => .error (.problemLine i)
        | some (n, m) =>
          if maxVar < n then .error (.tooManyVariables n) else .ok (some (n, m), []) := by
  unfold readLine
  rw [hp]
  rfl

theorem readLine_of_values (i : Nat) (announced : Announced) (h : line.head? ≠ none)
    (hc : line.head? ≠ some 'c') (hp : line.head? ≠ some 'p') :
    readLine i announced line =
      match announced with
      | none => .error (.clauseBeforeProblemLine i)
      | some (n, _) =>
        match readValues line with
        | .error rest => .error (.unreadableLiteral i (String.ofList rest))
        | .ok values => (checkValues i n values).map (announced, ·) := by
  unfold readLine
  split
  · rename_i hhead
    exact absurd hhead h
  · rename_i hhead
    exact absurd hhead hc
  · rename_i hhead
    exact absurd hhead hp
  · rfl

theorem readLine_announce (hp : line.head? = some 'p') :
    readLine i announced line = .ok (announced', values) ↔
      announced = none ∧ values = [] ∧ ∃ n m, announced' = some (n, m) ∧
        (∃ a b, words isSpace line = [['p'], ['c', 'n', 'f'], a, b] ∧ Decimal n a ∧ Decimal m b) ∧
        n ≤ maxVar ∧ m < wordSize := by
  have hhead : ∀ c ∈ line.head?, isSpace c = false := by
    intro c hc
    rw [hp] at hc
    cases hc
    decide
  rw [readLine_of_problem i announced hp]
  cases announced with
  | some announced => simp
  | none =>
    simp only [Option.isSome_none, Bool.false_eq_true, if_false, true_and]
    constructor
    · intro h
      split at h
      · cases h
      · rename_i n m hread
        obtain ⟨a, b, hwords, ⟨ha, -⟩, hb, hm⟩ := (readProblemLine?_eq_some_iff hhead).mp hread
        split_ifs at h with hlarge
        cases h
        exact ⟨rfl, n, m, rfl, ⟨a, b, hwords, ha, hb⟩, Nat.le_of_not_lt hlarge, hm⟩
    · rintro ⟨rfl, n, m, rfl, ⟨a, b, hwords, ha, hb⟩, hn, hm⟩
      have hfits : n < wordSize := Nat.lt_of_le_of_lt hn (by decide)
      have hread := (readProblemLine?_eq_some_iff hhead).mpr
        ⟨a, b, hwords, ⟨ha, hfits⟩, hb, hm⟩
      rw [hread]
      dsimp only
      rw [if_neg (Nat.not_lt.mpr hn)]

theorem checkValues_eq_ok_iff {vars : Nat} {values' : List Int} :
    checkValues i vars values = .ok values' ↔ values = values' ∧ ∀ v ∈ values, v.natAbs ≤ vars := by
  rw [checkValues]
  split
  · rename_i v hv
    have hlarge : vars < v.natAbs := by simpa using List.find?_some hv
    refine ⟨nofun, fun h => absurd hlarge (Nat.not_lt.mpr ?_)⟩
    exact h.2 v (List.mem_of_find?_eq_some hv)
  · rename_i hnone
    rw [List.find?_eq_none] at hnone
    rw [Except.ok.injEq, and_iff_left]
    intro v hv
    simpa using hnone v hv

theorem readLine_values (h : line.head? ≠ none) (hc : line.head? ≠ some 'c')
    (hp : line.head? ≠ some 'p') :
    readLine i announced line = .ok (announced', values) ↔
      ∃ n m, announced = some (n, m) ∧ announced' = some (n, m) ∧
        List.Forall₂ Number (words isSpace line) values ∧ ∀ v ∈ values, v.natAbs ≤ n := by
  rw [readLine_of_values i announced h hc hp]
  cases announced with
  | none => simp
  | some announced =>
    obtain ⟨n, m⟩ := announced
    dsimp only
    constructor
    · intro hread
      split at hread
      · cases hread
      · rename_i values' hvalues
        obtain ⟨checked, hchecked, heq⟩ := Except.map_eq_ok_iff.mp hread
        obtain ⟨rfl, hrange⟩ := checkValues_eq_ok_iff.mp hchecked
        cases heq
        exact ⟨n, m, rfl, rfl, readValues_eq_ok_iff.mp hvalues, hrange⟩
    · rintro ⟨n', m', heq, rfl, hvalues, hrange⟩
      cases heq
      rw [readValues_eq_ok_iff.mpr hvalues]
      dsimp only
      rw [checkValues_eq_ok_iff.mpr ⟨rfl, hrange⟩]
      rfl

end Line

/-! ## Several lines -/

theorem readBytes_eq_ok_iff {i : Nat} {announced : Announced} {bytes : List UInt8}
    {result : Announced × List Int} : readBytes i announced bytes = .ok result ↔
      ∃ line, decode bytes = some line ∧ readLine i announced (trimBlank line) = .ok result := by
  rw [readBytes, decode]
  cases String.fromUTF8? ⟨bytes.toArray⟩ with
  | none => simp
  | some text => simp

theorem readLines_cons_eq_ok_iff {i : Nat} {announced announced' : Announced}
    {bytes : List UInt8} {rest : List (List UInt8)} {values : List Int} :
    readLines i announced (bytes :: rest) = .ok (announced', values) ↔
      ∃ line, decode bytes = some line ∧ ∃ next first more,
        readLine i announced (trimBlank line) = .ok (next, first) ∧
          readLines (i + 1) next rest = .ok (announced', more) ∧ values = first ++ more := by
  rw [readLines]
  constructor
  · intro h
    split at h
    · cases h
    · rename_i next first hfirst
      obtain ⟨line, hline, hread⟩ := readBytes_eq_ok_iff.mp hfirst
      obtain ⟨⟨after, more⟩, hmore, heq⟩ := Except.map_eq_ok_iff.mp h
      cases heq
      exact ⟨line, hline, next, first, more, hread, hmore, rfl⟩
  · rintro ⟨line, hline, next, first, more, hread, hmore, rfl⟩
    rw [readBytes_eq_ok_iff.mpr ⟨line, hline, hread⟩]
    dsimp only
    rw [hmore]
    rfl

/-- A line does not count if it is blank or a comment. -/
def Skipped (line : List Char) : Prop :=
  (trimBlank line).head? = none ∨ (trimBlank line).head? = some 'c'

theorem content_cons_of_skipped {line : List Char} {lines : List (List Char)}
    (h : Skipped line) : content (line :: lines) = content lines := by
  rw [content, List.map_cons, List.filter_cons_of_neg]
  · rfl
  · rcases h with h | h
    · simp [h]
    · simp [h]

theorem content_cons_of_not_skipped {line : List Char} {lines : List (List Char)}
    (h : ¬ Skipped line) : content (line :: lines) = trimBlank line :: content lines := by
  rw [content, List.map_cons, List.filter_cons_of_pos]
  · rfl
  · exact decide_eq_true (not_or.mp h)

theorem mapM_decode_cons_iff {bytes : List UInt8} {rest : List (List UInt8)}
    {lines : List (List Char)} : (bytes :: rest).mapM decode = some lines ↔
      ∃ line more, lines = line :: more ∧ decode bytes = some line ∧
        rest.mapM decode = some more := by
  simp only [mapM_decode_eq_some_iff, decode_eq_some_iff, List.map_eq_cons_iff]

/-- Lines hold numbers that are literals over `n` variables or zero. -/
structure Body (n : Nat) (lines : List (List Char)) (values : List Int) : Prop where
  no_problem : ∀ line ∈ lines, line.head? ≠ some 'p'
  numbers : List.Forall₂ Number (lines.flatMap (words isGap)) values
  in_range : ∀ v ∈ values, v.natAbs ≤ n

theorem body_nil (n : Nat) {values : List Int} : Body n [] values ↔ values = [] := by
  constructor
  · intro h
    exact List.forall₂_nil_left_iff.mp h.numbers
  · rintro rfl
    exact ⟨by simp, .nil, by simp⟩

theorem forall₂_append_left_iff {α β : Type} {R : α → β → Prop} {xs xs' : List α} {ys : List β} :
    List.Forall₂ R (xs ++ xs') ys ↔
      ∃ first more, ys = first ++ more ∧ List.Forall₂ R xs first ∧ List.Forall₂ R xs' more := by
  induction xs generalizing ys with
  | nil => simp
  | cons x xs ih =>
    rw [List.cons_append, List.forall₂_cons_left_iff]
    constructor
    · rintro ⟨y, rest, hy, hrest, rfl⟩
      obtain ⟨first, more, rfl, hfirst, hmore⟩ := ih.mp hrest
      exact ⟨y :: first, more, rfl, .cons hy hfirst, hmore⟩
    · rintro ⟨first, more, rfl, hfirst, hmore⟩
      obtain ⟨y, rest, hy, hrest, rfl⟩ := List.forall₂_cons_left_iff.mp hfirst
      exact ⟨y, rest ++ more, hy, ih.mpr ⟨rest, more, rfl, hrest, hmore⟩, rfl⟩

theorem body_cons {n : Nat} {line : List Char} {lines : List (List Char)} {values : List Int} :
    Body n (line :: lines) values ↔ line.head? ≠ some 'p' ∧ ∃ first more, values = first ++ more ∧
      (List.Forall₂ Number (words isGap line) first ∧ ∀ v ∈ first, v.natAbs ≤ n) ∧
        Body n lines more := by
  constructor
  · rintro ⟨hno, hnumbers, hrange⟩
    rw [List.forall_mem_cons] at hno
    rw [List.flatMap_cons, forall₂_append_left_iff] at hnumbers
    obtain ⟨first, more, rfl, hfirst, hmore⟩ := hnumbers
    rw [List.forall_mem_append] at hrange
    exact ⟨hno.1, first, more, rfl, ⟨hfirst, hrange.1⟩, hno.2, hmore, hrange.2⟩
  · rintro ⟨hno, first, more, rfl, ⟨hfirst, hrange⟩, hbody⟩
    refine ⟨List.forall_mem_cons.mpr ⟨hno, hbody.no_problem⟩, ?_, ?_⟩
    · rw [List.flatMap_cons, forall₂_append_left_iff]
      exact ⟨first, more, rfl, hfirst, hbody.numbers⟩
    · exact List.forall_mem_append.mpr ⟨hrange, hbody.in_range⟩

/-! ## Lines of a body -/

/-- A line does not count, or holds numbers that are literals over `n` variables or zero. -/
def Holds (n : Nat) (line : List Char) (values : List Int) : Prop :=
  Skipped line ∧ values = [] ∨
    ¬ Skipped line ∧ (trimBlank line).head? ≠ some 'p' ∧
      List.Forall₂ Number (words isGap (trimBlank line)) values ∧ ∀ v ∈ values, v.natAbs ≤ n

theorem body_content_cons {n : Nat} {line : List Char} {lines : List (List Char)}
    {values : List Int} : Body n (content (line :: lines)) values ↔
      ∃ first more, values = first ++ more ∧ Holds n line first ∧ Body n (content lines) more := by
  by_cases hskip : Skipped line
  · rw [content_cons_of_skipped hskip]
    constructor
    · intro hbody
      exact ⟨[], values, rfl, Or.inl ⟨hskip, rfl⟩, hbody⟩
    · rintro ⟨first, more, rfl, ⟨-, rfl⟩ | ⟨hkept, -⟩, hbody⟩
      · exact hbody
      · exact absurd hskip hkept
  · rw [content_cons_of_not_skipped hskip, body_cons]
    constructor
    · rintro ⟨hp, first, more, rfl, hfirst, hbody⟩
      exact ⟨first, more, rfl, Or.inr ⟨hskip, hp, hfirst⟩, hbody⟩
    · rintro ⟨first, more, rfl, ⟨hskipped, -⟩ | ⟨-, hp, hfirst⟩, hbody⟩
      · exact absurd hskipped hskip
      · exact ⟨hp, first, more, rfl, hfirst, hbody⟩

section Line

variable {i : Nat} {line : List Char} {next : Announced} {values : List Int}
  (hline : '\n' ∉ line)

include hline

theorem readLine_announced_iff {n m : Nat} :
    readLine i (some (n, m)) (trimBlank line) = .ok (next, values) ↔
      next = some (n, m) ∧ Holds n line values := by
  by_cases hskip : Skipped line
  · rw [readLine_of_skipped i _ hskip, Except.ok.injEq, Prod.mk.injEq]
    constructor
    · rintro ⟨rfl, rfl⟩
      exact ⟨rfl, Or.inl ⟨hskip, rfl⟩⟩
    · rintro ⟨rfl, ⟨-, rfl⟩ | ⟨hkept, -⟩⟩
      · exact ⟨rfl, rfl⟩
      · exact absurd hskip hkept
  · obtain ⟨hne, hc⟩ := not_or.mp hskip
    by_cases hp : (trimBlank line).head? = some 'p'
    · rw [readLine_announce hp]
      constructor
      · rintro ⟨hnone, -⟩
        cases hnone
      · rintro ⟨-, ⟨hskipped, -⟩ | ⟨-, hnot, -⟩⟩
        · exact absurd hskipped hskip
        · exact absurd hp hnot
    · rw [readLine_values hne hc hp, words_trimBlank hline]
      constructor
      · rintro ⟨n', m', heq, rfl, hnumbers⟩
        cases heq
        exact ⟨rfl, Or.inr ⟨hskip, hp, hnumbers⟩⟩
      · rintro ⟨rfl, ⟨hskipped, -⟩ | ⟨-, -, hnumbers⟩⟩
        · exact absurd hskipped hskip
        · exact ⟨n, m, rfl, rfl, hnumbers⟩

theorem readLine_start_iff : readLine i none (trimBlank line) = .ok (next, values) ↔
    values = [] ∧ (Skipped line ∧ next = none ∨
      ¬ Skipped line ∧ ∃ n m, next = some (n, m) ∧ Announces n m (trimBlank line)) := by
  by_cases hskip : Skipped line
  · rw [readLine_of_skipped i _ hskip, Except.ok.injEq, Prod.mk.injEq]
    constructor
    · rintro ⟨rfl, rfl⟩
      exact ⟨rfl, Or.inl ⟨hskip, rfl⟩⟩
    · rintro ⟨rfl, ⟨-, rfl⟩ | ⟨hkept, -⟩⟩
      · exact ⟨rfl, rfl⟩
      · exact absurd hskip hkept
  · obtain ⟨hne, hc⟩ := not_or.mp hskip
    by_cases hp : (trimBlank line).head? = some 'p'
    · rw [readLine_announce hp, words_trimBlank hline]
      constructor
      · rintro ⟨-, rfl, n, m, rfl, hannounce⟩
        exact ⟨rfl, Or.inr ⟨hskip, n, m, rfl, hannounce⟩⟩
      · rintro ⟨rfl, ⟨hskipped, -⟩ | ⟨-, n, m, rfl, hannounce⟩⟩
        · exact absurd hskipped hskip
        · exact ⟨rfl, rfl, n, m, rfl, hannounce⟩
    · rw [readLine_values hne hc hp]
      constructor
      · rintro ⟨n, m, heq, -⟩
        cases heq
      · rintro ⟨rfl, ⟨hskipped, -⟩ | ⟨-, n, m, rfl, ⟨a, b, hproblem, -⟩, -⟩⟩
        · exact absurd hskipped hskip
        · -- the first word of a problem line begins with the letter p
          rw [← words_trimBlank hline, words_eq_cons_iff (head_trimBlank line)] at hproblem
          obtain ⟨-, hfirst, -⟩ := hproblem
          apply absurd _ hp
          rw [← firstWord_append_afterWord (p := isSpace) (trimBlank line), hfirst]
          rfl

end Line

/-! ## All lines -/

theorem not_lineFeed_of_decode {bytes : List UInt8} {line : List Char} (hlf : 10 ∉ bytes)
    (h : decode bytes = some line) : '\n' ∉ line := by
  intro hmem
  apply hlf
  rw [← decode_eq_some_iff.mp h]
  exact List.mem_flatMap.mpr ⟨'\n', hmem, by decide⟩

theorem readLines_announced_iff {n m i : Nat} {lines : List (List UInt8)}
    (hlf : ∀ bytes ∈ lines, 10 ∉ bytes) {announced : Announced} {values : List Int} :
    readLines i (some (n, m)) lines = .ok (announced, values) ↔
      announced = some (n, m) ∧
        ∃ texts, lines.mapM decode = some texts ∧ Body n (content texts) values := by
  induction lines generalizing i values with
  | nil =>
    rw [readLines, Except.ok.injEq, Prod.mk.injEq, List.mapM_nil]
    constructor
    · rintro ⟨rfl, rfl⟩
      exact ⟨rfl, [], rfl, (body_nil n).mpr rfl⟩
    · rintro ⟨rfl, texts, htexts, hbody⟩
      cases htexts
      exact ⟨rfl, ((body_nil n).mp hbody).symm⟩
  | cons bytes lines ih =>
    rw [List.forall_mem_cons] at hlf
    have ih := fun {i values} => @ih i hlf.2 values
    rw [readLines_cons_eq_ok_iff]
    constructor
    · rintro ⟨line, hline, next, first, more, hread, hmore, rfl⟩
      have hclean := not_lineFeed_of_decode hlf.1 hline
      obtain ⟨rfl, hholds⟩ := (readLine_announced_iff hclean).mp hread
      obtain ⟨rfl, texts, htexts, hbody⟩ := ih.mp hmore
      refine ⟨rfl, line :: texts, mapM_decode_cons_iff.mpr ⟨_, _, rfl, hline, htexts⟩, ?_⟩
      exact body_content_cons.mpr ⟨first, more, rfl, hholds, hbody⟩
    · rintro ⟨rfl, texts, htexts, hbody⟩
      obtain ⟨line, texts, rfl, hline, htexts⟩ := mapM_decode_cons_iff.mp htexts
      have hclean := not_lineFeed_of_decode hlf.1 hline
      obtain ⟨first, more, rfl, hholds, hbody⟩ := body_content_cons.mp hbody
      exact ⟨line, hline, some (n, m), first, more,
        (readLine_announced_iff hclean).mpr ⟨rfl, hholds⟩, ih.mpr ⟨rfl, texts, htexts, hbody⟩, rfl⟩

theorem readLines_start_iff {n m i : Nat} {lines : List (List UInt8)}
    (hlf : ∀ bytes ∈ lines, 10 ∉ bytes) {values : List Int} :
    readLines i none lines = .ok (some (n, m), values) ↔
      ∃ texts, lines.mapM decode = some texts ∧ ∃ problem rest,
        content texts = problem :: rest ∧ Announces n m problem ∧ Body n rest values := by
  induction lines generalizing i values with
  | nil =>
    rw [readLines, List.mapM_nil]
    constructor
    · intro h
      cases h
    · rintro ⟨texts, htexts, problem, rest, hcontent, -⟩
      cases htexts
      cases hcontent
  | cons bytes lines ih =>
    rw [List.forall_mem_cons] at hlf
    have ih := fun {i values} => @ih i hlf.2 values
    rw [readLines_cons_eq_ok_iff]
    constructor
    · rintro ⟨line, hline, next, first, more, hread, hmore, rfl⟩
      have hclean := not_lineFeed_of_decode hlf.1 hline
      obtain ⟨rfl, ⟨hskip, rfl⟩ | ⟨hkept, n', m', rfl, hannounce⟩⟩ :=
        (readLine_start_iff hclean).mp hread
      · obtain ⟨texts, htexts, hcontent⟩ := ih.mp hmore
        refine ⟨line :: texts, mapM_decode_cons_iff.mpr ⟨_, _, rfl, hline, htexts⟩, ?_⟩
        rw [content_cons_of_skipped hskip]
        exact hcontent
      · obtain ⟨heq, texts, htexts, hbody⟩ := (readLines_announced_iff hlf.2).mp hmore
        cases heq
        exact ⟨line :: texts, mapM_decode_cons_iff.mpr ⟨_, _, rfl, hline, htexts⟩,
          trimBlank line, content texts, content_cons_of_not_skipped hkept, hannounce, hbody⟩
    · rintro ⟨texts, htexts, problem, rest, hcontent, hannounce, hbody⟩
      obtain ⟨line, texts, rfl, hline, htexts⟩ := mapM_decode_cons_iff.mp htexts
      have hclean := not_lineFeed_of_decode hlf.1 hline
      refine ⟨line, hline, ?_⟩
      by_cases hskip : Skipped line
      · rw [content_cons_of_skipped hskip] at hcontent
        exact ⟨none, [], values, (readLine_start_iff hclean).mpr ⟨rfl, Or.inl ⟨hskip, rfl⟩⟩,
          ih.mpr ⟨texts, htexts, problem, rest, hcontent, hannounce, hbody⟩, rfl⟩
      · rw [content_cons_of_not_skipped hskip] at hcontent
        obtain ⟨rfl, rfl⟩ := List.cons.inj hcontent
        exact ⟨some (n, m), [], values,
          (readLine_start_iff hclean).mpr ⟨rfl, Or.inr ⟨hskip, n, m, rfl, hannounce⟩⟩,
          (readLines_announced_iff hlf.2).mpr ⟨rfl, texts, htexts, hbody⟩, rfl⟩

end Clausal.Dimacs
