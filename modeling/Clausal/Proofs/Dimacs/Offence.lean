import Clausal.Proofs.Dimacs.Combinator
import Clausal.Proofs.Dimacs.Stuck

/-!
# Errors point at the first offence

What is wrong with a line depends on the lines before it only through the problem line that they may
hold (`Offence`). If no line offends, the file as a whole can be unfinished (`Unfinished`). The reader
goes on until the first line that is refused, whatever follows (`readLines_eq_error_iff`), so that what
it has read up to there is settled by the lines (`Summary`). Then a line is refused for its offence
(`offence_of_readBytes`, `readBytes_of_offence`), and the whole for what is unfinished
(`unfinished_of_assemble`, `assemble_of_unfinished`).
-/

namespace Clausal.Dimacs

/-! ## Offences -/

/-- The text of a line without white space at its ends, if it is valid. -/
def trimmed? (bytes : List UInt8) : Option (List Char) :=
  (decode bytes).map trimBlank

/-- A line is meant to be a problem line. -/
def IsProblem (bytes : List UInt8) : Prop :=
  ∃ line, trimmed? bytes = some line ∧ line.head? = some 'p'

/-- A line is meant to hold numbers of clauses. -/
structure IsBody (line : List Char) : Prop where
  not_blank : line.head? ≠ none
  not_comment : line.head? ≠ some 'c'
  not_problem : line.head? ≠ some 'p'

/-- A line has the format of a problem line, with numbers that fit into a word. -/
def HasFormat (n m : Nat) (line : List Char) : Prop :=
  ∃ a b, words isGap line = [['p'], ['c', 'n', 'f'], a, b] ∧
    (Decimal n a ∧ n < wordSize) ∧ Decimal m b ∧ m < wordSize

/-- One of the lines announces `n` variables and `m` clauses. -/
def AnnouncedIn (lines : List (List UInt8)) (n m : Nat) : Prop :=
  ∃ bytes ∈ lines, ∃ line, trimmed? bytes = some line ∧ Announces n m line

/-- What is wrong with a line after some others. A word that is no number is worse than a number that
is no literal, wherever they are in the line. -/
inductive Offence (earlier : List (List UInt8)) (bytes : List UInt8) : Error → Prop
  | unreadable (h : decode bytes = none) : Offence earlier bytes (.unreadable .invalidUtf8)
  | duplicateProblemLine (h : IsProblem bytes) (hearlier : ∃ bytes ∈ earlier, IsProblem bytes) :
    Offence earlier bytes (.duplicateProblemLine (earlier.length + 1))
  | problemLine {line : List Char} (h : trimmed? bytes = some line) (hp : line.head? = some 'p')
    (hearlier : ¬ ∃ bytes ∈ earlier, IsProblem bytes) (hformat : ∀ n m, ¬ HasFormat n m line) :
    Offence earlier bytes (.problemLine (earlier.length + 1))
  | tooManyVariables {line : List Char} {n m : Nat} (h : trimmed? bytes = some line)
    (hearlier : ¬ ∃ bytes ∈ earlier, IsProblem bytes) (hformat : HasFormat n m line)
    (hlarge : maxVar < n) : Offence earlier bytes (.tooManyVariables n)
  | clauseBeforeProblemLine {line : List Char} (h : trimmed? bytes = some line) (hbody : IsBody line)
    (hearlier : ¬ ∃ bytes ∈ earlier, IsProblem bytes) :
    Offence earlier bytes (.clauseBeforeProblemLine (earlier.length + 1))
  | unreadableLiteral {line rest : List Char} {n m : Nat} (h : trimmed? bytes = some line)
    (hbody : IsBody line) (hannounced : AnnouncedIn earlier n m) (hstuck : StuckAt line rest) :
    Offence earlier bytes (.unreadableLiteral (earlier.length + 1) (String.ofList rest))
  | literalOutOfRange {line : List Char} {n m : Nat} {values : List Int} {value : Int}
    (h : trimmed? bytes = some line) (hbody : IsBody line) (hannounced : AnnouncedIn earlier n m)
    (hvalues : List.Forall₂ Number (words isGap line) values)
    (hfirst : values.find? (fun value => n < value.natAbs) = some value) :
    Offence earlier bytes (.literalOutOfRange (earlier.length + 1) value n)

/-- No line offends. -/
def Clean (lines : List (List UInt8)) : Prop :=
  ∀ earlier bytes later, lines = earlier ++ bytes :: later → ∀ e, ¬ Offence earlier bytes e

/-- The numbers in the lines that are meant to hold some. -/
def Holding (lines : List (List UInt8)) (values : List Int) : Prop :=
  ∃ texts, lines.mapM decode = some texts ∧ List.Forall₂ Number
    (((content texts).filter fun line => line.head? ≠ some 'p').flatMap (words isGap)) values

/-- What is wrong with a file in which no line offends. -/
inductive Unfinished (lines : List (List UInt8)) : Error → Prop
  | incompleteClause {values : List Int} (h : Holding lines values) (hne : values ≠ [])
    (hlast : values.getLast? ≠ some 0) : Unfinished lines .incompleteClause
  | missingProblemLine {values : List Int} (h : Holding lines values)
    (hended : values = [] ∨ values.getLast? = some 0)
    (hproblem : ¬ ∃ bytes ∈ lines, IsProblem bytes) : Unfinished lines .missingProblemLine
  | clauseCount {values : List Int} {n m : Nat} (h : Holding lines values)
    (hended : values = [] ∨ values.getLast? = some 0) (hannounced : AnnouncedIn lines n m)
    (hcount : values.count 0 ≠ m) : Unfinished lines (.clauseCount m (values.count 0))

/-- What is wrong with a file: its first line that offends, or else the file as a whole. -/
inductive Rejected (lines : List (List UInt8)) : Error → Prop
  | offence {earlier later : List (List UInt8)} {bytes : List UInt8} {e : Error}
    (h : lines = earlier ++ bytes :: later) (hclean : Clean earlier)
    (hoffence : Offence earlier bytes e) : Rejected lines e
  | unfinished {e : Error} (hclean : Clean lines) (h : Unfinished lines e) : Rejected lines e

/-! ## The first refusal -/

section Lines

variable {i : Nat} {announced announced' : Announced} {values : List Int}
  {earlier later lines : List (List UInt8)} {bytes : List UInt8} {e : Error}

theorem readLines_cons_eq_error_iff : readLines i announced (bytes :: later) = .error e ↔
    readBytes i announced bytes = .error e ∨ ∃ announced' values,
      readBytes i announced bytes = .ok (announced', values) ∧
        readLines (i + 1) announced' later = .error e := by
  rw [readLines]
  cases readBytes i announced bytes with
  | error e' => simp
  | ok result =>
    obtain ⟨announced', values⟩ := result
    simp [Except.map_eq_error_iff]

/-- Several lines are refused for the first one that is. -/
theorem readLines_eq_error_iff : readLines i announced lines = .error e ↔
    ∃ earlier bytes later announced' values, lines = earlier ++ bytes :: later ∧
      readLines i announced earlier = .ok (announced', values) ∧
        readBytes (i + earlier.length) announced' bytes = .error e := by
  induction lines generalizing i announced with
  | nil =>
    constructor
    · intro h
      cases h
    · rintro ⟨earlier, bytes, later, -, -, h, -⟩
      cases List.append_eq_nil_iff.mp h.symm with
      | intro _ hcons => cases hcons
  | cons first lines ih =>
    rw [readLines_cons_eq_error_iff]
    constructor
    · rintro (h | ⟨next, values, hfirst, h⟩)
      · exact ⟨[], first, lines, announced, [], rfl, rfl, h⟩
      · obtain ⟨earlier, bytes, later, announced', more, rfl, hread, hbytes⟩ := ih.mp h
        refine ⟨first :: earlier, bytes, later, announced', values ++ more, rfl, ?_, ?_⟩
        · obtain ⟨line, hline, hfirst⟩ := readBytes_eq_ok_iff.mp hfirst
          exact readLines_cons_eq_ok_iff.mpr
            ⟨line, hline, next, values, more, hfirst, hread, rfl⟩
        · rwa [List.length_cons, ← Nat.add_assoc, Nat.add_right_comm]
    · rintro ⟨earlier, bytes, later, announced', values, hlines, hread, hbytes⟩
      cases earlier with
      | nil =>
        cases hlines
        cases hread
        exact Or.inl hbytes
      | cons _ earlier =>
        cases hlines
        obtain ⟨line, hline, next, values, more, hfirst, hread, -⟩ :=
          readLines_cons_eq_ok_iff.mp hread
        refine Or.inr ⟨next, values, readBytes_eq_ok_iff.mpr ⟨line, hline, hfirst⟩,
          ih.mpr ⟨earlier, bytes, later, announced', more, rfl, hread, ?_⟩⟩
        rwa [List.length_cons, ← Nat.add_assoc, Nat.add_right_comm] at hbytes

end Lines

/-! ## What the lines before settle -/

/-- What has been read from some lines is what they say. -/
structure Summary (lines : List (List UInt8)) (announced : Announced) (values : List Int) : Prop where
  announced_iff : ∀ n m, announced = some (n, m) ↔ AnnouncedIn lines n m
  isSome_iff : announced.isSome = true ↔ ∃ bytes ∈ lines, IsProblem bytes
  holding : Holding lines values

theorem trimmed?_eq_some_iff {bytes : List UInt8} {line : List Char} :
    trimmed? bytes = some line ↔ ∃ text, decode bytes = some text ∧ trimBlank text = line :=
  Option.map_eq_some_iff

theorem mem_content_iff {lines : List (List UInt8)} {texts : List (List Char)}
    (h : lines.mapM decode = some texts) {line : List Char} : line ∈ content texts ↔
      (∃ bytes ∈ lines, trimmed? bytes = some line) ∧ line.head? ≠ none ∧ line.head? ≠ some 'c' := by
  have hmem : (∃ text ∈ texts, trimBlank text = line) ↔
      ∃ bytes ∈ lines, trimmed? bytes = some line := by
    rw [← mapM_decode_eq_some_iff.mp h]
    simp only [trimmed?_eq_some_iff, decode_eq_some_iff, List.mem_map]
    constructor
    · rintro ⟨text, htext, rfl⟩
      exact ⟨_, ⟨text, htext, rfl⟩, text, rfl, rfl⟩
    · rintro ⟨_, ⟨text, htext, rfl⟩, text', hencode, rfl⟩
      cases encode_injective hencode
      exact ⟨text, htext, rfl⟩
  rw [content, List.mem_filter, List.mem_map, decide_eq_true_iff, hmem]

theorem head_of_words {bytes : List UInt8} {line word : List Char} {rest : List (List Char)}
    (hline : trimmed? bytes = some line) (h : words isGap line = word :: rest) :
    line.head? = word.head? := by
  obtain ⟨text, -, rfl⟩ := trimmed?_eq_some_iff.mp hline
  exact head?_of_words_eq_cons (head_trimBlank_isGap text) h

theorem Announces.head {n m : Nat} {bytes : List UInt8} {line : List Char} (h : Announces n m line)
    (hline : trimmed? bytes = some line) : line.head? = some 'p' := by
  obtain ⟨⟨a, b, hwords, -⟩, -⟩ := h
  exact head_of_words hline hwords

theorem Announces.unique {n m n' m' : Nat} {line : List Char} (h : Announces n m line)
    (h' : Announces n' m' line) : n = n' ∧ m = m' := by
  obtain ⟨⟨a, b, hwords, hn, hm⟩, -⟩ := h
  obtain ⟨⟨a', b', hwords', hn', hm'⟩, -⟩ := h'
  rw [hwords] at hwords'
  cases hwords'
  exact ⟨hn.unique hn', hm.unique hm'⟩

theorem readLines_unannounced {i : Nat} {lines : List (List UInt8)}
    (hlf : ∀ bytes ∈ lines, 10 ∉ bytes) {values : List Int}
    (h : readLines i none lines = .ok (none, values)) :
    values = [] ∧ ∃ texts, lines.mapM decode = some texts ∧ content texts = [] := by
  induction lines generalizing i values with
  | nil =>
    cases h
    exact ⟨rfl, [], rfl, rfl⟩
  | cons bytes lines ih =>
    rw [List.forall_mem_cons] at hlf
    obtain ⟨line, hline, next, first, more, hread, hmore, rfl⟩ := readLines_cons_eq_ok_iff.mp h
    obtain ⟨rfl, ⟨hskip, rfl⟩ | ⟨-, n, m, rfl, -⟩⟩ :=
      (readLine_start_iff (not_lineFeed_of_decode hlf.1 hline)).mp hread
    · obtain ⟨rfl, texts, htexts, hcontent⟩ := ih hlf.2 hmore
      refine ⟨rfl, line :: texts, mapM_decode_cons_iff.mpr ⟨_, _, rfl, hline, htexts⟩, ?_⟩
      rw [content_cons_of_skipped hskip, hcontent]
    · obtain ⟨hnone, -⟩ := (readLines_announced_iff hlf.2).mp hmore
      cases hnone

theorem summary_of_readLines {lines : List (List UInt8)} (hlf : ∀ bytes ∈ lines, 10 ∉ bytes)
    {i : Nat} {announced : Announced} {values : List Int}
    (h : readLines i none lines = .ok (announced, values)) : Summary lines announced values := by
  have hmem : ∀ {texts}, lines.mapM decode = some texts → ∀ {bytes line}, bytes ∈ lines →
      trimmed? bytes = some line → line.head? = some 'p' → line ∈ content texts := by
    intro texts htexts bytes line hbytes hline hp
    rw [mem_content_iff htexts, hp]
    exact ⟨⟨bytes, hbytes, hline⟩, by decide, by decide⟩
  cases announced with
  | none =>
    obtain ⟨rfl, texts, htexts, hcontent⟩ := readLines_unannounced hlf h
    have hno : ¬ ∃ bytes ∈ lines, IsProblem bytes := by
      rintro ⟨bytes, hbytes, line, hline, hp⟩
      have hline := hmem htexts hbytes hline hp
      rw [hcontent] at hline
      cases hline
    refine ⟨fun n m => ⟨nofun, ?_⟩, ⟨nofun, fun hproblem => absurd hproblem hno⟩, texts, htexts, ?_⟩
    · rintro ⟨bytes, hbytes, line, hline, hannounces⟩
      exact absurd ⟨bytes, hbytes, line, hline, hannounces.head hline⟩ hno
    · rw [hcontent]
      exact .nil
  | some numbers =>
    obtain ⟨n, m⟩ := numbers
    obtain ⟨texts, htexts, problem, rest, hcontent, hannounces, hbody⟩ :=
      (readLines_start_iff hlf).mp h
    obtain ⟨⟨bytes, hbytes, hproblem⟩, -⟩ :=
      (mem_content_iff htexts).mp (hcontent ▸ List.mem_cons_self)
    have hp : problem.head? = some 'p' := hannounces.head hproblem
    refine ⟨fun n' m' => ⟨?_, ?_⟩, ⟨fun _ => ⟨bytes, hbytes, problem, hproblem, hp⟩, fun _ => rfl⟩,
      texts, htexts, ?_⟩
    · rintro ⟨⟩
      exact ⟨bytes, hbytes, problem, hproblem, hannounces⟩
    · rintro ⟨bytes', hbytes', line, hline, hannounces'⟩
      have hp' : line.head? = some 'p' := hannounces'.head hline
      have hcounts := hmem htexts hbytes' hline hp'
      rw [hcontent] at hcounts
      rcases List.mem_cons.mp hcounts with rfl | hrest
      · obtain ⟨rfl, rfl⟩ := hannounces.unique hannounces'
        rfl
      · exact absurd hp' (hbody.no_problem line hrest)
    · have hkept : (problem :: rest).filter (fun line => line.head? ≠ some 'p') = rest := by
        rw [List.filter_cons_of_neg (by simpa using hp), List.filter_eq_self]
        intro line hline
        simpa using hbody.no_problem line hline
      rw [hcontent, hkept]
      exact hbody.numbers

/-! ## What is wrong with a line -/

theorem readBytes_eq {i : Nat} {announced : Announced} {bytes : List UInt8} :
    readBytes i announced bytes =
      match trimmed? bytes with
      | none => .error (.unreadable .invalidUtf8)
      | some line => readLine i announced line := by
  rw [readBytes, trimmed?, decode]
  cases String.fromUTF8? ⟨bytes.toArray⟩ with
  | none => rfl
  | some text => rfl

theorem trimmed?_eq_none_iff {bytes : List UInt8} : trimmed? bytes = none ↔ decode bytes = none :=
  Option.map_eq_none_iff

theorem checkValues_eq_error_iff {i n : Nat} {values : List Int} {e : Error} :
    checkValues i n values = .error e ↔
      ∃ value, values.find? (fun value => n < value.natAbs) = some value ∧
        e = .literalOutOfRange i value n := by
  rw [checkValues]
  cases values.find? fun value => n < value.natAbs with
  | none => simp
  | some value => simp [eq_comm]

section Line

variable {earlier : List (List UInt8)} {bytes : List UInt8} {announced : Announced}
  {values : List Int} {line : List Char} {e : Error}

theorem readProblemLine?_eq_some_iff_hasFormat (hlf : 10 ∉ bytes) (hline : trimmed? bytes = some line)
    {n m : Nat} : readProblemLine? line = some (n, m) ↔ HasFormat n m line := by
  obtain ⟨text, htext, rfl⟩ := trimmed?_eq_some_iff.mp hline
  rw [readProblemLine?_eq_some_iff (head_trimBlank text), HasFormat,
    words_trimBlank (not_lineFeed_of_decode hlf htext)]

theorem readValues_eq_ok_iff_isGap (hlf : 10 ∉ bytes) (hline : trimmed? bytes = some line) :
    readValues line = .ok values ↔ List.Forall₂ Number (words isGap line) values := by
  obtain ⟨text, htext, rfl⟩ := trimmed?_eq_some_iff.mp hline
  rw [readValues_eq_ok_iff, words_trimBlank (not_lineFeed_of_decode hlf htext)]

theorem HasFormat.head {n m : Nat} (h : HasFormat n m line) (hline : trimmed? bytes = some line) :
    line.head? = some 'p' := by
  obtain ⟨a, b, hwords, -⟩ := h
  exact head_of_words hline hwords

variable (hsummary : Summary earlier announced values) (hlf : 10 ∉ bytes)

include hsummary hlf

theorem offence_of_problem (hline : trimmed? bytes = some line) (hp : line.head? = some 'p')
    (h : readLine (earlier.length + 1) announced line = .error e) : Offence earlier bytes e := by
  rw [readLine_of_problem _ _ hp] at h
  split_ifs at h with hannounced
  · cases h
    exact .duplicateProblemLine ⟨line, hline, hp⟩ (hsummary.isSome_iff.mp hannounced)
  · rw [hsummary.isSome_iff] at hannounced
    have hformat := @readProblemLine?_eq_some_iff_hasFormat _ _ hlf hline
    cases hread : readProblemLine? line with
    | none =>
      rw [hread] at h
      cases h
      refine .problemLine hline hp hannounced fun n m hnm => ?_
      rw [← hformat, hread] at hnm
      cases hnm
    | some numbers =>
      obtain ⟨n, m⟩ := numbers
      rw [hread] at h
      dsimp only at h
      split_ifs at h with hlarge
      cases h
      exact .tooManyVariables hline hannounced (hformat.mp hread) hlarge

theorem offence_of_body (hline : trimmed? bytes = some line) (hbody : IsBody line)
    (h : readLine (earlier.length + 1) announced line = .error e) : Offence earlier bytes e := by
  rw [readLine_of_values _ _ hbody.not_blank hbody.not_comment hbody.not_problem] at h
  cases hannounced : announced with
  | none =>
    have hno : ¬ ∃ bytes ∈ earlier, IsProblem bytes := by
      rw [← hsummary.isSome_iff, hannounced]
      exact Bool.false_ne_true
    rw [hannounced] at h
    cases h
    exact .clauseBeforeProblemLine hline hbody hno
  | some numbers =>
    obtain ⟨n, m⟩ := numbers
    have hin := (hsummary.announced_iff n m).mp hannounced
    rw [hannounced] at h
    dsimp only at h
    cases hread : readValues line with
    | error rest =>
      rw [hread] at h
      cases h
      exact .unreadableLiteral hline hbody hin (readValues_eq_error_iff.mp hread)
    | ok more =>
      rw [hread] at h
      obtain ⟨value, hfirst, rfl⟩ := checkValues_eq_error_iff.mp (Except.map_eq_error_iff.mp h)
      have hnumbers := (readValues_eq_ok_iff_isGap hlf hline).mp hread
      exact .literalOutOfRange hline hbody hin hnumbers hfirst

theorem offence_of_readBytes (h : readBytes (earlier.length + 1) announced bytes = .error e) :
    Offence earlier bytes e := by
  rw [readBytes_eq] at h
  cases hline : trimmed? bytes with
  | none =>
    rw [hline] at h
    cases h
    exact .unreadable (trimmed?_eq_none_iff.mp hline)
  | some line =>
    rw [hline] at h
    dsimp only at h
    by_cases hskip : line.head? = none ∨ line.head? = some 'c'
    · rw [readLine_of_skipped _ _ hskip] at h
      cases h
    · obtain ⟨hne, hc⟩ := not_or.mp hskip
      by_cases hp : line.head? = some 'p'
      · exact offence_of_problem hsummary hlf hline hp h
      · exact offence_of_body hsummary hlf hline ⟨hne, hc, hp⟩ h

theorem readBytes_of_offence (h : Offence earlier bytes e) :
    readBytes (earlier.length + 1) announced bytes = .error e := by
  have hnone : (¬ ∃ bytes ∈ earlier, IsProblem bytes) → announced = none := by
    rw [← hsummary.isSome_iff]
    simp
  have hvalues {line : List Char} (hbody : IsBody line) :=
    readLine_of_values (earlier.length + 1) announced hbody.not_blank hbody.not_comment
      hbody.not_problem
  rw [readBytes_eq]
  cases h with
  | unreadable h => rw [trimmed?_eq_none_iff.mpr h]
  | duplicateProblemLine h hearlier =>
    obtain ⟨line, hline, hp⟩ := h
    rw [hline]
    dsimp only
    rw [readLine_of_problem _ _ hp, if_pos (hsummary.isSome_iff.mpr hearlier)]
  | @problemLine line hline hp hearlier hformat =>
    have hread : readProblemLine? line = none := by
      rw [Option.eq_none_iff_forall_ne_some]
      rintro ⟨n, m⟩ hread
      exact hformat n m ((readProblemLine?_eq_some_iff_hasFormat hlf hline).mp hread)
    rw [hline]
    dsimp only
    rw [readLine_of_problem _ _ hp, hnone hearlier, hread]
    rfl
  | @tooManyVariables line n m hline hearlier hformat hlarge =>
    have hread := (readProblemLine?_eq_some_iff_hasFormat hlf hline).mpr hformat
    rw [hline]
    dsimp only
    rw [readLine_of_problem _ _ (hformat.head hline), hnone hearlier, hread]
    exact if_pos hlarge
  | clauseBeforeProblemLine hline hbody hearlier =>
    rw [hline]
    dsimp only
    rw [hvalues hbody, hnone hearlier]
  | @unreadableLiteral line rest n m hline hbody hannounced hstuck =>
    rw [hline]
    dsimp only
    rw [hvalues hbody, (hsummary.announced_iff n m).mpr hannounced,
      readValues_eq_error_iff.mpr hstuck]
  | @literalOutOfRange line n m values value hline hbody hannounced hnumbers hfirst =>
    have hread := (readValues_eq_ok_iff_isGap hlf hline).mpr hnumbers
    rw [hline]
    dsimp only
    rw [hvalues hbody, (hsummary.announced_iff n m).mpr hannounced, hread]
    dsimp only
    rw [checkValues_eq_error_iff.mpr ⟨value, hfirst, rfl⟩]
    rfl

end Line

/-! ## What is wrong with a file -/

theorem exists_ok_of_append {i : Nat} {announced : Announced} {earlier later : List (List UInt8)}
    (h : ∃ result, readLines i announced (earlier ++ later) = .ok result) :
    ∃ result, readLines i announced earlier = .ok result := by
  by_contra hno
  obtain ⟨e, he⟩ := Except.exists_error_iff.mpr hno
  obtain ⟨before, bytes, after, announced', values, rfl, hread, hbytes⟩ :=
    readLines_eq_error_iff.mp he
  refine Except.exists_error_iff.mp ⟨e, readLines_eq_error_iff.mpr ?_⟩ h
  exact ⟨before, bytes, after ++ later, announced', values, by simp, hread, hbytes⟩

section File

variable {lines : List (List UInt8)} (hlf : ∀ bytes ∈ lines, 10 ∉ bytes)

include hlf

/-- A file is refused while it is read exactly for its first offence. -/
theorem readLines_eq_error_iff_offence {e : Error} : readLines 1 none lines = .error e ↔
    ∃ earlier bytes later, lines = earlier ++ bytes :: later ∧
      (∃ result, readLines 1 none earlier = .ok result) ∧ Offence earlier bytes e := by
  rw [readLines_eq_error_iff]
  constructor
  · rintro ⟨earlier, bytes, later, announced, values, rfl, hread, hbytes⟩
    rw [List.forall_mem_append, List.forall_mem_cons] at hlf
    rw [Nat.add_comm] at hbytes
    exact ⟨earlier, bytes, later, rfl, ⟨_, hread⟩,
      offence_of_readBytes (summary_of_readLines hlf.1 hread) hlf.2.1 hbytes⟩
  · rintro ⟨earlier, bytes, later, rfl, ⟨⟨announced, values⟩, hread⟩, hoffence⟩
    rw [List.forall_mem_append, List.forall_mem_cons] at hlf
    refine ⟨earlier, bytes, later, announced, values, rfl, hread, ?_⟩
    rw [Nat.add_comm]
    exact readBytes_of_offence (summary_of_readLines hlf.1 hread) hlf.2.1 hoffence

theorem clean_iff : Clean lines ↔ ∃ result, readLines 1 none lines = .ok result := by
  constructor
  · intro hclean
    by_contra hno
    obtain ⟨e, he⟩ := Except.exists_error_iff.mpr hno
    obtain ⟨earlier, bytes, later, hlines, -, hoffence⟩ :=
      (readLines_eq_error_iff_offence hlf).mp he
    exact hclean earlier bytes later hlines e hoffence
  · rintro hread earlier bytes later rfl e hoffence
    refine Except.exists_error_iff.mp ⟨e, (readLines_eq_error_iff_offence hlf).mpr ?_⟩ hread
    exact ⟨earlier, bytes, later, rfl, exists_ok_of_append hread, hoffence⟩

end File

theorem Holding.unique {lines : List (List UInt8)} {values values' : List Int}
    (h : Holding lines values) (h' : Holding lines values') : values = values' := by
  obtain ⟨texts, htexts, hvalues⟩ := h
  obtain ⟨texts', htexts', hvalues'⟩ := h'
  cases htexts.symm.trans htexts'
  have hunique : Relator.RightUnique Number := fun _ _ _ => Number.unique
  exact hunique.forall₂ hvalues hvalues'

section End

variable {lines : List (List UInt8)} {announced : Announced} {values : List Int} {e : Error}
  (hsummary : Summary lines announced values)

include hsummary

theorem unfinished_of_assemble (h : assemble announced values = .error e) : Unfinished lines e := by
  have hpending := pending_eq_nil_iff values
  have hlength := length_splitClauses values
  rw [assemble] at h
  rcases hsplit : splitClauses values with ⟨clauses, pending⟩
  rw [hsplit] at h hpending hlength
  dsimp only at h hpending hlength
  split_ifs at h with hne
  · cases h
    have hends : ¬ (values = [] ∨ values.getLast? = some 0) := by
      rw [← hpending]
      simpa using hne
    obtain ⟨hvalues, hlast⟩ := not_or.mp hends
    exact .incompleteClause hsummary.holding hvalues hlast
  · have hended : values = [] ∨ values.getLast? = some 0 := by
      rw [← hpending]
      simpa using hne
    cases hannounced : announced with
    | none =>
      rw [hannounced] at h
      cases h
      refine .missingProblemLine hsummary.holding hended ?_
      rw [← hsummary.isSome_iff, hannounced]
      exact Bool.false_ne_true
    | some numbers =>
      obtain ⟨n, m⟩ := numbers
      rw [hannounced] at h
      dsimp only at h
      split_ifs at h with hcount
      cases h
      rw [hlength] at hcount ⊢
      exact .clauseCount hsummary.holding hended ((hsummary.announced_iff n m).mp hannounced) hcount

theorem assemble_of_unfinished (h : Unfinished lines e) : assemble announced values = .error e := by
  have hpending := pending_eq_nil_iff values
  have hlength := length_splitClauses values
  rw [assemble]
  rcases hsplit : splitClauses values with ⟨clauses, pending⟩
  rw [hsplit] at hpending hlength
  dsimp only at hpending hlength ⊢
  cases h with
  | incompleteClause h hne hlast =>
    cases hsummary.holding.unique h
    have hpend : pending ≠ [] := by
      rw [Ne, hpending, not_or]
      exact ⟨hne, hlast⟩
    rw [if_pos (by simpa using hpend)]
  | missingProblemLine h hended hproblem =>
    cases hsummary.holding.unique h
    have hnone : announced = none := by
      rw [← hsummary.isSome_iff] at hproblem
      simpa using hproblem
    rw [hpending.mpr hended, hnone]
    rfl
  | @clauseCount values' n m h hended hannounced hcount =>
    cases hsummary.holding.unique h
    rw [hpending.mpr hended, (hsummary.announced_iff n m).mpr hannounced, ← hlength]
    rw [← hlength] at hcount
    exact if_neg hcount

end End

theorem parse_eq_error_iff {bytes : ByteArray} {e : Error} :
    parse bytes = .error e ↔ Rejected (bytes.data.toList.splitOn 10) e := by
  have hlf : ∀ line ∈ bytes.data.toList.splitOn 10, 10 ∉ line :=
    fun line hline => not_mem_of_mem_splitOn hline
  rw [parse, splitLines_eq_splitOn]
  generalize bytes.data.toList.splitOn 10 = lines at hlf
  constructor
  · intro h
    cases hread : readLines 1 none lines with
    | error e' =>
      rw [hread] at h
      cases h
      obtain ⟨earlier, line, later, rfl, hearlier, hoffence⟩ :=
        (readLines_eq_error_iff_offence hlf).mp hread
      exact .offence rfl ((clean_iff (List.forall_mem_append.mp hlf).1).mpr hearlier) hoffence
    | ok result =>
      rw [hread] at h
      exact .unfinished ((clean_iff hlf).mpr ⟨_, hread⟩)
        (unfinished_of_assemble (summary_of_readLines hlf hread) h)
  · rintro (⟨rfl, hclean, hoffence⟩ | ⟨hclean, h⟩)
    · have hearlier := (clean_iff (List.forall_mem_append.mp hlf).1).mp hclean
      rw [(readLines_eq_error_iff_offence hlf).mpr ⟨_, _, _, rfl, hearlier, hoffence⟩]
    · obtain ⟨⟨announced, values⟩, hread⟩ := (clean_iff hlf).mp hclean
      rw [hread]
      exact assemble_of_unfinished (summary_of_readLines hlf hread) h

/-- **Errors point at the first offence.** A file is refused exactly for its first line that offends,
whatever follows, and if there is none for what is unfinished in the end. Read with small parsers
that have errors of their own, it is refused for the same: none of these errors is left. -/
theorem parse_points_at_first_offence :
    (∀ (bytes : ByteArray) (e : Error),
      parse bytes = .error e ↔ Rejected (bytes.data.toList.splitOn 10) e) ∧
    (∀ (earlier : List (List UInt8)) (line : List UInt8) (e : Error),
      Clean earlier → Offence earlier line e →
        ∀ (bytes : ByteArray) (later : List (List UInt8)),
          bytes.data.toList.splitOn 10 = earlier ++ line :: later → parse bytes = .error e) ∧
    ∀ bytes : ByteArray, Combinator.parse bytes = (parse bytes).mapError .known := by
  refine ⟨fun bytes e => parse_eq_error_iff, ?_, Combinator.parse_eq⟩
  intro earlier line e hclean hoffence bytes later hlines
  exact parse_eq_error_iff.mpr (.offence hlines hclean hoffence)

/-- A word that is no number, after a number that is no literal. The lines after it are not even
valid. -/
theorem parse_points_at_first_offence_word :
    let earlier : List (List UInt8) := ["c", "p cnf 2 1", ""].map fun s => encode s.toList
    let line : List UInt8 := encode "1 -3 2x 0".toList
    let bytes : ByteArray := "c\np cnf 2 1\n\n1 -3 2x 0\np\n".toByteArray.push 255
    Clean earlier ∧ Offence earlier line (.unreadableLiteral 4 "x 0") ∧
      bytes.data.toList.splitOn 10 = earlier ++ line :: [encode "p".toList, [255]] ∧
      parse bytes = .error (.unreadableLiteral 4 "x 0") ∧
      Combinator.parse bytes = .error (.known (.unreadableLiteral 4 "x 0")) := by
  intro earlier line bytes
  have hlf : ∀ bytes ∈ earlier, 10 ∉ bytes := by decide
  have hread : readLines 1 none earlier = .ok (some (2, 1), []) := by decide +kernel
  have hclean : Clean earlier := (clean_iff hlf).mpr ⟨_, hread⟩
  have hstuck : readValues "1 -3 2x 0".toList = .error "x 0".toList := by decide +kernel
  have hline : trimmed? line = some "1 -3 2x 0".toList := by decide +kernel
  have hbody : IsBody "1 -3 2x 0".toList := ⟨by decide, by decide, by decide⟩
  have hannounced : AnnouncedIn earlier 2 1 :=
    ((summary_of_readLines hlf hread).announced_iff 2 1).mp rfl
  have hoffence := Offence.unreadableLiteral hline hbody hannounced
    (readValues_eq_error_iff.mp hstuck)
  have hsplit : bytes.data.toList.splitOn 10 = earlier ++ line :: [encode "p".toList, [255]] := by
    decide +kernel
  have hparse := parse_points_at_first_offence.2.1 earlier line _ hclean hoffence bytes _ hsplit
  refine ⟨hclean, hoffence, hsplit, hparse, ?_⟩
  rw [parse_points_at_first_offence.2.2, hparse]
  rfl

end Clausal.Dimacs
