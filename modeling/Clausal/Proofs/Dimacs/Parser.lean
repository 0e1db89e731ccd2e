import Clausal.Proofs.Dimacs.Format

/-!
# The reader accepts exactly the format of DIMACS files

The numbers of a file are cut at its zeros (`splitClauses_append`), and what the reader returns is
what the text of the file describes (`parse_eq_ok_iff`). So nothing matters but the numbers of the
problem line and the sequence of the numbers after it.
-/

namespace Clausal.Dimacs

/-! ## Clauses -/

theorem toDimacs_literalOf (value : Int) : (literalOf value).toDimacs = value := by
  rw [literalOf, Lit.toDimacs]
  by_cases hneg : value < 0
  · rw [if_pos (decide_eq_true hneg)]
    show -(value.natAbs : Int) = value
    omega
  · rw [if_neg (by simpa using hneg)]
    show (value.natAbs : Int) = value
    omega

theorem literalOf_toDimacs {l : Lit} (h : l.toDimacs ≠ 0) : literalOf l.toDimacs = l := by
  obtain ⟨var, negated⟩ := l
  cases negated with
  | false =>
    rw [literalOf, Lit.toDimacs, if_neg Bool.false_ne_true]
    simp
  | true =>
    rw [Lit.toDimacs, if_pos rfl] at h ⊢
    have hpos : 0 < var := by
      dsimp only at h
      omega
    simp [literalOf, hpos]

theorem natAbs_toDimacs (l : Lit) : l.toDimacs.natAbs = l.var := by
  rw [Lit.toDimacs]
  split_ifs
  · exact (Int.natAbs_neg _).trans (Int.natAbs_natCast _)
  · exact Int.natAbs_natCast _

section Cons

variable {value : Int} {values : List Int} {clauses : List Clause} {pending : Clause}
  (h : splitClauses values = (clauses, pending))

include h

theorem splitClauses_zero : splitClauses (0 :: values) = ([] :: clauses, pending) := by
  rw [splitClauses, h]
  rfl

theorem splitClauses_of_nil (hvalue : value ≠ 0) (hclauses : clauses = []) :
    splitClauses (value :: values) = ([], literalOf value :: pending) := by
  subst hclauses
  rw [splitClauses, h]
  exact if_neg hvalue

theorem splitClauses_of_cons (hvalue : value ≠ 0) {c : Clause} {rest : List Clause}
    (hclauses : clauses = c :: rest) :
    splitClauses (value :: values) = ((literalOf value :: c) :: rest, pending) := by
  subst hclauses
  rw [splitClauses, h]
  exact if_neg hvalue

end Cons

theorem splitClauses_concat_zero (values : List Int) : splitClauses (values ++ [0]) =
    ((splitClauses values).1 ++ [(splitClauses values).2], []) := by
  induction values with
  | nil => exact splitClauses_zero rfl
  | cons value values ih =>
    rcases hrest : splitClauses values with ⟨clauses, pending⟩
    rw [hrest] at ih
    rw [List.cons_append]
    by_cases hzero : value = 0
    · rw [hzero, splitClauses_zero ih, splitClauses_zero hrest]
      rfl
    · cases clauses with
      | nil =>
        rw [splitClauses_of_cons ih hzero rfl, splitClauses_of_nil hrest hzero rfl]
        rfl
      | cons c clauses =>
        rw [splitClauses_of_cons ih hzero rfl, splitClauses_of_cons hrest hzero rfl]
        rfl

theorem splitClauses_concat {last : Int} (hlast : last ≠ 0) (values : List Int) :
    splitClauses (values ++ [last]) =
      ((splitClauses values).1, (splitClauses values).2 ++ [literalOf last]) := by
  induction values with
  | nil => exact splitClauses_of_nil rfl hlast rfl
  | cons value values ih =>
    rcases hrest : splitClauses values with ⟨clauses, pending⟩
    rw [hrest] at ih
    rw [List.cons_append]
    by_cases hzero : value = 0
    · rw [hzero, splitClauses_zero ih, splitClauses_zero hrest]
    · cases clauses with
      | nil =>
        rw [splitClauses_of_nil ih hzero rfl, splitClauses_of_nil hrest hzero rfl]
        rfl
      | cons c clauses =>
        rw [splitClauses_of_cons ih hzero rfl, splitClauses_of_cons hrest hzero rfl]

/-- The clauses and the pending literals are the segments between the zeros. -/
theorem splitClauses_append (values : List Int) :
    (splitClauses values).1 ++ [(splitClauses values).2] =
      (values.splitOn 0).map (List.map literalOf) := by
  induction values with
  | nil => rfl
  | cons value values ih =>
    rcases hrest : splitClauses values with ⟨clauses, pending⟩
    rw [hrest] at ih
    rw [List.splitOn_cons_eq_if_modifyHead]
    by_cases hzero : value = 0
    · rw [if_pos (beq_iff_eq.mpr hzero), List.map_cons, ← ih, hzero, splitClauses_zero hrest]
      rfl
    · obtain ⟨segment, segments, hsplit⟩ :=
        List.exists_cons_of_ne_nil (List.splitOn_ne_nil 0 values)
      rw [hsplit, List.map_cons] at ih
      rw [if_neg (mt beq_iff_eq.mp hzero), hsplit, List.modifyHead_cons, List.map_cons,
        List.map_cons]
      cases clauses with
      | nil =>
        obtain ⟨rfl, hsegments⟩ := List.cons.inj ih
        rw [splitClauses_of_nil hrest hzero rfl, ← hsegments]
        rfl
      | cons c clauses =>
        obtain ⟨rfl, hsegments⟩ := List.cons.inj ih
        rw [splitClauses_of_cons hrest hzero rfl, ← hsegments]
        rfl

theorem length_splitClauses (values : List Int) :
    (splitClauses values).1.length = values.count 0 := by
  induction values with
  | nil => rfl
  | cons value values ih =>
    rcases hrest : splitClauses values with ⟨clauses, pending⟩
    rw [hrest] at ih
    by_cases hzero : value = 0
    · rw [hzero, List.count_cons_self, ← ih, splitClauses_zero hrest, List.length_cons]
    · rw [List.count_cons_of_ne hzero, ← ih]
      cases clauses with
      | nil => rw [splitClauses_of_nil hrest hzero rfl]
      | cons c clauses =>
        rw [splitClauses_of_cons hrest hzero rfl]
        rfl

theorem pending_eq_nil_iff (values : List Int) :
    (splitClauses values).2 = [] ↔ values = [] ∨ values.getLast? = some 0 := by
  induction values with
  | nil => simp [splitClauses]
  | cons value values ih =>
    have hlength := length_splitClauses values
    rcases hrest : splitClauses values with ⟨clauses, pending⟩
    rw [hrest] at ih hlength
    by_cases hzero : value = 0
    · rw [hzero, splitClauses_zero hrest, ih]
      cases values with
      | nil => simp
      | cons next values => simp
    · cases clauses with
      | nil =>
        -- without a zero the literals pend to the end
        have hnone : 0 ∉ values := List.count_eq_zero.mp hlength.symm
        have hlast : (value :: values).getLast? ≠ some 0 := by
          intro hlast
          rcases List.mem_cons.mp (List.mem_of_getLast? hlast) with heq | hmem
          · exact hzero heq.symm
          · exact hnone hmem
        rw [splitClauses_of_nil hrest hzero rfl]
        simp [hlast]
      | cons c clauses =>
        rw [splitClauses_of_cons hrest hzero rfl, ih]
        cases values with
        | nil => cases hlength
        | cons next values => simp

theorem splitClauses_eq_iff {values : List Int} {clauses : List Clause} :
    (splitClauses values).1 = clauses ↔
      clauses.map Clause.toDimacs = (values.splitOn 0).dropLast := by
  have hsegments : (splitClauses values).1 =
      ((values.splitOn 0).dropLast).map (List.map literalOf) := by
    rw [List.map_dropLast, ← splitClauses_append, List.dropLast_concat]
  rw [hsegments]
  constructor
  · rintro rfl
    rw [List.map_map]
    conv_rhs => rw [← List.map_id (values.splitOn 0).dropLast]
    apply List.map_congr_left
    intro segment _
    rw [Function.comp_apply, Clause.toDimacs, List.map_map]
    conv_rhs => rw [id, ← List.map_id segment]
    exact List.map_congr_left fun value _ => toDimacs_literalOf value
  · intro h
    rw [← h, List.map_map]
    conv_rhs => rw [← List.map_id clauses]
    apply List.map_congr_left
    intro c hc
    rw [Function.comp_apply, Clause.toDimacs, List.map_map]
    conv_rhs => rw [id, ← List.map_id c]
    apply List.map_congr_left
    intro l hl
    apply literalOf_toDimacs
    intro hzero
    -- a segment does not contain the number that it ends with
    have hsegment : c.toDimacs ∈ values.splitOn 0 := by
      apply List.dropLast_subset
      rw [← h]
      exact List.mem_map_of_mem hc
    apply not_mem_of_mem_splitOn hsegment
    rw [← hzero]
    exact List.mem_map_of_mem hl

theorem assemble_eq_ok_iff {announced : Announced} {values : List Int} {n : Nat}
    {clauses : List Clause} : assemble announced values = .ok (n, clauses) ↔
      ∃ m, announced = some (n, m) ∧ (values = [] ∨ values.getLast? = some 0) ∧
        values.count 0 = m ∧ clauses.map Clause.toDimacs = (values.splitOn 0).dropLast := by
  rw [← pending_eq_nil_iff, ← length_splitClauses, ← splitClauses_eq_iff, assemble]
  rcases splitClauses values with ⟨found, pending⟩
  dsimp only
  cases pending with
  | cons l pending => simp
  | nil =>
    cases announced with
    | none => simp
    | some announced =>
      obtain ⟨n', m⟩ := announced
      by_cases hcount : found.length = m
      · simp [hcount]
      · simp only [List.isEmpty_nil, Bool.not_true, Bool.false_eq_true, if_false, hcount]
        constructor
        · intro h
          cases h
        · rintro ⟨m', heq, -, hm', -⟩
          cases heq
          exact absurd hm' hcount

/-! ## Files -/

theorem parse_eq_ok_iff {bytes : ByteArray} {n : Nat} {clauses : List Clause} :
    parse bytes = .ok (n, clauses) ↔
      ∃ (text : String) (m : Nat) (values : List Int), text.toByteArray = bytes ∧
        Describes text n m values ∧ Complete n m values ∧
        clauses.map Clause.toDimacs = (values.splitOn 0).dropLast := by
  have hlf : ∀ line ∈ splitLines bytes.data.toList, 10 ∉ line := by
    intro line hline
    rw [splitLines_eq_splitOn] at hline
    exact not_mem_of_mem_splitOn hline
  have hparse : parse bytes = .ok (n, clauses) ↔ ∃ announced values,
      readLines 1 none (splitLines bytes.data.toList) = .ok (announced, values) ∧
        assemble announced values = .ok (n, clauses) := by
    rw [parse]
    cases readLines 1 none (splitLines bytes.data.toList) with
    | error e => simp
    | ok result =>
      obtain ⟨announced, values⟩ := result
      simp
  rw [hparse]
  constructor
  · rintro ⟨announced, values, hread, hassemble⟩
    obtain ⟨m, rfl, hended, hcount, hclauses⟩ := assemble_eq_ok_iff.mp hassemble
    obtain ⟨texts, htexts, problem, rest, hcontent, hannounce, hbody⟩ :=
      (readLines_start_iff hlf).mp hread
    obtain ⟨text, rfl, rfl⟩ := mapM_decode_splitLines_iff.mp htexts
    refine ⟨text, m, values, rfl, ?_, ⟨fun v hv _ => hbody.in_range v hv, hended, hcount⟩,
      hclauses⟩
    exact ⟨problem, rest, hcontent, hannounce, hbody.no_problem, hbody.numbers⟩
  · rintro ⟨text, m, values, rfl, hdescribes, hcomplete, hclauses⟩
    obtain ⟨problem, rest, hcontent, hannounce, hno, hnumbers⟩ := hdescribes
    have hrange : ∀ v ∈ values, v.natAbs ≤ n := by
      intro v hv
      by_cases hzero : v = 0
      · rw [hzero]
        exact Nat.zero_le n
      · exact hcomplete.in_range v hv hzero
    refine ⟨some (n, m), values, (readLines_start_iff hlf).mpr ?_, ?_⟩
    · exact ⟨_, mapM_decode_splitLines_iff.mpr ⟨text, rfl, rfl⟩, problem, rest, hcontent,
        hannounce, hno, hnumbers, hrange⟩
    · exact assemble_eq_ok_iff.mpr ⟨m, rfl, hcomplete.ended, hcomplete.count, hclauses⟩

theorem var_le_of_parse {bytes : ByteArray} {n : Nat} {clauses : List Clause}
    (h : parse bytes = .ok (n, clauses)) :
    n ≤ maxVar ∧ ∀ c ∈ clauses, ∀ l ∈ c, 1 ≤ l.var ∧ l.var ≤ n := by
  obtain ⟨text, m, values, -, hdescribes, hcomplete, hclauses⟩ := parse_eq_ok_iff.mp h
  obtain ⟨problem, rest, -, hannounce, -, -⟩ := hdescribes
  refine ⟨hannounce.2.1, fun c hc l hl => ?_⟩
  have hsegment : c.toDimacs ∈ values.splitOn 0 := by
    apply List.dropLast_subset
    rw [← hclauses]
    exact List.mem_map_of_mem hc
  obtain ⟨hvalue, hne⟩ := mem_of_mem_splitOn hsegment (List.mem_map_of_mem hl)
  have hrange := hcomplete.in_range _ hvalue hne
  rw [natAbs_toDimacs] at hrange
  refine ⟨?_, hrange⟩
  rw [← natAbs_toDimacs]
  exact Int.natAbs_pos.mpr hne

/-! ## What does not matter -/

theorem head_words_of_mem_content {line : List Char} {lines : List (List Char)}
    (hline : line ∈ content lines) : ∃ word ∈ words isGap line, word.head? = line.head? := by
  obtain ⟨hmem, hkept⟩ := List.mem_filter.mp hline
  obtain ⟨hne, -⟩ := of_decide_eq_true hkept
  obtain ⟨raw, -, rfl⟩ := List.mem_map.mp hmem
  have hfirst : firstWord isGap (trimBlank raw) ≠ [] :=
    firstWord_ne_nil (mt List.head?_eq_none_iff.mpr hne) (head_trimBlank_isGap raw)
  refine ⟨firstWord isGap (trimBlank raw), ?_, ?_⟩
  · rw [words_of_firstWord hfirst]
    exact List.mem_cons_self
  · conv_rhs => rw [← firstWord_append_afterWord (p := isGap) (trimBlank raw)]
    rw [List.head?_append_of_ne_nil _ hfirst]

/-- Another text with the same words after the problem line describes the same. -/
theorem Describes.of_words {text text' : String} {n m : Nat} {values : List Int}
    {problem problem' : List Char} {rest rest' : List (List Char)}
    (h : Describes text n m values)
    (hcontent : content (text.toList.splitOn '\n') = problem :: rest)
    (hcontent' : content (text'.toList.splitOn '\n') = problem' :: rest')
    (hproblem : words isGap problem = words isGap problem')
    (hrest : rest.flatMap (words isGap) = rest'.flatMap (words isGap)) :
    Describes text' n m values := by
  obtain ⟨first, others, heq, hannounce, -, hnumbers⟩ := h
  obtain ⟨rfl, rfl⟩ := List.cons.inj (hcontent.symm.trans heq)
  rw [Announces, hproblem] at hannounce
  rw [hrest] at hnumbers
  refine ⟨problem', rest', hcontent', hannounce, fun line hline hp => ?_, hnumbers⟩
  have hmem : line ∈ content (text'.toList.splitOn '\n') := by
    rw [hcontent']
    exact List.mem_cons_of_mem problem' hline
  obtain ⟨word, hword, hhead⟩ := head_words_of_mem_content hmem
  obtain ⟨value, hnumber⟩ :=
    exists_forall₂_iff.mp ⟨values, hnumbers⟩ word (List.mem_flatMap.mpr ⟨line, hline, hword⟩)
  exact hnumber.head_ne (hhead.trans hp)

theorem parse_congr {text text' : String} {problem problem' : List Char}
    {rest rest' : List (List Char)}
    (hcontent : content (text.toList.splitOn '\n') = problem :: rest)
    (hcontent' : content (text'.toList.splitOn '\n') = problem' :: rest')
    (hproblem : words isGap problem = words isGap problem')
    (hrest : rest.flatMap (words isGap) = rest'.flatMap (words isGap))
    {result : Nat × List Clause} (h : parse text.toByteArray = .ok result) :
    parse text'.toByteArray = .ok result := by
  obtain ⟨n, clauses⟩ := result
  obtain ⟨s, m, values, hs, hdescribes, hcomplete⟩ := parse_eq_ok_iff.mp h
  cases String.toByteArray_inj.mp hs
  have hdescribes' := hdescribes.of_words hcontent hcontent' hproblem hrest
  exact parse_eq_ok_iff.mpr ⟨text', m, values, rfl, hdescribes', hcomplete⟩

/-- **The reader accepts exactly the format.** A file is read successfully exactly when it is a text
that describes complete numbers, and then the clauses are the segments between the zeros. How the
numbers are broken over lines does not matter, nor do comments and blank lines. -/
theorem parse_accepts_format :
    (∀ (bytes : ByteArray) (n : Nat) (clauses : List Clause),
      parse bytes = .ok (n, clauses) ↔
        ∃ (text : String) (m : Nat) (values : List Int), text.toByteArray = bytes ∧
          Describes text n m values ∧ Complete n m values ∧
          clauses.map Clause.toDimacs = (values.splitOn 0).dropLast) ∧
    ∀ (text text' : String) (problem problem' : List Char) (rest rest' : List (List Char)),
      content (text.toList.splitOn '\n') = problem :: rest →
      content (text'.toList.splitOn '\n') = problem' :: rest' →
      words isGap problem = words isGap problem' →
      rest.flatMap (words isGap) = rest'.flatMap (words isGap) →
      ∀ result, parse text.toByteArray = .ok result ↔ parse text'.toByteArray = .ok result := by
  refine ⟨fun bytes n clauses => parse_eq_ok_iff, ?_⟩
  intro text text' problem problem' rest rest' hcontent hcontent' hproblem hrest result
  constructor
  · exact parse_congr hcontent hcontent' hproblem hrest
  · exact parse_congr hcontent' hcontent hproblem.symm hrest.symm

/-- A clause over two lines with a comment between them, and the same on one line. -/
theorem parse_accepts_format_broken :
    parse "c\np cnf 2 1\n1\nc\n -2 0".toByteArray = .ok (2, [[.positive 1, .negative 2]]) ∧
    parse "p  cnf 2\t1\n1 -2 0\n".toByteArray = .ok (2, [[.positive 1, .negative 2]]) := by
  have hbroken : parse "c\np cnf 2 1\n1\nc\n -2 0".toByteArray =
      .ok (2, [[.positive 1, .negative 2]]) := by
    decide +kernel
  refine ⟨hbroken, ?_⟩
  obtain ⟨-, hindependent⟩ := parse_accepts_format
  refine (hindependent _ _ "p cnf 2 1".toList "p  cnf 2\t1".toList ["1".toList, "-2 0".toList]
    ["1 -2 0".toList] ?_ ?_ ?_ ?_ _).mp hbroken
  · decide +kernel
  · decide +kernel
  · decide +kernel
  · decide +kernel

end Clausal.Dimacs
