import Clausal.Dimacs.Printer
import Clausal.Proofs.Dimacs.Parser
import Clausal.Proofs.Text.Comments

/-!
# Printed files are read back

A printed file is read line by line: its comments say nothing (`readLines_comments`), the problem
line announces what was printed (`readLine_problemLine`), and a clause is read as its integers and a
zero, unless a literal is beyond the variables that are announced (`readLine_clauseLine`). From this
follows what the reader makes of the whole file: it accepts the file (`parse_print_of_le`), finds too
many variables (`parse_print_of_tooMany`) or points at a clause (`parse_print_of_beyond`).
-/

namespace Clausal.Dimacs

/-! ## Printed numbers -/

theorem signed_toString (value : Int) : Signed value (toString value).toList := by
  rw [Int.toString_eq_repr, Int.repr_eq_if]
  split_ifs with hnonneg
  · refine ⟨value.toNat, _, decimal_toString value.toNat, Or.inl ⟨rfl, ?_⟩⟩
    exact (Int.toNat_of_nonneg hnonneg).symm
  · refine ⟨(-value).toNat, _, decimal_toString (-value).toNat, Or.inr (Or.inr ⟨?_, ?_⟩)⟩
    · rw [String.toList_append]
      rfl
    · rw [Int.toNat_of_nonneg (by omega), Int.neg_neg]

theorem number_toString {value : Int} (h : value.natAbs ≤ maxVar) :
    Number (toString value).toList value := by
  refine ⟨signed_toString value, ?_⟩
  rw [maxVar] at h
  omega

theorem number_toDimacs {l : Lit} (h : l.var ≤ maxVar) :
    Number (toString l.toDimacs).toList l.toDimacs := by
  apply number_toString
  rw [natAbs_toDimacs]
  exact h

theorem not_blank_of_isDigit {c : Char} (h : c.isDigit = true) : isBlank c = false := by
  have hrange : 48 ≤ c.toNat ∧ c.toNat ≤ 57 := by
    simpa [Char.isDigit, UInt32.le_iff_toNat_le] using h
  simp [isBlank, blankRanges]
  omega

theorem head_toString (value : Int) :
    ∃ c, (toString value).toList.head? = some c ∧ (c.isDigit = true ∨ c = '-') := by
  have hhead : ∀ {n digits}, Decimal n digits → ∃ c, digits.head? = some c ∧ c.isDigit = true := by
    intro n digits h
    cases digits with
    | nil => exact absurd rfl h.ne_nil
    | cons c digits => exact ⟨c, rfl, h.isDigit c List.mem_cons_self⟩
  rw [Int.toString_eq_repr, Int.repr_eq_if]
  split_ifs
  · obtain ⟨c, hc, hdigit⟩ := hhead (decimal_toString value.toNat)
    exact ⟨c, hc, Or.inl hdigit⟩
  · refine ⟨'-', ?_, Or.inr rfl⟩
    rw [String.toList_append]
    rfl

/-! ## Trimming -/

theorem trimBlank_eq_self {line : List Char} (hfirst : ∀ c ∈ line.head?, isBlank c = false)
    (hlast : ∀ c ∈ line.getLast?, isBlank c = false) : trimBlank line = line := by
  have hdrop : line.dropWhile isBlank = line := by
    cases line with
    | nil => rfl
    | cons c line =>
      apply List.dropWhile_cons_of_neg
      rw [hfirst c rfl]
      exact Bool.false_ne_true
  rw [trimBlank, hdrop]
  apply List.rdropWhile_eq_self_iff.mpr
  intro hne
  rw [hlast _ (List.getLast?_eq_getLast_of_ne_nil hne)]
  exact Bool.false_ne_true

theorem head_trimBlank_of_head {line : List Char} {c : Char} (h : line.head? = some c)
    (hc : isBlank c = false) : (trimBlank line).head? = some c := by
  cases line with
  | nil => cases h
  | cons c' line =>
    cases h
    have hvisible : ¬ isBlank c = true := by
      rw [hc]
      exact Bool.false_ne_true
    have hprefix := trimBlank_isPrefix (c :: line)
    rw [List.dropWhile_cons_of_neg hvisible] at hprefix
    cases htrim : trimBlank (c :: line) with
    | nil =>
      rw [trimBlank, List.dropWhile_cons_of_neg hvisible] at htrim
      exact absurd (List.rdropWhile_eq_nil_iff.mp htrim c List.mem_cons_self) hvisible
    | cons c' tail =>
      rw [htrim] at hprefix
      rw [(List.cons_prefix_cons.mp hprefix).1]
      rfl

/-! ## Reading line by line -/

section Lines

variable {i : Nat} {announced announced' : Announced} {line : List Char} {values : List Int}

theorem readBytes_encode (i : Nat) (announced : Announced) (line : List Char) :
    readBytes i announced (encode line) = readLine i announced (trimBlank line) := by
  have hdecode : decode (encode line) = some line := decode_eq_some_iff.mpr rfl
  obtain ⟨text, htext, hline⟩ := Option.map_eq_some_iff.mp hdecode
  rw [readBytes, htext]
  dsimp only
  rw [hline]

theorem readLines_of_ok (h : readLine i announced (trimBlank line) = .ok (announced', values))
    (rest : List (List UInt8)) : readLines i announced (encode line :: rest) =
      (readLines (i + 1) announced' rest).map fun (after, more) => (after, values ++ more) := by
  rw [readLines, readBytes_encode, h]

theorem readLines_of_error {e : Error} (h : readLine i announced (trimBlank line) = .error e)
    (rest : List (List UInt8)) : readLines i announced (encode line :: rest) = .error e := by
  rw [readLines, readBytes_encode, h]

theorem readLines_comments {lines : List String} (h : ∀ line ∈ lines, IsComment 'c' line) (i : Nat)
    (announced : Announced) (rest : List (List UInt8)) :
    readLines i announced (lines.map (fun line => encode line.toList) ++ rest) =
      readLines (i + lines.length) announced rest := by
  induction lines generalizing i with
  | nil => rfl
  | cons line lines ih =>
    rw [List.forall_mem_cons] at h
    have hhead := head_trimBlank_of_head h.1.head (by decide)
    have hread := readLine_of_skipped i announced (Or.inr hhead)
    rw [List.map_cons, List.cons_append, readLines_of_ok hread, ih h.2, List.length_cons,
      Nat.add_right_comm, Nat.add_assoc]
    cases readLines (i + (lines.length + 1)) announced rest with
    | error e => rfl
    | ok result => rfl

end Lines

/-! ## The problem line -/

theorem ended_space (rest : List Char) : Ended isSpace (' ' :: rest) := by
  intro c hc
  cases hc
  rfl

theorem problemLine_eq (vars clauses : Nat) :
    problemLine vars clauses = "p cnf " ++ toString vars ++ " " ++ toString clauses := rfl

theorem toList_problemLine (vars clauses : Nat) : (problemLine vars clauses).toList =
    ['p'] ++ ' ' :: (['c', 'n', 'f'] ++ ' ' :: ((toString vars).toList ++
      ' ' :: (toString clauses).toList)) := by
  rw [problemLine_eq, String.toList_append, String.toList_append, String.toList_append]
  simp

theorem head_problemLine (vars clauses : Nat) :
    (problemLine vars clauses).toList.head? = some 'p' := by
  rw [toList_problemLine]
  rfl

theorem trimBlank_problemLine (vars clauses : Nat) :
    trimBlank (problemLine vars clauses).toList = (problemLine vars clauses).toList := by
  have hdigits := decimal_toString clauses
  apply trimBlank_eq_self
  · intro c hc
    rw [head_problemLine] at hc
    cases hc
    decide
  · intro c hc
    rw [problemLine_eq, String.toList_append, List.getLast?_append_of_ne_nil _ hdigits.ne_nil] at hc
    exact not_blank_of_isDigit (hdigits.isDigit c (List.mem_of_getLast? hc))

section ProblemLine

variable {vars clauses : Nat} (hvars : vars < wordSize) (hclauses : clauses < wordSize)

include hvars hclauses

theorem readProblemLine?_problemLine :
    readProblemLine? (problemLine vars clauses).toList = some (vars, clauses) := by
  have hn := decimal_toString vars
  have hm := decimal_toString clauses
  have hp : ∀ c ∈ ['p'], isSpace c = false := List.forall_mem_singleton.mpr rfl
  have hcnf : ∀ c ∈ ['c', 'n', 'f'], isSpace c = false := by
    rw [List.forall_mem_cons, List.forall_mem_cons, List.forall_mem_singleton]
    exact ⟨rfl, rfl, rfl⟩
  rw [readProblemLine?_eq_some_iff]
  · refine ⟨(toString vars).toList, (toString clauses).toList, ?_, ⟨hn, hvars⟩, hm, hclauses⟩
    rw [toList_problemLine, words_append hp (List.cons_ne_nil _ _) (ended_space _),
      words_cons_of_sep rfl, words_append hcnf (List.cons_ne_nil _ _) (ended_space _),
      words_cons_of_sep rfl,
      words_append (not_space_of_mem_decimal hn) hn.ne_nil (ended_space _),
      words_cons_of_sep rfl, words_of_forall (not_space_of_mem_decimal hm) hm.ne_nil]
  · intro c hc
    rw [head_problemLine] at hc
    cases hc
    rfl

theorem readLine_problemLine (i : Nat) :
    readLine i none (trimBlank (problemLine vars clauses).toList) =
      if maxVar < vars then .error (.tooManyVariables vars)
      else .ok (some (vars, clauses), []) := by
  rw [trimBlank_problemLine]
  unfold readLine
  rw [head_problemLine]
  dsimp only
  rw [if_neg (by decide), readProblemLine?_problemLine hvars hclauses]
  rfl

end ProblemLine

/-! ## Lines of clauses -/

theorem toList_clauseLine (c : Clause) : (clauseLine c).toList =
    c.flatMap (fun l => (toString l.toDimacs).toList ++ [' ']) ++ ['0'] := by
  have htext : ∀ l : Lit, s!"{l.toDimacs} " = toString l.toDimacs ++ " " := fun _ => rfl
  rw [clauseLine, String.toList_append, String.toList_join, List.flatMap_map]
  simp only [htext, String.toList_append]
  rfl

theorem numbers_clauseLine {c : Clause} (h : ∀ l ∈ c, l.var ≤ maxVar) :
    List.Forall₂ Number (words isSpace (clauseLine c).toList) (c.toDimacs ++ [0]) := by
  rw [toList_clauseLine]
  induction c with
  | nil =>
    have hzero : Number ['0'] 0 := number_toString (Nat.zero_le maxVar)
    rw [List.flatMap_nil, List.nil_append, words_of_forall hzero.not_space hzero.ne_nil]
    exact .cons hzero .nil
  | cons l c ih =>
    rw [List.forall_mem_cons] at h
    have hl := number_toDimacs h.1
    rw [List.flatMap_cons, List.append_assoc, List.append_assoc, List.singleton_append,
      words_append hl.not_space hl.ne_nil (ended_space _), words_cons_of_sep rfl]
    exact .cons hl (ih h.2)

theorem head_clauseLine (c : Clause) :
    ∃ ch, (clauseLine c).toList.head? = some ch ∧ (ch.isDigit = true ∨ ch = '-') := by
  rw [toList_clauseLine]
  cases c with
  | nil => exact ⟨'0', rfl, Or.inl rfl⟩
  | cons l c =>
    obtain ⟨ch, hhead, hch⟩ := head_toString l.toDimacs
    refine ⟨ch, ?_, hch⟩
    rw [List.flatMap_cons, List.append_assoc, List.append_assoc, List.head?_append, hhead]
    rfl

theorem trimBlank_clauseLine (c : Clause) :
    trimBlank (clauseLine c).toList = (clauseLine c).toList := by
  obtain ⟨ch, hhead, hch⟩ := head_clauseLine c
  apply trimBlank_eq_self
  · intro ch' hch'
    rw [hhead] at hch'
    cases hch'
    rcases hch with hdigit | rfl
    · exact not_blank_of_isDigit hdigit
    · decide
  · intro ch' hch'
    rw [toList_clauseLine, List.getLast?_concat] at hch'
    cases hch'
    decide

theorem checkValues_toDimacs (i n : Nat) (c : Clause) :
    checkValues i n (c.toDimacs ++ [0]) =
      match c.find? fun l => n < l.var with
      | some l => .error (.literalOutOfRange i l.toDimacs n)
      | none => .ok (c.toDimacs ++ [0]) := by
  have hfind : (c.toDimacs ++ [0]).find? (fun value => n < value.natAbs) =
      (c.find? fun l => n < l.var).map Lit.toDimacs := by
    have hzero : [(0 : Int)].find? (fun value => n < value.natAbs) = none := by simp
    rw [Clause.toDimacs, List.find?_append, hzero, Option.or_none, List.find?_map]
    congr 2
    funext l
    rw [Function.comp_apply, natAbs_toDimacs]
  rw [checkValues, hfind]
  cases c.find? fun l => n < l.var with
  | none => rfl
  | some l => rfl

theorem readLine_clauseLine (i n m : Nat) {c : Clause} (h : ∀ l ∈ c, l.var ≤ maxVar) :
    readLine i (some (n, m)) (trimBlank (clauseLine c).toList) =
      match c.find? fun l => n < l.var with
      | some l => .error (.literalOutOfRange i l.toDimacs n)
      | none => .ok (some (n, m), c.toDimacs ++ [0]) := by
  obtain ⟨ch, hhead, hch⟩ := head_clauseLine c
  have hother : ∀ ch', ch'.isDigit = false → ch' ≠ '-' → ch ≠ ch' := by
    rintro ch' hdigit hminus rfl
    rcases hch with hch | hch
    · rw [hdigit] at hch
      cases hch
    · exact hminus hch
  rw [trimBlank_clauseLine]
  unfold readLine
  rw [hhead]
  split
  · rename_i heq
    cases heq
  · rename_i heq
    exact absurd (Option.some.inj heq) (hother 'c' (by decide) (by decide))
  · rename_i heq
    exact absurd (Option.some.inj heq) (hother 'p' (by decide) (by decide))
  · dsimp only
    rw [readValues_eq_ok_iff.mpr (numbers_clauseLine h)]
    dsimp only
    rw [checkValues_toDimacs]
    cases c.find? fun l => n < l.var with
    | none => rfl
    | some l => rfl

theorem readLines_clauses {n m : Nat} {clauses : List Clause}
    (hvalid : ∀ c ∈ clauses, ∀ l ∈ c, l.var ≤ maxVar) (hn : ∀ c ∈ clauses, ∀ l ∈ c, l.var ≤ n)
    (i : Nat) (rest : List (List UInt8)) :
    readLines i (some (n, m)) (clauses.map (fun c => encode (clauseLine c).toList) ++ rest) =
      (readLines (i + clauses.length) (some (n, m)) rest).map fun (after, more) =>
        (after, clauses.flatMap (fun c => c.toDimacs ++ [0]) ++ more) := by
  induction clauses generalizing i with
  | nil =>
    show readLines i (some (n, m)) rest = (readLines i (some (n, m)) rest).map _
    cases readLines i (some (n, m)) rest with
    | error e => rfl
    | ok result => rfl
  | cons c clauses ih =>
    rw [List.forall_mem_cons] at hvalid hn
    have hfind : c.find? (fun l => n < l.var) = none := by
      rw [List.find?_eq_none]
      intro l hl
      simpa using hn.1 l hl
    have hread := readLine_clauseLine i n m hvalid.1
    rw [hfind] at hread
    rw [List.map_cons, List.cons_append, readLines_of_ok hread, ih hvalid.2 hn.2,
      List.length_cons, Nat.add_right_comm, Nat.add_assoc]
    cases readLines (i + (clauses.length + 1)) (some (n, m)) rest with
    | error e => rfl
    | ok result =>
      simp only [Except.map_ok, List.flatMap_cons, List.append_assoc]

theorem splitClauses_flatMap {clauses : List Clause} (h : ∀ c ∈ clauses, ∀ l ∈ c, 1 ≤ l.var) :
    splitClauses (clauses.flatMap fun c => c.toDimacs ++ [0]) = (clauses, []) := by
  induction clauses with
  | nil => rfl
  | cons c clauses ih =>
    rw [List.forall_mem_cons] at h
    rw [List.flatMap_cons, List.append_assoc]
    have hzero := splitClauses_zero (ih h.2)
    have hc := h.1
    clear h ih
    induction c with
    | nil => exact hzero
    | cons l c ih =>
      rw [List.forall_mem_cons] at hc
      have hne : l.toDimacs ≠ 0 := by
        rw [← Int.natAbs_ne_zero, natAbs_toDimacs]
        omega
      have hread := splitClauses_of_cons (ih hc.2) hne rfl
      rw [literalOf_toDimacs hne] at hread
      exact hread

/-! ## Files -/

theorem oneLine_problemLine (vars clauses : Nat) : OneLine (problemLine vars clauses) := by
  rw [problemLine_eq, oneLine_append, oneLine_append, oneLine_append]
  exact ⟨⟨⟨by decide, oneLine_toString vars⟩, by decide⟩, oneLine_toString clauses⟩

theorem oneLine_clauseLine {c : Clause} (h : ∀ l ∈ c, l.var ≤ maxVar) : OneLine (clauseLine c) := by
  rw [clauseLine, oneLine_append]
  refine ⟨oneLine_join (List.forall_mem_map.mpr fun l hl => ?_), by decide⟩
  have htext : s!"{l.toDimacs} " = toString l.toDimacs ++ " " := rfl
  rw [htext, oneLine_append]
  refine ⟨fun hlf => ?_, by decide⟩
  exact absurd ((number_toDimacs (h l hl)).not_space _ hlf) (by decide)

section File

variable {header : Option Header} {labels : Option (List String)}
  (hlabels : ∀ ls ∈ labels, ∀ label ∈ ls, OneLine label) {n : Nat} {clauses : List Clause}
  (hvalid : ∀ c ∈ clauses, ∀ l ∈ c, 1 ≤ l.var ∧ l.var ≤ maxVar)

include hlabels hvalid

theorem readLines_print : readLines 1 none
      (splitLines (print header labels n clauses).toByteArray.data.toList) =
    readLines ((comments "c" header labels).length + 1) none
      (encode (problemLine n clauses.length).toList ::
        (clauses.map (fun c => encode (clauseLine c).toList) ++ [encode []])) := by
  have hcomments : ∀ line ∈ comments "c" header labels, IsComment 'c' line :=
    fun line hline => isComment_of_mem_comments (by decide) hlabels hline
  have hlines : ∀ line ∈ lines header labels n clauses, OneLine line := by
    intro line hline
    rcases List.mem_append.mp hline with hline | hline
    · exact (hcomments line hline).oneLine
    · rcases List.mem_cons.mp hline with rfl | hline
      · exact oneLine_problemLine n clauses.length
      · obtain ⟨c, hc, rfl⟩ := List.mem_map.mp hline
        exact oneLine_clauseLine fun l hl => (hvalid c hc l hl).2
  have hsplit := splitOn_unlines_append hlines ""
  rw [String.append_empty] at hsplit
  rw [toList_toByteArray, splitLines_encode, print, hsplit, lines, Nat.add_comm _ 1,
    ← readLines_comments hcomments]
  simp only [List.map_append, List.map_cons, List.map_map, List.append_assoc, List.cons_append]
  rfl

theorem parse_print_of_tooMany (hn : n < counterSize) (hcount : clauses.length < wordSize)
    (hlarge : maxVar < n) :
    parse (print header labels n clauses).toByteArray = .error (.tooManyVariables n) := by
  have hword : n < wordSize := Nat.lt_trans hn (by decide)
  have hproblem :=
    readLine_problemLine hword hcount ((comments "c" header labels).length + 1)
  rw [if_pos hlarge] at hproblem
  rw [parse, readLines_print hlabels hvalid, readLines_of_error hproblem]

theorem parse_print_of_announced (hcount : clauses.length < wordSize) (hle : n ≤ maxVar) :
    parse (print header labels n clauses).toByteArray =
      match readLines ((comments "c" header labels).length + 2) (some (n, clauses.length))
        (clauses.map (fun c => encode (clauseLine c).toList) ++ [encode []]) with
      | .error e => .error e
      | .ok (announced, values) => assemble announced values := by
  have hword : n < wordSize := Nat.lt_of_le_of_lt hle (by decide)
  have hproblem :=
    readLine_problemLine hword hcount ((comments "c" header labels).length + 1)
  rw [if_neg (Nat.not_lt.mpr hle)] at hproblem
  rw [parse, readLines_print hlabels hvalid, readLines_of_ok hproblem]
  cases readLines ((comments "c" header labels).length + 2) (some (n, clauses.length))
      (clauses.map (fun c => encode (clauseLine c).toList) ++ [encode []]) with
  | error e => rfl
  | ok result => rfl

theorem parse_print_of_le (hcount : clauses.length < wordSize) (hle : n ≤ maxVar)
    (hvars : ∀ c ∈ clauses, ∀ l ∈ c, l.var ≤ n) :
    parse (print header labels n clauses).toByteArray = .ok (n, clauses) := by
  have hblank : ∀ i a, readLines i a [encode []] = .ok (a, []) := by
    intro i a
    rw [readLines_of_ok (readLine_of_skipped i a (Or.inl rfl))]
    rfl
  have hfirst : ∀ c ∈ clauses, ∀ l ∈ c, l.var ≤ maxVar := fun c hc l hl => (hvalid c hc l hl).2
  rw [parse_print_of_announced hlabels hvalid hcount hle, readLines_clauses hfirst hvars, hblank]
  have hsplit := splitClauses_flatMap fun c hc l hl => (hvalid c hc l hl).1
  rw [Except.map_ok]
  dsimp only
  rw [List.append_nil, assemble, hsplit]
  dsimp only
  rw [if_neg (by decide), if_pos rfl]

theorem parse_print_of_beyond (hcount : clauses.length < wordSize) (hle : n ≤ maxVar)
    {before after : List Clause} {c : Clause} {l : Lit}
    (hclauses : clauses = before ++ c :: after) (hbefore : ∀ c ∈ before, ∀ l ∈ c, l.var ≤ n)
    (hl : c.find? (fun l => n < l.var) = some l) :
    parse (print header labels n clauses).toByteArray = .error (.literalOutOfRange
      ((comments "c" header labels).length + 2 + before.length) l.toDimacs n) := by
  subst hclauses
  have hfits : ∀ c' ∈ before ++ c :: after, ∀ l ∈ c', l.var ≤ maxVar :=
    fun c' hc' l hl => (hvalid c' hc' l hl).2
  have hread := readLine_clauseLine ((comments "c" header labels).length + 2 + before.length) n
    (before ++ c :: after).length (hfits c (List.mem_append_right _ List.mem_cons_self))
  rw [hl] at hread
  rw [parse_print_of_announced hlabels hvalid hcount hle, List.map_append, List.append_assoc,
    readLines_clauses (fun c' hc' => hfits c' (List.mem_append_left _ hc')) hbefore,
    List.map_cons, List.cons_append, readLines_of_error hread]
  rfl

end File

theorem exists_first_beyond {n : Nat} {clauses : List Clause}
    (h : ¬ ∀ c ∈ clauses, ∀ l ∈ c, l.var ≤ n) :
    ∃ before c after l, clauses = before ++ c :: after ∧ (∀ c ∈ before, ∀ l ∈ c, l.var ≤ n) ∧
      c.find? (fun l => n < l.var) = some l := by
  induction clauses with
  | nil => exact absurd (by simp) h
  | cons c clauses ih =>
    cases hfind : c.find? fun l => n < l.var with
    | some l => exact ⟨[], c, clauses, l, rfl, by simp, hfind⟩
    | none =>
      have hc : ∀ l ∈ c, l.var ≤ n := by
        intro l hl
        simpa using List.find?_eq_none.mp hfind l hl
      rw [List.forall_mem_cons, not_and] at h
      obtain ⟨before, c', after, l, rfl, hbefore, hl⟩ := ih (h hc)
      exact ⟨c :: before, c', after, l, rfl, List.forall_mem_cons.mpr ⟨hc, hbefore⟩, hl⟩

theorem length_lt_of_parse {bytes : ByteArray} {n : Nat} {clauses : List Clause}
    (h : parse bytes = .ok (n, clauses)) : clauses.length < wordSize := by
  obtain ⟨text, m, values, -, hdescribes, hcomplete, hclauses⟩ := parse_eq_ok_iff.mp h
  obtain ⟨problem, rest, -, hannounce, -, -⟩ := hdescribes
  rw [← splitClauses_eq_iff.mpr hclauses, length_splitClauses, hcomplete.count]
  exact hannounce.2.2

/-- **A printed file is read back exactly when it is well formed.** Whatever the header says, and
whatever the labels are as long as each is on one line, the reader returns the variables and clauses
that were printed, if the variables have valid identifiers and the literals are among them. If there
are too many variables, it says so; otherwise it points at the first clause with a literal that is
not among them. What was read from any file is read again after it has been printed. -/
theorem print_then_parse (header : Option Header) (labels : Option (List String))
    (hlabels : ∀ ls ∈ labels, ∀ label ∈ ls, OneLine label) :
    (∀ (n : Nat) (clauses : List Clause), n < counterSize → clauses.length < wordSize →
      (∀ c ∈ clauses, ∀ l ∈ c, 1 ≤ l.var ∧ l.var ≤ maxVar) →
        (parse (print header labels n clauses).toByteArray = .ok (n, clauses) ↔
          n ≤ maxVar ∧ ∀ c ∈ clauses, ∀ l ∈ c, l.var ≤ n) ∧
        (maxVar < n → parse (print header labels n clauses).toByteArray =
          .error (.tooManyVariables n)) ∧
        (n ≤ maxVar → (¬ ∀ c ∈ clauses, ∀ l ∈ c, l.var ≤ n) →
          ∃ before c after l, clauses = before ++ c :: after ∧
            (∀ c ∈ before, ∀ l ∈ c, l.var ≤ n) ∧ c.find? (fun l => n < l.var) = some l ∧
            parse (print header labels n clauses).toByteArray = .error (.literalOutOfRange
              ((comments "c" header labels).length + 2 + before.length) l.toDimacs n))) ∧
    ∀ (bytes : ByteArray) (n : Nat) (clauses : List Clause), parse bytes = .ok (n, clauses) →
      parse (print header labels n clauses).toByteArray = .ok (n, clauses) := by
  constructor
  · intro n clauses hn hcount hvalid
    refine ⟨⟨fun h => ?_, fun h => ?_⟩, fun hlarge => ?_, fun hle hbeyond => ?_⟩
    · obtain ⟨hle, hvars⟩ := var_le_of_parse h
      exact ⟨hle, fun c hc l hl => (hvars c hc l hl).2⟩
    · exact parse_print_of_le hlabels hvalid hcount h.1 h.2
    · exact parse_print_of_tooMany hlabels hvalid hn hcount hlarge
    · obtain ⟨before, c, after, l, hclauses, hbefore, hl⟩ := exists_first_beyond hbeyond
      exact ⟨before, c, after, l, hclauses, hbefore, hl,
        parse_print_of_beyond hlabels hvalid hcount hle hclauses hbefore hl⟩
  · intro bytes n clauses h
    obtain ⟨hle, hvars⟩ := var_le_of_parse h
    have hvalid : ∀ c ∈ clauses, ∀ l ∈ c, 1 ≤ l.var ∧ l.var ≤ maxVar :=
      fun c hc l hl => ⟨(hvars c hc l hl).1, Nat.le_trans (hvars c hc l hl).2 hle⟩
    exact parse_print_of_le hlabels hvalid (length_lt_of_parse h) hle
      fun c hc l hl => (hvars c hc l hl).2

/-- A header with a line feed and labels for two variables. The third variable of the second file is
in its second clause. -/
theorem print_then_parse_labels :
    parse (print (some [("title", "a\np cnf 9 9")]) (some ["x", "y(1)"]) 2
      [[.positive 1, .negative 2], []]).toByteArray = .ok (2, [[.positive 1, .negative 2], []]) ∧
    parse (print (some [("title", "a\np cnf 9 9")]) (some ["x", "y(1)"]) 2
      [[], [.positive 1, .negative 3]]).toByteArray = .error (.literalOutOfRange 8 (-3) 2) := by
  have hlabels : ∀ ls ∈ some ["x", "y(1)"], ∀ label ∈ ls, OneLine label := by
    rintro ls ⟨⟩
    decide
  obtain ⟨hfile, -⟩ :=
    print_then_parse (some [("title", "a\np cnf 9 9")]) (some ["x", "y(1)"]) hlabels
  constructor
  · obtain ⟨hok, -, -⟩ := hfile 2 [[.positive 1, .negative 2], []] (by decide) (by decide)
      (by decide)
    exact hok.mpr (by decide)
  · obtain ⟨-, -, hbeyond⟩ := hfile 2 [[], [.positive 1, .negative 3]] (by decide) (by decide)
      (by decide)
    obtain ⟨before, c, after, l, hclauses, -, hl, hparse⟩ := hbeyond (by decide) (by decide)
    rw [hparse]
    -- the first clause has no literals, so it is the second that is found
    rcases before with _ | ⟨first, _ | ⟨second, before⟩⟩
    · cases hclauses
      cases hl
    · cases hclauses
      cases hl
      rfl
    · simp at hclauses

end Clausal.Dimacs
