import Clausal.Proofs.Dimacs.Line

/-!
# Where a line of numbers stops

A line of numbers is read up to its first word that is no number. What is left begins with this
word, or inside of it if it starts with a number that something follows (`StuckAt`). That is where
the reader points (`readValues_eq_error_iff`), and there is such a place exactly when one of the words
is no number (`exists_stuckAt_iff`).
-/

namespace Clausal.Dimacs

/-! ## Numerals -/

/-- The characters at the start of a text that look like a number: digits, after a sign if there is
one. -/
def numeral : List Char → List Char
  | '-' :: s => '-' :: s.takeWhile Char.isDigit
  | '+' :: s => '+' :: s.takeWhile Char.isDigit
  | s => s.takeWhile Char.isDigit

theorem splitSign_of_forall_ne {s : List Char} (hminus : ∀ t, s ≠ '-' :: t)
    (hplus : ∀ t, s ≠ '+' :: t) : splitSign s = (false, s) := by
  rcases splitSign_cases s with ⟨t, rfl, -⟩ | ⟨t, rfl, -⟩ | h
  · exact absurd rfl (hminus t)
  · exact absurd rfl (hplus t)
  · exact h

theorem splitSign_numeral (s : List Char) :
    splitSign (numeral s) = ((splitSign s).1, (splitSign s).2.takeWhile Char.isDigit) := by
  unfold numeral
  split
  · rfl
  · rfl
  · rename_i hminus hplus
    have hdigits : ∀ c t, c.isDigit = false → s.takeWhile Char.isDigit ≠ c :: t := by
      intro c t hc heq
      have hmem : c ∈ s.takeWhile Char.isDigit := by
        rw [heq]
        exact List.mem_cons_self
      rw [List.mem_takeWhile_imp hmem] at hc
      cases hc
    rw [splitSign_of_forall_ne (fun t => hminus t) (fun t => hplus t)]
    exact splitSign_of_forall_ne (fun t => hdigits '-' t (by decide))
      (fun t => hdigits '+' t (by decide))

theorem numeral_append_dropWhile (s : List Char) :
    numeral s ++ (splitSign s).2.dropWhile Char.isDigit = s := by
  unfold numeral
  split
  · exact congrArg _ List.takeWhile_append_dropWhile
  · exact congrArg _ List.takeWhile_append_dropWhile
  · rename_i hminus hplus
    rw [splitSign_of_forall_ne (fun t => hminus t) (fun t => hplus t)]
    exact List.takeWhile_append_dropWhile

theorem readDigits?_eq_some_iff {s rest : List Char} {n : Nat} : readDigits? s = some (n, rest) ↔
    Decimal n (s.takeWhile Char.isDigit) ∧ s.dropWhile Char.isDigit = rest := by
  rw [readDigits?, Option.map_eq_some_iff]
  simp only [digitsValue?_eq_some_iff, Prod.mk.injEq]
  constructor
  · rintro ⟨n, h, rfl, hrest⟩
    exact ⟨h, hrest⟩
  · rintro ⟨h, hrest⟩
    exact ⟨n, h, rfl, hrest⟩

theorem readInt?_eq_some_iff_numeral {s rest : List Char} {value : Int} :
    readInt? s = some (value, rest) ↔ Number (numeral s) value ∧ numeral s ++ rest = s := by
  have hrest : numeral s ++ rest = s ↔ (splitSign s).2.dropWhile Char.isDigit = rest := by
    conv_lhs => rhs; rw [← numeral_append_dropWhile s]
    rw [List.append_cancel_left_eq, eq_comm]
  have hnumber : Number (numeral s) value ↔ ∃ n,
      Decimal n ((splitSign s).2.takeWhile Char.isDigit) ∧
        checked32 (if (splitSign s).1 then -(n : Int) else n) = some value := by
    simp only [Number, signed_iff, splitSign_numeral, checked32_eq_some_iff]
    constructor
    · rintro ⟨⟨n, hn, hvalue⟩, hrange⟩
      exact ⟨n, hn, hvalue.symm, hrange⟩
    · rintro ⟨n, hn, hvalue, hrange⟩
      exact ⟨⟨n, hn, hvalue.symm⟩, hrange⟩
  rw [hrest, hnumber, readInt?, Option.bind_eq_some_iff]
  constructor
  · rintro ⟨⟨n, rest'⟩, hdigits, h⟩
    obtain ⟨hn, hdrop⟩ := readDigits?_eq_some_iff.mp hdigits
    obtain ⟨value', hvalue, heq⟩ := Option.map_eq_some_iff.mp h
    cases heq
    exact ⟨⟨n, hn, hvalue⟩, hdrop⟩
  · rintro ⟨⟨n, hn, hvalue⟩, hdrop⟩
    refine ⟨(n, rest), readDigits?_eq_some_iff.mpr ⟨hn, hdrop⟩, ?_⟩
    dsimp only
    rw [hvalue]
    rfl

theorem readInt?_eq_none_iff {s : List Char} :
    readInt? s = none ↔ ∀ value, ¬ Number (numeral s) value := by
  constructor
  · intro h value hnumber
    have hread := readInt?_eq_some_iff_numeral.mpr ⟨hnumber, numeral_append_dropWhile s⟩
    rw [h] at hread
    cases hread
  · intro h
    cases hread : readInt? s with
    | none => rfl
    | some result =>
      obtain ⟨value, rest⟩ := result
      exact absurd (readInt?_eq_some_iff_numeral.mp hread).1 (h value)

theorem takeWhile_isDigit_append {rest : List Char} (hend : Ended isSpace rest) (s : List Char) :
    (s ++ rest).takeWhile Char.isDigit = s.takeWhile Char.isDigit := by
  have hrest : rest.takeWhile Char.isDigit = [] := by
    cases rest with
    | nil => rfl
    | cons c rest =>
      apply List.takeWhile_cons_of_neg
      rw [isDigit_of_isSpace (hend c rfl)]
      exact Bool.false_ne_true
  rw [List.takeWhile_append, hrest, List.append_nil]
  split_ifs with hall
  · exact ((List.takeWhile_prefix Char.isDigit).eq_of_length hall).symm
  · rfl

theorem numeral_append {word rest : List Char} (hne : word ≠ []) (hend : Ended isSpace rest) :
    numeral (word ++ rest) = numeral word := by
  cases word with
  | nil => exact absurd rfl hne
  | cons c word =>
    rw [List.cons_append]
    have htake := takeWhile_isDigit_append hend
    unfold numeral
    split
    · rename_i t heq
      obtain ⟨rfl, rfl⟩ := List.cons.inj heq
      exact congrArg _ (htake word)
    · rename_i t heq
      obtain ⟨rfl, rfl⟩ := List.cons.inj heq
      exact congrArg _ (htake word)
    · rename_i hminus hplus
      split
      · rename_i heq
        exact absurd (by rw [(List.cons.inj heq).1]) (hminus (word ++ rest))
      · rename_i heq
        exact absurd (by rw [(List.cons.inj heq).1]) (hplus (word ++ rest))
      · exact htake (c :: word)

theorem numeral_firstWord {s : List Char} (hne : firstWord isSpace s ≠ []) :
    numeral (firstWord isSpace s) = numeral s := by
  conv_rhs => rw [← firstWord_append_afterWord (p := isSpace) s]
  exact (numeral_append hne (ended_afterWord s)).symm

/-! ## Words that are no numbers -/

/-- What is left of a word: what follows its numeral, if that is a number, and else all of it. -/
def Unread (word rest : List Char) : Prop :=
  (∃ value, Number (numeral word) value) ∧ numeral word ++ rest = word ∨
    (∀ value, ¬ Number (numeral word) value) ∧ rest = word

/-- A line of numbers is left at `rest`: at its first word that is no number, or inside of it. -/
inductive StuckAt : List Char → List Char → Prop
  | space {c : Char} {line rest : List Char} (hc : isSpace c = true) (h : StuckAt line rest) :
    StuckAt (c :: line) rest
  | number {word line rest : List Char} {value : Int} (hword : Number word value)
    (hend : Ended isSpace line) (h : StuckAt line rest) : StuckAt (word ++ line) rest
  | here {word after rest : List Char} (hne : word ≠ []) (hword : ∀ c ∈ word, isSpace c = false)
    (hend : Ended isSpace after) (hnot : ∀ value, ¬ Number word value) (hrest : Unread word rest) :
    StuckAt (word ++ after) (rest ++ after)

theorem StuckAt.of_skipSpaces {line rest : List Char} (h : StuckAt (skipSpaces line) rest) :
    StuckAt line rest := by
  induction line with
  | nil => exact h
  | cons c line ih =>
    by_cases hc : isSpace c = true
    · rw [skipSpaces, List.dropWhile_cons_of_pos hc] at h
      exact .space hc (ih h)
    · rwa [skipSpaces, List.dropWhile_cons_of_neg hc] at h

theorem readInt?_of_number_firstWord {s : List Char} {value : Int}
    (h : Number (firstWord isSpace s) value) : readInt? s = some (value, afterWord isSpace s) :=
  (readInt?_eq_some_iff (ended_afterWord s)).mpr ⟨h, rfl⟩

section FirstWord

variable {line : List Char} (hne : ¬ line.isEmpty = true)
  (hhead : ∀ c ∈ line.head?, isSpace c = false)

include hne hhead

theorem stuckAt_of_readInt?_eq_none (hread : readInt? line = none) : StuckAt line line := by
  have hfirst := firstWord_ne_nil (mt List.isEmpty_iff.mpr hne) hhead
  have hnumeral := readInt?_eq_none_iff.mp hread
  rw [← numeral_firstWord hfirst] at hnumeral
  have hnot : ∀ value, ¬ Number (firstWord isSpace line) value := by
    intro value hnumber
    rw [readInt?_of_number_firstWord hnumber] at hread
    cases hread
  have hstuck := StuckAt.here hfirst (fun c => not_sep_of_mem_firstWord) (ended_afterWord line) hnot
    (Or.inr ⟨hnumeral, rfl⟩)
  rwa [firstWord_append_afterWord] at hstuck

theorem stuckAt_of_readInt?_eq_some {rest : List Char} {value : Int}
    (hread : readInt? line = some (value, rest)) (hend : ¬ Ended isSpace rest) :
    StuckAt line rest := by
  have hfirst := firstWord_ne_nil (mt List.isEmpty_iff.mpr hne) hhead
  obtain ⟨hnumber, hline⟩ := readInt?_eq_some_iff_numeral.mp hread
  have hsplit := numeral_append_dropWhile (firstWord isSpace line)
  rw [numeral_firstWord hfirst] at hsplit
  have hrest : rest =
      (splitSign (firstWord isSpace line)).2.dropWhile Char.isDigit ++ afterWord isSpace line := by
    have hboth : numeral line ++ rest = numeral line ++
        ((splitSign (firstWord isSpace line)).2.dropWhile Char.isDigit ++ afterWord isSpace line) := by
      rw [hline, ← List.append_assoc, hsplit, firstWord_append_afterWord]
    exact List.append_cancel_left hboth
  have hnot : ∀ value, ¬ Number (firstWord isSpace line) value := by
    intro value' hnumber'
    rw [readInt?_of_number_firstWord hnumber'] at hread
    cases hread
    exact hend (ended_afterWord line)
  have hunread : Unread (firstWord isSpace line)
      ((splitSign (firstWord isSpace line)).2.dropWhile Char.isDigit) := by
    rw [Unread, numeral_firstWord hfirst]
    exact Or.inl ⟨⟨value, hnumber⟩, hsplit⟩
  have hstuck := StuckAt.here hfirst (fun c => not_sep_of_mem_firstWord) (ended_afterWord line) hnot
    hunread
  rwa [firstWord_append_afterWord, ← hrest] at hstuck

end FirstWord

theorem stuckAt_of_readValues {line rest : List Char} (h : readValues line = .error rest) :
    StuckAt line rest := by
  induction line using readValues.induct with
  | case1 line hempty =>
    rw [readValues_of_isEmpty hempty] at h
    cases h
  | case2 line hempty hread =>
    rw [readValues_of_none hempty hread] at h
    cases h
    exact (stuckAt_of_readInt?_eq_none hempty (head_dropWhile line) hread).of_skipSpaces
  | case3 line hempty value next hread hlength hend ih =>
    rw [readValues_of_some hempty hread, if_pos hend, Except.map_eq_error_iff] at h
    obtain ⟨word, hword, hnumber⟩ := number_of_readInt? hread
    have hstuck := StuckAt.number hnumber (atEnd_iff.mp hend) (ih h)
    rw [← hword] at hstuck
    exact hstuck.of_skipSpaces
  | case4 line hempty value next hread hlength hend =>
    rw [readValues_of_some hempty hread, if_neg hend] at h
    cases h
    exact (stuckAt_of_readInt?_eq_some hempty (head_dropWhile line) hread
      (mt atEnd_iff.mpr hend)).of_skipSpaces

/-! ## The place is the only one -/

theorem readValues_congr {line line' : List Char} (h : skipSpaces line = skipSpaces line') :
    readValues line = readValues line' := by
  by_cases hempty : (skipSpaces line').isEmpty = true
  · rw [readValues_of_isEmpty hempty, readValues_of_isEmpty (h ▸ hempty)]
  · cases hread : readInt? (skipSpaces line') with
    | none => rw [readValues_of_none hempty hread, readValues_of_none (h ▸ hempty) (h ▸ hread), h]
    | some result =>
      obtain ⟨value, rest⟩ := result
      rw [readValues_of_some hempty hread, readValues_of_some (h ▸ hempty) (h ▸ hread)]

theorem skipSpaces_word_append {word : List Char} (hne : word ≠ [])
    (hword : ∀ c ∈ word, isSpace c = false) (rest : List Char) :
    skipSpaces (word ++ rest) = word ++ rest := by
  cases word with
  | nil => exact absurd rfl hne
  | cons c word =>
    apply List.dropWhile_cons_of_neg
    rw [hword c List.mem_cons_self]
    exact Bool.false_ne_true

theorem readValues_of_stuckAt {line rest : List Char} (h : StuckAt line rest) :
    readValues line = .error rest := by
  induction h with
  | space hc h ih =>
    rw [← ih]
    exact readValues_congr (List.dropWhile_cons_of_pos hc)
  | @number word line rest value hword hend h ih =>
    have hskip := skipSpaces_word_append hword.ne_nil hword.not_space line
    have hread := readInt?_append hword hend
    have hempty : ¬ (word ++ line).isEmpty = true := by
      simp [hword.ne_nil]
    rw [readValues_of_some (hskip.symm ▸ hempty) (hskip.symm ▸ hread), if_pos (atEnd_iff.mpr hend), ih]
    rfl
  | @here word after rest hne hword hend hnot hrest =>
    have hskip := skipSpaces_word_append hne hword after
    have hempty : ¬ (word ++ after).isEmpty = true := by
      simp [hne]
    rcases hrest with ⟨⟨value, hnumber⟩, hsplit⟩ | ⟨hnumeral, rfl⟩
    · have hread : readInt? (word ++ after) = some (value, rest ++ after) := by
        rw [readInt?_eq_some_iff_numeral, numeral_append hne hend, ← List.append_assoc, hsplit]
        exact ⟨hnumber, rfl⟩
      have hinside : ¬ atEnd (rest ++ after) = true := by
        cases rest with
        | nil =>
          rw [List.append_nil] at hsplit
          exact absurd (hsplit ▸ hnumber) (hnot value)
        | cons c rest =>
          have hmem : c ∈ word := by
            rw [← hsplit]
            exact List.mem_append_right _ List.mem_cons_self
          rw [List.cons_append, atEnd, hword c hmem]
          exact Bool.false_ne_true
      rw [readValues_of_some (hskip.symm ▸ hempty) (hskip.symm ▸ hread), if_neg hinside]
    · have hread : readInt? (rest ++ after) = none := by
        rw [readInt?_eq_none_iff, numeral_append hne hend]
        exact hnumeral
      rw [readValues_of_none (hskip.symm ▸ hempty) (hskip.symm ▸ hread), hskip]

theorem readValues_eq_error_iff {line rest : List Char} :
    readValues line = .error rest ↔ StuckAt line rest :=
  ⟨stuckAt_of_readValues, readValues_of_stuckAt⟩

theorem exists_stuckAt_iff {line : List Char} : (∃ rest, StuckAt line rest) ↔
    ∃ word ∈ words isSpace line, ∀ value, ¬ Number word value := by
  have hok : (∃ values, readValues line = .ok values) ↔
      ∀ word ∈ words isSpace line, ∃ value, Number word value := by
    simp only [readValues_eq_ok_iff]
    exact exists_forall₂_iff
  simp only [← readValues_eq_error_iff, Except.exists_error_iff, hok]
  simp only [not_forall, not_exists, exists_prop]

end Clausal.Dimacs
