import Clausal.Dimacs.Parser
import Clausal.Proofs.Limits
import Clausal.Proofs.Outcome
import Clausal.Proofs.Text.Decimal
import Clausal.Proofs.Text.Words
import Mathlib.Data.List.Forall2

/-!
# Lines of a DIMACS file

A line of numbers is read successfully exactly when all of its words are numbers
(`readValues_eq_ok_iff`), and a problem line exactly when it has four words, `p`, `cnf` and two
decimal numbers (`readProblemLine?_eq_some_iff`).
-/

namespace Clausal.Dimacs

/-! ## Characters -/

/-- A word writes an integer: decimal digits, after a sign or without one. -/
def Signed (value : Int) (word : List Char) : Prop :=
  ∃ n digits, Decimal n digits ∧
    (word = digits ∧ value = n ∨ word = '+' :: digits ∧ value = n ∨
      word = '-' :: digits ∧ value = -n)

/-- A word writes an integer that fits into 32 bits. -/
def Number (word : List Char) (value : Int) : Prop :=
  Signed value word ∧ -2147483648 ≤ value ∧ value ≤ 2147483647

theorem isSpace_of_isDigit {c : Char} (hc : c.isDigit = true) : isSpace c = false := by
  by_contra hspace
  rw [Bool.not_eq_false, isSpace] at hspace
  simp only [Bool.or_eq_true, decide_eq_true_eq] at hspace
  rcases hspace with ((rfl | rfl) | rfl) | rfl
  all_goals exact absurd hc (by decide)

theorem isDigit_of_isSpace {c : Char} (hc : isSpace c = true) : c.isDigit = false := by
  by_contra hdigit
  rw [isSpace_of_isDigit (by simpa using hdigit)] at hc
  cases hc

theorem not_space_of_mem_decimal {n : Nat} {digits : List Char} (h : Decimal n digits) :
    ∀ c ∈ digits, isSpace c = false :=
  fun c hc => isSpace_of_isDigit (h.isDigit c hc)

theorem atEnd_iff {rest : List Char} : atEnd rest = true ↔ Ended isSpace rest := by
  cases rest with
  | nil => simp [atEnd, Ended]
  | cons c rest => simp [atEnd, Ended]

/-! ## Digits -/

theorem readDigits?_append {n : Nat} {digits rest : List Char} (h : Decimal n digits)
    (hrest : Ended isSpace rest) : readDigits? (digits ++ rest) = some (n, rest) := by
  have hstop : rest.takeWhile Char.isDigit = [] ∧ rest.dropWhile Char.isDigit = rest := by
    cases rest with
    | nil => exact ⟨rfl, rfl⟩
    | cons c rest =>
      have hc : ¬ c.isDigit = true := by
        rw [isDigit_of_isSpace (hrest c rfl)]
        exact Bool.false_ne_true
      exact ⟨List.takeWhile_cons_of_neg hc, List.dropWhile_cons_of_neg hc⟩
  rw [readDigits?, List.takeWhile_append_of_pos h.isDigit, List.dropWhile_append_of_pos h.isDigit,
    hstop.1, hstop.2, List.append_nil, digitsValue?_eq_some_iff.mpr h]
  rfl

theorem decimal_of_readDigits? {s rest : List Char} {n : Nat}
    (h : readDigits? s = some (n, rest)) : ∃ digits, s = digits ++ rest ∧ Decimal n digits := by
  obtain ⟨value, hvalue, heq⟩ := Option.map_eq_some_iff.mp h
  obtain ⟨rfl, rfl⟩ := Prod.mk.inj heq
  exact ⟨_, List.takeWhile_append_dropWhile.symm, digitsValue?_eq_some_iff.mp hvalue⟩

/-! ## Signed numbers -/

theorem splitSign_digits {n : Nat} {digits : List Char} (h : Decimal n digits)
    (rest : List Char) : splitSign (digits ++ rest) = (false, digits ++ rest) := by
  cases digits with
  | nil => exact absurd rfl h.ne_nil
  | cons c digits =>
    have hc := h.isDigit c List.mem_cons_self
    have hne : ∀ c' : Char, c'.isDigit = false → ∀ s, c :: (digits ++ rest) ≠ c' :: s := by
      rintro c' hc' s heq
      rw [(List.cons.inj heq).1, hc'] at hc
      cases hc
    rw [List.cons_append, splitSign]
    · exact hne '-' (by decide)
    · exact hne '+' (by decide)

theorem splitSign_cases (s : List Char) :
    (∃ rest, s = '-' :: rest ∧ splitSign s = (true, rest)) ∨
      (∃ rest, s = '+' :: rest ∧ splitSign s = (false, rest)) ∨ splitSign s = (false, s) := by
  unfold splitSign
  split
  · exact Or.inl ⟨_, rfl, rfl⟩
  · exact Or.inr (Or.inl ⟨_, rfl, rfl⟩)
  · exact Or.inr (Or.inr rfl)

theorem signed_iff {word : List Char} {value : Int} : Signed value word ↔
    ∃ n, Decimal n (splitSign word).2 ∧ value = if (splitSign word).1 then -(n : Int) else n := by
  constructor
  · rintro ⟨n, digits, hdigits, ⟨rfl, rfl⟩ | ⟨rfl, rfl⟩ | ⟨rfl, rfl⟩⟩
    · have hsplit := splitSign_digits hdigits []
      rw [List.append_nil] at hsplit
      rw [hsplit]
      exact ⟨n, hdigits, (if_neg Bool.false_ne_true).symm⟩
    · exact ⟨n, hdigits, (if_neg Bool.false_ne_true).symm⟩
    · exact ⟨n, hdigits, (if_pos rfl).symm⟩
  · rintro ⟨n, hdigits, hvalue⟩
    rcases splitSign_cases word with ⟨rest, rfl, hsplit⟩ | ⟨rest, rfl, hsplit⟩ | hsplit
    · rw [hsplit] at hdigits hvalue
      exact ⟨n, rest, hdigits, Or.inr (Or.inr ⟨rfl, hvalue⟩)⟩
    · rw [hsplit] at hdigits hvalue
      exact ⟨n, rest, hdigits, Or.inr (Or.inl ⟨rfl, hvalue⟩)⟩
    · rw [hsplit] at hdigits hvalue
      exact ⟨n, word, hdigits, Or.inl ⟨rfl, hvalue⟩⟩

theorem Signed.unique {word : List Char} {value value' : Int} (h : Signed value word)
    (h' : Signed value' word) : value = value' := by
  obtain ⟨n, hn, rfl⟩ := signed_iff.mp h
  obtain ⟨n', hn', rfl⟩ := signed_iff.mp h'
  rw [hn.unique hn']

theorem checked32_eq_some_iff {value v : Int} :
    checked32 value = some v ↔ value = v ∧ -2147483648 ≤ v ∧ v ≤ 2147483647 := by
  rw [checked32]
  constructor
  · intro h
    split_ifs at h with hrange
    cases h
    exact ⟨rfl, hrange⟩
  · rintro ⟨rfl, hrange⟩
    rw [if_pos hrange]

theorem readInt?_append {word rest : List Char} {value : Int} (h : Number word value)
    (hrest : Ended isSpace rest) : readInt? (word ++ rest) = some (value, rest) := by
  obtain ⟨⟨n, digits, hdigits, hform⟩, hrange⟩ := h
  have hread := readDigits?_append hdigits hrest
  rcases hform with ⟨rfl, rfl⟩ | ⟨rfl, rfl⟩ | ⟨rfl, rfl⟩
  · rw [readInt?, splitSign_digits hdigits, hread, Option.bind_some]
    dsimp only
    rw [if_neg Bool.false_ne_true, checked32_eq_some_iff.mpr ⟨rfl, hrange⟩]
    rfl
  · rw [readInt?, List.cons_append, splitSign, hread, Option.bind_some]
    dsimp only
    rw [if_neg Bool.false_ne_true, checked32_eq_some_iff.mpr ⟨rfl, hrange⟩]
    rfl
  · rw [readInt?, List.cons_append, splitSign, hread, Option.bind_some]
    dsimp only
    rw [if_pos rfl, checked32_eq_some_iff.mpr ⟨rfl, hrange⟩]
    rfl

theorem number_of_readInt? {s rest : List Char} {value : Int}
    (h : readInt? s = some (value, rest)) : ∃ word, s = word ++ rest ∧ Number word value := by
  obtain ⟨⟨n, rest'⟩, hdigits, h⟩ := Option.bind_eq_some_iff.mp h
  obtain ⟨value', hvalue, heq⟩ := Option.map_eq_some_iff.mp h
  obtain ⟨rfl, rfl⟩ := Prod.mk.inj heq
  obtain ⟨digits, hs, hdecimal⟩ := decimal_of_readDigits? hdigits
  obtain ⟨hvalue, hrange⟩ := checked32_eq_some_iff.mp hvalue
  rcases splitSign_cases s with ⟨rest, rfl, hsplit⟩ | ⟨rest, rfl, hsplit⟩ | hsplit
  · rw [hsplit] at hs hvalue
    refine ⟨'-' :: digits, ?_, ⟨n, digits, hdecimal, Or.inr (Or.inr ⟨rfl, hvalue.symm⟩)⟩, hrange⟩
    rw [List.cons_append, ← hs]
  · rw [hsplit] at hs hvalue
    refine ⟨'+' :: digits, ?_, ⟨n, digits, hdecimal, Or.inr (Or.inl ⟨rfl, hvalue.symm⟩)⟩, hrange⟩
    rw [List.cons_append, ← hs]
  · rw [hsplit] at hs hvalue
    exact ⟨digits, hs, ⟨n, digits, hdecimal, Or.inl ⟨rfl, hvalue.symm⟩⟩, hrange⟩

theorem Signed.not_space {word : List Char} {value : Int} (h : Signed value word) :
    ∀ c ∈ word, isSpace c = false := by
  obtain ⟨n, digits, hdigits, hform⟩ := h
  have hall := not_space_of_mem_decimal hdigits
  rcases hform with ⟨rfl, -⟩ | ⟨rfl, -⟩ | ⟨rfl, -⟩
  · exact hall
  · exact List.forall_mem_cons.mpr ⟨rfl, hall⟩
  · exact List.forall_mem_cons.mpr ⟨rfl, hall⟩

theorem Number.not_space {word : List Char} {value : Int} (h : Number word value) :
    ∀ c ∈ word, isSpace c = false :=
  h.1.not_space

theorem Number.ne_nil {word : List Char} {value : Int} (h : Number word value) : word ≠ [] := by
  obtain ⟨⟨n, digits, hdigits, hform⟩, -⟩ := h
  rcases hform with ⟨rfl, -⟩ | ⟨rfl, -⟩ | ⟨rfl, -⟩
  · exact hdigits.ne_nil
  · exact List.cons_ne_nil _ _
  · exact List.cons_ne_nil _ _

theorem Number.head_ne {word : List Char} {value : Int} (h : Number word value) :
    word.head? ≠ some 'p' := by
  obtain ⟨⟨n, digits, hdigits, hform⟩, -⟩ := h
  rcases hform with ⟨rfl, -⟩ | ⟨rfl, -⟩ | ⟨rfl, -⟩
  · intro hhead
    have hp := hdigits.isDigit 'p' (List.mem_of_mem_head? hhead)
    exact absurd hp (by decide)
  · intro hhead
    exact absurd (Option.some.inj hhead) (by decide)
  · intro hhead
    exact absurd (Option.some.inj hhead) (by decide)

theorem readInt?_eq_some_iff {s : List Char} {value : Int} {rest : List Char}
    (hend : Ended isSpace rest) : readInt? s = some (value, rest) ↔
      Number (firstWord isSpace s) value ∧ rest = afterWord isSpace s := by
  constructor
  · intro h
    obtain ⟨word, rfl, hnumber⟩ := number_of_readInt? h
    obtain ⟨hfirst, hafter⟩ := firstWord_append hnumber.not_space hend
    rw [hfirst, hafter]
    exact ⟨hnumber, rfl⟩
  · rintro ⟨hnumber, rfl⟩
    have hread := readInt?_append hnumber hend
    rw [firstWord_append_afterWord] at hread
    exact hread

/-! ## Lines of numbers -/

theorem words_skipSpaces (s : List Char) : words isSpace (skipSpaces s) = words isSpace s :=
  words_dropWhile s

theorem words_of_readInt? {s rest : List Char} {value : Int}
    (h : readInt? (skipSpaces s) = some (value, rest)) (hend : Ended isSpace rest) :
    ∃ word, Number word value ∧ words isSpace s = word :: words isSpace rest := by
  obtain ⟨word, hs, hnumber⟩ := number_of_readInt? h
  refine ⟨word, hnumber, ?_⟩
  rw [← words_skipSpaces, hs]
  exact words_append hnumber.not_space hnumber.ne_nil hend

theorem readInt?_of_forall₂ {s : List Char} {values : List Int} (hne : skipSpaces s ≠ [])
    (h : List.Forall₂ Number (words isSpace s) values) :
    ∃ value rest, readInt? (skipSpaces s) = some (value, rest) ∧ Ended isSpace rest := by
  have hfirst := firstWord_ne_nil hne (head_dropWhile s)
  rw [← words_skipSpaces, words_of_firstWord hfirst] at h
  obtain ⟨value, rest, hnumber, -, -⟩ := List.forall₂_cons_left_iff.mp h
  have hend := ended_afterWord (p := isSpace) (skipSpaces s)
  exact ⟨value, _, (readInt?_eq_some_iff hend).mpr ⟨hnumber, rfl⟩, hend⟩

theorem Number.unique {word : List Char} {value value' : Int} (h : Number word value)
    (h' : Number word value') : value = value' :=
  h.1.unique h'.1

theorem exists_forall₂_iff {α β : Type} {R : α → β → Prop} {xs : List α} :
    (∃ ys, List.Forall₂ R xs ys) ↔ ∀ x ∈ xs, ∃ y, R x y := by
  induction xs with
  | nil => simp
  | cons x xs ih =>
    rw [List.forall_mem_cons, ← ih]
    constructor
    · rintro ⟨ys, h⟩
      obtain ⟨y, ys, hy, hys, -⟩ := List.forall₂_cons_left_iff.mp h
      exact ⟨⟨y, hy⟩, ys, hys⟩
    · rintro ⟨⟨y, hy⟩, ys, hys⟩
      exact ⟨y :: ys, .cons hy hys⟩

section Values

variable {s rest : List Char} {value : Int}

theorem readValues_of_isEmpty (h : (skipSpaces s).isEmpty = true) : readValues s = .ok [] := by
  rw [readValues, if_pos h]

theorem readValues_of_none (hne : ¬ (skipSpaces s).isEmpty = true)
    (h : readInt? (skipSpaces s) = none) : readValues s = .error (skipSpaces s) := by
  rw [readValues, if_neg hne]
  split
  · rfl
  · rename_i hsome
    rw [h] at hsome
    cases hsome

theorem readValues_of_some (hne : ¬ (skipSpaces s).isEmpty = true)
    (h : readInt? (skipSpaces s) = some (value, rest)) : readValues s =
      if atEnd rest then (readValues rest).map (value :: ·) else .error rest := by
  rw [readValues, if_neg hne]
  split
  · rename_i hnone
    rw [h] at hnone
    cases hnone
  · rename_i hsome
    rw [h] at hsome
    cases hsome
    rfl

end Values

/-- A line of numbers is read exactly when all of its words are numbers. -/
theorem readValues_eq_ok_iff {s : List Char} {values : List Int} :
    readValues s = .ok values ↔ List.Forall₂ Number (words isSpace s) values := by
  induction s using readValues.induct generalizing values with
  | case1 s hempty =>
    rw [readValues_of_isEmpty hempty, ← words_skipSpaces, List.isEmpty_iff.mp hempty,
      words_nil, List.forall₂_nil_left_iff, Except.ok.injEq, eq_comm]
  | case2 s hempty hread =>
    rw [readValues_of_none hempty hread]
    refine ⟨nofun, fun h => ?_⟩
    obtain ⟨value, rest, hsome, -⟩ := readInt?_of_forall₂ (mt List.isEmpty_iff.mpr hempty) h
    rw [hread] at hsome
    cases hsome
  | case3 s hempty value rest hread hlength hend ih =>
    obtain ⟨word, hnumber, hwords⟩ := words_of_readInt? hread (atEnd_iff.mp hend)
    rw [readValues_of_some hempty hread, if_pos hend, Except.map_eq_ok_iff, hwords,
      List.forall₂_cons_left_iff]
    constructor
    · rintro ⟨more, hmore, rfl⟩
      exact ⟨value, more, hnumber, ih.mp hmore, rfl⟩
    · rintro ⟨value', more, hnumber', hmore, rfl⟩
      exact ⟨more, ih.mpr hmore, by rw [hnumber.unique hnumber']⟩
  | case4 s hempty value rest hread hlength hend =>
    rw [readValues_of_some hempty hread, if_neg hend]
    refine ⟨nofun, fun h => ?_⟩
    obtain ⟨value', rest', hsome, hended⟩ :=
      readInt?_of_forall₂ (mt List.isEmpty_iff.mpr hempty) h
    rw [hread] at hsome
    cases hsome
    exact absurd (atEnd_iff.mpr hended) hend

/-! ## The problem line -/

theorem expect?_eq_some_iff {word s rest : List Char} :
    expect? word s = some rest ↔ s = word ++ rest := by
  rw [expect?]
  constructor
  · intro h
    split_ifs at h with hprefix
    obtain ⟨tail, rfl⟩ := List.isPrefixOf_iff_prefix.mp hprefix
    rw [List.drop_left] at h
    rw [Option.some.inj h]
  · rintro rfl
    rw [if_pos (List.isPrefixOf_iff_prefix.mpr (List.prefix_append word rest)), List.drop_left]

theorem spaces?_eq_some_iff {s rest : List Char} :
    spaces? s = some rest ↔ s ≠ [] ∧ Ended isSpace s ∧ rest = skipSpaces s := by
  cases s with
  | nil => simp [spaces?]
  | cons c s =>
    rw [spaces?]
    by_cases hc : isSpace c = true
    · have hskip : skipSpaces (c :: s) = skipSpaces s := List.dropWhile_cons_of_pos hc
      rw [if_pos hc, hskip, Option.some.injEq, eq_comm]
      refine ⟨fun h => ⟨List.cons_ne_nil c s, fun c' hc' => ?_, h⟩, fun h => h.2.2⟩
      cases hc'
      exact hc
    · rw [if_neg hc]
      exact ⟨nofun, fun h => absurd (h.2.1 c rfl) hc⟩

theorem readWord?_eq_some_iff {s rest : List Char} {n : Nat} (hend : Ended isSpace rest) :
    readWord? s = some (n, rest) ↔
      (Decimal n (firstWord isSpace s) ∧ n < wordSize) ∧ rest = afterWord isSpace s := by
  constructor
  · intro h
    obtain ⟨⟨value, rest'⟩, hdigits, h⟩ := Option.bind_eq_some_iff.mp h
    obtain ⟨checked, hchecked, heq⟩ := Option.map_eq_some_iff.mp h
    obtain ⟨rfl, rfl⟩ := Prod.mk.inj heq
    obtain ⟨rfl, hfits⟩ := checkedWord_eq_some_iff.mp hchecked
    obtain ⟨digits, rfl, hdecimal⟩ := decimal_of_readDigits? hdigits
    obtain ⟨hfirst, hafter⟩ := firstWord_append (not_space_of_mem_decimal hdecimal) hend
    rw [hfirst, hafter]
    exact ⟨⟨hdecimal, hfits⟩, rfl⟩
  · rintro ⟨⟨hdecimal, hfits⟩, rfl⟩
    have hread := readDigits?_append hdecimal hend
    rw [firstWord_append_afterWord] at hread
    rw [readWord?, hread, Option.bind_some]
    dsimp only
    rw [checkedWord_eq_some_iff.mpr ⟨rfl, hfits⟩]
    rfl

theorem expect?_spaces?_iff {word s t : List Char} (hword : ∀ c ∈ word, isSpace c = false) :
    (∃ rest, expect? word s = some rest ∧ spaces? rest = some t) ↔
      firstWord isSpace s = word ∧ afterWord isSpace s ≠ [] ∧ t = nextWord isSpace s := by
  constructor
  · rintro ⟨rest, hexpect, hspaces⟩
    rw [expect?_eq_some_iff.mp hexpect]
    obtain ⟨hne, hend, rfl⟩ := spaces?_eq_some_iff.mp hspaces
    obtain ⟨hfirst, hafter⟩ := firstWord_append hword hend
    rw [nextWord, hfirst, hafter]
    exact ⟨rfl, hne, rfl⟩
  · rintro ⟨rfl, hne, rfl⟩
    refine ⟨afterWord isSpace s, ?_, ?_⟩
    · rw [expect?_eq_some_iff, firstWord_append_afterWord]
    · rw [spaces?_eq_some_iff]
      exact ⟨hne, ended_afterWord s, rfl⟩

theorem readWord?_spaces?_iff {s t : List Char} {n : Nat} :
    (∃ rest, readWord? s = some (n, rest) ∧ spaces? rest = some t) ↔
      (Decimal n (firstWord isSpace s) ∧ n < wordSize) ∧
        afterWord isSpace s ≠ [] ∧ t = nextWord isSpace s := by
  constructor
  · rintro ⟨rest, hread, hspaces⟩
    obtain ⟨hne, hend, rfl⟩ := spaces?_eq_some_iff.mp hspaces
    obtain ⟨hnumber, rfl⟩ := (readWord?_eq_some_iff hend).mp hread
    exact ⟨hnumber, hne, rfl⟩
  · rintro ⟨hnumber, hne, rfl⟩
    have hend := ended_afterWord (p := isSpace) s
    exact ⟨_, (readWord?_eq_some_iff hend).mpr ⟨hnumber, rfl⟩,
      spaces?_eq_some_iff.mpr ⟨hne, hend, rfl⟩⟩

theorem readWord?_last_iff {s : List Char} {n : Nat} :
    (∃ rest, readWord? s = some (n, rest) ∧ skipSpaces rest = []) ↔
      (Decimal n (firstWord isSpace s) ∧ n < wordSize) ∧ nextWord isSpace s = [] := by
  constructor
  · rintro ⟨rest, hread, hskip⟩
    have hend : Ended isSpace rest := fun c hc =>
      List.dropWhile_eq_nil_iff.mp hskip c (List.mem_of_mem_head? hc)
    obtain ⟨hnumber, rfl⟩ := (readWord?_eq_some_iff hend).mp hread
    exact ⟨hnumber, hskip⟩
  · rintro ⟨hnumber, hnext⟩
    exact ⟨_, (readWord?_eq_some_iff (ended_afterWord s)).mpr ⟨hnumber, rfl⟩, hnext⟩

theorem afterWord_ne_nil {s : List Char} (h : firstWord isSpace (nextWord isSpace s) ≠ []) :
    afterWord isSpace s ≠ [] := by
  intro hnil
  rw [nextWord, hnil] at h
  exact h rfl

/-- A line that starts with a word announces numbers exactly when these are its words. -/
theorem readProblemLine?_eq_some_iff {s : List Char} (hhead : ∀ c ∈ s.head?, isSpace c = false)
    {n m : Nat} : readProblemLine? s = some (n, m) ↔
      ∃ a b, words isSpace s = [['p'], ['c', 'n', 'f'], a, b] ∧
        (Decimal n a ∧ n < wordSize) ∧ Decimal m b ∧ m < wordSize := by
  have hp : ∀ c ∈ ['p'], isSpace c = false := List.forall_mem_singleton.mpr rfl
  have hcnf : ∀ c ∈ ['c', 'n', 'f'], isSpace c = false := by
    rw [List.forall_mem_cons, List.forall_mem_cons, List.forall_mem_singleton]
    exact ⟨rfl, rfl, rfl⟩
  have hread : readProblemLine? s = some (n, m) ↔
      ∃ s₂, (∃ s₁, expect? ['p'] s = some s₁ ∧ spaces? s₁ = some s₂) ∧
      ∃ s₄, (∃ s₃, expect? ['c', 'n', 'f'] s₂ = some s₃ ∧ spaces? s₃ = some s₄) ∧
      ∃ s₆, (∃ s₅, readWord? s₄ = some (n, s₅) ∧ spaces? s₅ = some s₆) ∧
        ∃ s₇, readWord? s₆ = some (m, s₇) ∧ skipSpaces s₇ = [] := by
    simp only [readProblemLine?, Option.bind_eq_bind, Option.bind_eq_some_iff, Prod.exists]
    constructor
    · rintro ⟨s₁, h₁, s₂, h₂, s₃, h₃, s₄, h₄, n', s₅, h₅, s₆, h₆, m', s₇, h₇, h⟩
      split_ifs at h with hempty
      cases h
      exact ⟨s₂, ⟨s₁, h₁, h₂⟩, s₄, ⟨s₃, h₃, h₄⟩, s₆, ⟨s₅, h₅, h₆⟩, s₇, h₇,
        List.isEmpty_iff.mp hempty⟩
    · rintro ⟨s₂, ⟨s₁, h₁, h₂⟩, s₄, ⟨s₃, h₃, h₄⟩, s₆, ⟨s₅, h₅, h₆⟩, s₇, h₇, hempty⟩
      refine ⟨s₁, h₁, s₂, h₂, s₃, h₃, s₄, h₄, n, s₅, h₅, s₆, h₆, m, s₇, h₇, ?_⟩
      rw [if_pos (List.isEmpty_iff.mpr hempty)]
  rw [hread]
  simp only [expect?_spaces?_iff hp, expect?_spaces?_iff hcnf, readWord?_spaces?_iff,
    readWord?_last_iff]
  -- what follows a word starts with a word again
  have hnext : ∀ s : List Char, ∀ c ∈ (nextWord isSpace s).head?, isSpace c = false :=
    fun s => head_dropWhile _
  simp only [words_eq_cons_iff hhead, words_eq_cons_iff (hnext _), words_eq_nil_iff (hnext _)]
  constructor
  · rintro ⟨_, ⟨h₁, -, rfl⟩, _, ⟨h₂, -, rfl⟩, _, ⟨h₃, -, rfl⟩, h₄, hlast⟩
    exact ⟨_, _, ⟨by simp, h₁, by simp, h₂, h₃.1.ne_nil, rfl, h₄.1.ne_nil, rfl, hlast⟩, h₃, h₄⟩
  · rintro ⟨a, b, ⟨-, h₁, -, h₂, ha, rfl, hb, rfl, hlast⟩, h₃, h₄⟩
    refine ⟨_, ⟨h₁, afterWord_ne_nil ?_, rfl⟩, _, ⟨h₂, afterWord_ne_nil ha, rfl⟩, _,
      ⟨h₃, afterWord_ne_nil hb, rfl⟩, h₄, hlast⟩
    rw [h₂]
    exact List.cons_ne_nil _ _

end Clausal.Dimacs
