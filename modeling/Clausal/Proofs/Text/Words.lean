import Mathlib.Data.List.TakeWhile

/-!
# Words

The words of a line are what is left between its separators. A line that does not start with a
separator is its first word, what follows the word, and so on: `words_eq_cons_iff` takes the first
word off. A reader that goes through a line from left to right is compared with the words of the
line by this step.
-/

namespace Clausal

variable {p : Char → Bool}

/-- The words of a line, where `p` says which characters separate. -/
def words (p : Char → Bool) (line : List Char) : List (List Char) :=
  (line.splitOnP p).filter fun word => !word.isEmpty

/-- The characters up to the first separator. -/
def firstWord (p : Char → Bool) (line : List Char) : List Char := line.takeWhile fun c => !p c

/-- What follows the first word, from its separator on. -/
def afterWord (p : Char → Bool) (line : List Char) : List Char := line.dropWhile fun c => !p c

/-- What follows the first word, from the next word on. -/
def nextWord (p : Char → Bool) (line : List Char) : List Char := (afterWord p line).dropWhile p

/-- Nothing follows, or a separator does. -/
def Ended (p : Char → Bool) (rest : List Char) : Prop := ∀ c ∈ rest.head?, p c = true

/-! ## The first word -/

@[simp] theorem words_nil (p : Char → Bool) : words p [] = [] := rfl

theorem words_cons_of_sep {c : Char} (hc : p c = true) (line : List Char) :
    words p (c :: line) = words p line := by
  rw [words, List.splitOnP_cons_eq_if_modifyHead, if_pos hc]
  rfl

theorem words_dropWhile (line : List Char) : words p (line.dropWhile p) = words p line := by
  induction line with
  | nil => rfl
  | cons c line ih =>
    by_cases hc : p c = true
    · rw [List.dropWhile_cons_of_pos hc, ih, words_cons_of_sep hc]
    · rw [List.dropWhile_cons_of_neg hc]

theorem words_append {word rest : List Char} (hword : ∀ c ∈ word, p c = false) (hne : word ≠ [])
    (hrest : Ended p rest) : words p (word ++ rest) = word :: words p rest := by
  have hkeep : (!word.isEmpty) = true := by simpa using hne
  cases rest with
  | nil =>
    rw [List.append_nil, words, List.splitOnP_eq_singleton hword, words_nil]
    exact List.filter_cons_of_pos hkeep
  | cons c rest =>
    have hc : p c = true := hrest c rfl
    rw [words, List.splitOnP_append_cons_of_forall_mem hword c hc, words_cons_of_sep hc]
    exact List.filter_cons_of_pos hkeep

theorem words_of_forall {word : List Char} (hword : ∀ c ∈ word, p c = false) (hne : word ≠ []) :
    words p word = [word] := by
  have hended : Ended p [] := by
    intro c hc
    cases hc
  have hwords := words_append hword hne hended
  rwa [List.append_nil, words_nil] at hwords

theorem firstWord_append_afterWord (line : List Char) :
    firstWord p line ++ afterWord p line = line :=
  List.takeWhile_append_dropWhile

theorem not_sep_of_mem_firstWord {line : List Char} {c : Char} (hc : c ∈ firstWord p line) :
    p c = false := by
  simpa using List.mem_takeWhile_imp hc

theorem ended_afterWord (line : List Char) : Ended p (afterWord p line) := by
  intro c hc
  have hneg := List.head?_dropWhile_not (fun c => !p c) line
  rw [afterWord] at hc
  rw [hc] at hneg
  simpa using hneg

theorem firstWord_append {word rest : List Char} (hword : ∀ c ∈ word, p c = false)
    (hrest : Ended p rest) :
    firstWord p (word ++ rest) = word ∧ afterWord p (word ++ rest) = rest := by
  have hall : ∀ c ∈ word, (!p c) = true := by
    intro c hc
    rw [hword c hc]
    rfl
  rw [firstWord, afterWord, List.takeWhile_append_of_pos hall, List.dropWhile_append_of_pos hall]
  cases rest with
  | nil => exact ⟨List.append_nil word, rfl⟩
  | cons c rest =>
    have hc : ¬ (!p c) = true := by
      rw [hrest c rfl]
      exact Bool.false_ne_true
    exact ⟨(congrArg (word ++ ·) (List.takeWhile_cons_of_neg hc)).trans (List.append_nil word),
      List.dropWhile_cons_of_neg hc⟩

/-! ## Taking the first word off -/

theorem words_of_firstWord {line : List Char} (h : firstWord p line ≠ []) :
    words p line = firstWord p line :: words p (nextWord p line) := by
  have hsplit := words_append (fun c hc => not_sep_of_mem_firstWord hc) h (ended_afterWord line)
  rw [firstWord_append_afterWord] at hsplit
  rw [hsplit, nextWord, words_dropWhile]

theorem firstWord_ne_nil {line : List Char} (hne : line ≠ [])
    (hhead : ∀ c ∈ line.head?, p c = false) :
    firstWord p line ≠ [] := by
  cases line with
  | nil => exact absurd rfl hne
  | cons c line =>
    rw [firstWord, List.takeWhile_cons_of_pos]
    · exact List.cons_ne_nil c _
    · rw [hhead c rfl]
      rfl

theorem head_dropWhile (line : List Char) : ∀ c ∈ (line.dropWhile p).head?, p c = false := by
  intro c hc
  have hneg := List.head?_dropWhile_not p line
  rw [hc] at hneg
  exact hneg

section

variable {line : List Char} (hhead : ∀ c ∈ line.head?, p c = false)

include hhead

theorem words_eq_nil_iff : words p line = [] ↔ line = [] := by
  constructor
  · intro h
    by_contra hne
    rw [words_of_firstWord (firstWord_ne_nil hne hhead)] at h
    cases h
  · rintro rfl
    rfl

theorem words_eq_cons_iff {word : List Char} {rest : List (List Char)} :
    words p line = word :: rest ↔
      word ≠ [] ∧ firstWord p line = word ∧ words p (nextWord p line) = rest := by
  constructor
  · intro h
    have hne : line ≠ [] := by
      rintro rfl
      cases h
    have hfirst := firstWord_ne_nil hne hhead
    rw [words_of_firstWord hfirst, List.cons.injEq] at h
    exact ⟨h.1 ▸ hfirst, h⟩
  · rintro ⟨hne, rfl, rfl⟩
    exact words_of_firstWord hne

theorem head?_of_words_eq_cons {word : List Char} {rest : List (List Char)}
    (h : words p line = word :: rest) : line.head? = word.head? := by
  obtain ⟨hne, hfirst, -⟩ := (words_eq_cons_iff hhead).mp h
  rw [← firstWord_append_afterWord (p := p) line, hfirst]
  cases word with
  | nil => exact absurd rfl hne
  | cons c word => rfl

end

theorem words_congr {q : Char → Bool} {line : List Char} (h : ∀ c ∈ line, p c = q c) :
    words p line = words q line := by
  have hsplit : line.splitOnP p = line.splitOnP q := by
    induction line with
    | nil => rfl
    | cons c line ih =>
      rw [List.splitOnP_cons_eq_if_modifyHead, List.splitOnP_cons_eq_if_modifyHead,
        h c List.mem_cons_self, ih fun c' hc' => h c' (List.mem_cons_of_mem c hc')]
  rw [words, words, hsplit]

end Clausal
