import Clausal.Proofs.Text.Decimal
import Clausal.Proofs.Text.Lines
import Clausal.Text.Comments

/-!
# Comments are lines of their own

A text is written line by line, and split at its line feeds into the lines that were written, if
none of them has a line feed itself (`splitOn_unlines_append`). The texts of a header are printed
without line feeds. A label is printed as it is, so it has to be on one line; then all comments are
lines that start with their mark (`isComment_of_mem_comments`), and nothing is left of them when
these lines are deleted (`withoutLines_unlines_append`).
-/

namespace Clausal

/-- A text without line feeds. -/
def OneLine (text : String) : Prop := '\n' ∉ text.toList

instance (text : String) : Decidable (OneLine text) :=
  inferInstanceAs (Decidable ('\n' ∉ text.toList))

/-- A line that starts with a mark. -/
structure IsComment (mark : Char) (line : String) : Prop where
  oneLine : OneLine line
  head : line.toList.head? = some mark

/-- A text without those of its lines that start with a mark. -/
def withoutLines (mark : Char) (text : String) : String :=
  String.ofList (['\n'].intercalate
    ((text.toList.splitOn '\n').filter fun line => line.head? ≠ some mark))

/-! ## Texts on one line -/

theorem oneLine_append {s t : String} : OneLine (s ++ t) ↔ OneLine s ∧ OneLine t := by
  rw [OneLine, String.toList_append, List.mem_append, not_or]
  rfl

theorem oneLine_toString (n : Nat) : OneLine (toString n) := by
  intro hmem
  have hdigit := (decimal_toString n).isDigit _ hmem
  exact absurd hdigit (by decide)

theorem oneLine_join {texts : List String} (h : ∀ text ∈ texts, OneLine text) :
    OneLine (String.join texts) := by
  intro hmem
  rw [String.toList_join] at hmem
  obtain ⟨text, htext, hlf⟩ := List.mem_flatMap.mp hmem
  exact h text htext hlf

theorem oneLine_intercalate {separator : String} {texts : List String} (hseparator : OneLine separator)
    (h : ∀ text ∈ texts, OneLine text) : OneLine (separator.intercalate texts) := by
  rw [OneLine, String.toList_intercalate]
  induction texts with
  | nil => simp
  | cons text texts ih =>
    rw [List.forall_mem_cons] at h
    cases texts with
    | nil =>
      rw [List.map_singleton, List.intercalate_singleton]
      exact h.1
    | cons next texts =>
      rw [List.map_cons, List.map_cons, List.intercalate_cons_cons, List.mem_append, not_or,
        List.mem_append, not_or]
      exact ⟨⟨h.1, hseparator⟩, ih h.2⟩

theorem oneLine_printable (s : String) : OneLine (printable s) := by
  intro hmem
  rw [printable, String.toList_ofList] at hmem
  obtain ⟨c, -, hc⟩ := List.mem_map.mp hmem
  split_ifs at hc with hprintable
  · rw [hc] at hprintable
    exact absurd hprintable (by decide)
  · exact absurd hc (by decide)

/-! ## Written lines -/

theorem toList_unlines_cons (line : String) (lines : List String) :
    (unlines (line :: lines)).toList = line.toList ++ '\n' :: (unlines lines).toList := by
  simp [unlines, String.toList_join]

theorem splitOn_unlines_append {lines : List String} (h : ∀ line ∈ lines, OneLine line)
    (rest : String) : (unlines lines ++ rest).toList.splitOn '\n' =
      lines.map String.toList ++ rest.toList.splitOn '\n' := by
  induction lines with
  | nil => rfl
  | cons line lines ih =>
    rw [List.forall_mem_cons] at h
    rw [String.toList_append] at ih ⊢
    rw [toList_unlines_cons, List.append_assoc, List.cons_append,
      List.splitOn_append_cons_self_of_not_mem h.1, ih h.2]
    rfl

theorem count_unlines {lines : List String} (h : ∀ line ∈ lines, OneLine line) :
    (unlines lines).toList.count '\n' = lines.length := by
  induction lines with
  | nil => rfl
  | cons line lines ih =>
    rw [List.forall_mem_cons] at h
    rw [toList_unlines_cons, List.count_append, List.count_eq_zero.mpr h.1, List.count_cons_self,
      ih h.2, Nat.zero_add, List.length_cons]

theorem getLast?_unlines {lines : List String} (hne : lines ≠ []) :
    (unlines lines).toList.getLast? = some '\n' := by
  induction lines with
  | nil => exact absurd rfl hne
  | cons line lines ih =>
    rw [toList_unlines_cons]
    cases lines with
    | nil => exact List.getLast?_concat
    | cons next lines =>
      have hlast := ih (List.cons_ne_nil next lines)
      rw [List.getLast?_append, List.getLast?_cons, hlast]
      rfl

theorem unlines_append (lines lines' : List String) :
    unlines (lines ++ lines') = unlines lines ++ unlines lines' := by
  rw [unlines, List.map_append, String.join_append]
  rfl

/-! ## Comments -/

theorem isComment_append {mark : Char} (hmark : mark ≠ '\n') {text : String} (h : OneLine text) :
    IsComment mark (String.singleton mark ++ text) := by
  refine ⟨oneLine_append.mpr ⟨?_, h⟩, ?_⟩
  · rw [OneLine, String.toList_singleton, List.mem_singleton]
    exact hmark.symm
  · rw [String.toList_append, String.toList_singleton]
    rfl

theorem isComment_mark {mark : Char} (hmark : mark ≠ '\n') :
    IsComment mark (String.singleton mark) := by
  have hempty : OneLine "" := by decide
  have h := isComment_append hmark hempty
  rwa [String.append_empty] at h

theorem isComment_of_mem_headerComments {mark : Char} (hmark : mark ≠ '\n') {header : Header}
    {line : String} (h : line ∈ headerComments (String.singleton mark) header) :
    IsComment mark line := by
  rcases List.mem_append.mp h with h | h
  · obtain ⟨⟨field, value⟩, -, rfl⟩ := List.mem_map.mp h
    dsimp only
    rw [String.append_assoc, String.append_assoc, String.append_assoc]
    apply isComment_append hmark
    rw [oneLine_append, oneLine_append, oneLine_append]
    exact ⟨by decide, oneLine_printable field, by decide, oneLine_printable value⟩
  · rw [List.mem_singleton.mp h]
    exact isComment_mark hmark

theorem isComment_of_mem_labelComments {mark : Char} (hmark : mark ≠ '\n') {labels : List String}
    (hlabels : ∀ label ∈ labels, OneLine label) {line : String}
    (h : line ∈ labelComments (String.singleton mark) labels) : IsComment mark line := by
  rcases List.mem_append.mp h with h | h
  · obtain ⟨⟨label, i⟩, hmem, rfl⟩ := List.mem_map.mp h
    apply isComment_append hmark
    have hlabel := hlabels label (List.fst_mem_of_mem_zipIdx hmem)
    have htext : s!" varname {i} {label}" = " varname " ++ toString i ++ " " ++ label := rfl
    rw [htext, oneLine_append, oneLine_append, oneLine_append]
    exact ⟨⟨⟨by decide, oneLine_toString i⟩, by decide⟩, hlabel⟩
  · rw [List.mem_singleton.mp h]
    exact isComment_mark hmark

/-- Comments are lines that start with their mark, whatever the header says and the labels are. -/
theorem isComment_of_mem_comments {mark : Char} (hmark : mark ≠ '\n') {header : Option Header}
    {labels : Option (List String)} (hlabels : ∀ ls ∈ labels, ∀ label ∈ ls, OneLine label)
    {line : String} (h : line ∈ comments (String.singleton mark) header labels) :
    IsComment mark line := by
  rcases List.mem_append.mp h with h | h
  · cases header with
    | none => cases h
    | some header => exact isComment_of_mem_headerComments hmark h
  · cases labels with
    | none => cases h
    | some labels => exact isComment_of_mem_labelComments hmark (hlabels labels rfl) h

/-! ## Deleting the comments -/

theorem withoutLines_unlines_append {mark : Char} {lines : List String}
    (h : ∀ line ∈ lines, IsComment mark line) (rest : String) :
    withoutLines mark (unlines lines ++ rest) = withoutLines mark rest := by
  have hdeleted : (lines.map String.toList).filter (fun line => line.head? ≠ some mark) = [] := by
    rw [List.filter_eq_nil_iff]
    intro chars hchars
    obtain ⟨line, hline, rfl⟩ := List.mem_map.mp hchars
    simp [(h line hline).head]
  rw [withoutLines, splitOn_unlines_append (fun line hline => (h line hline).oneLine),
    List.filter_append, hdeleted]
  rfl

end Clausal
