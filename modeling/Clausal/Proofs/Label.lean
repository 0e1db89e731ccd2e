import Clausal.Proofs.Text.Comments
import Clausal.Proofs.VarGroup.DigraphEdges
import Clausal.Proofs.VarGroup.GraphEdges

/-!
# Labels on one line

The characters of a format are characters of the text that it was read from, so a text without line
feeds gives a format without any (`LabelFormat.oneLine_of_parse`). What a group fills into its
format are numbers, so its labels are on one line if its name or the text of its format is
(`GroupSpec.oneLine_renderLabel`). The default formats are.
-/

namespace Clausal

namespace LabelFormat

/-- A format without line feeds. -/
def OneLine (format : LabelFormat) : Prop := .char '\n' ∉ format.pieces

/-! ## Reading -/

theorem mem_of_char_mem_tokens {c : Char} {content : Option (List Char)} {text : List Char}
    (h : Token.char c ∈ tokens content text) : c ∈ text := by
  induction content, text using tokens.induct with
  | case1 => cases h
  | case2 content =>
    rw [tokens, List.mem_singleton] at h
    cases h
  | case3 content rest ih =>
    rw [tokens, if_pos rfl, List.mem_cons] at h
    rcases h with h | h
    · cases h
    · exact List.mem_cons_of_mem _ (ih h)
  | case4 content d rest hd ih =>
    rw [tokens, if_neg hd] at h
    exact List.mem_cons_of_mem _ (ih h)
  | case5 rest ih =>
    rw [tokens, if_pos rfl] at h
    rw [if_pos rfl, List.mem_cons] at h
    rcases h with h | h
    · cases h
      exact List.mem_cons_self
    · exact List.mem_cons_of_mem _ (List.mem_cons_of_mem _ (ih h))
  | case6 d rest hd ih =>
    rw [tokens, if_pos rfl] at h
    rw [if_neg hd] at h
    exact List.mem_cons_of_mem _ (ih h)
  | case7 =>
    rw [tokens, if_pos rfl] at h
    rw [tokens, List.mem_singleton] at h
    cases h
  | case8 d rest hopen ih ih' =>
    rw [tokens, if_neg hopen, if_pos rfl] at h
    rcases List.mem_cons.mp h with h | h
    · cases h
      exact List.mem_cons_self
    · split_ifs at h
      · exact List.mem_cons_of_mem _ (List.mem_cons_of_mem _ (ih h))
      · exact List.mem_cons_of_mem _ (ih' h)
  | case9 hopen =>
    rw [tokens, if_neg hopen, if_pos rfl] at h
    cases List.mem_singleton.mp h
    exact List.mem_singleton_self _
  | case10 d rest hopen hclose ih =>
    unfold tokens at h
    rw [if_neg hopen, if_neg hclose] at h
    rcases List.mem_cons.mp h with h | h
    · cases h
      exact List.mem_cons_self
    · exact List.mem_cons_of_mem _ (ih h)

theorem char_mem_of_mem_resolve {c : Char} {format : String} {arguments next : Nat}
    {toks : List Token} {pieces : List LabelPiece}
    (h : resolve format arguments next toks = .ok pieces) (hc : .char c ∈ pieces) :
    .char c ∈ toks := by
  have hargument : ∀ {next i : Nat} {rest : List Token} {pieces : List LabelPiece},
      (∀ {pieces}, resolve format arguments next rest = .ok pieces → .char c ∈ pieces →
        .char c ∈ rest) →
      (resolve format arguments next rest).map (.argument i :: ·) = .ok pieces →
      .char c ∈ pieces → .char c ∈ rest := by
    intro next i rest pieces ih h hc
    obtain ⟨more, hmore, rfl⟩ := Except.map_eq_ok_iff.mp h
    rcases List.mem_cons.mp hc with hc | hc
    · cases hc
    · exact ih hmore hc
  induction toks generalizing next pieces with
  | nil =>
    cases h
    cases hc
  | cons tok rest ih =>
    cases tok with
    | char d =>
      obtain ⟨more, hmore, rfl⟩ := Except.map_eq_ok_iff.mp h
      rcases List.mem_cons.mp hc with hc | hc
      · cases hc
        exact List.mem_cons_self
      · exact List.mem_cons_of_mem _ (ih hmore hc)
    | unterminated => cases h
    | placeholder content =>
      apply List.mem_cons_of_mem
      rw [resolve] at h
      split_ifs at h
      · exact hargument ih h hc
      · split at h
        · cases h
        · split_ifs at h
          exact hargument ih h hc

theorem oneLine_of_parse {text : String} {arguments : Nat} {format : LabelFormat}
    (h : parse text arguments = .ok format) (htext : Clausal.OneLine text) : format.OneLine := by
  obtain ⟨pieces, hpieces, rfl⟩ := Except.map_eq_ok_iff.mp h
  intro hmem
  exact htext (mem_of_char_mem_tokens (char_mem_of_mem_resolve hpieces hmem))

/-! ## Filling in -/

theorem oneLine_render {format : LabelFormat} (h : format.OneLine) {arguments : List String}
    (harguments : ∀ text ∈ arguments, Clausal.OneLine text) :
    Clausal.OneLine (format.render arguments) := by
  apply oneLine_join
  intro text htext
  obtain ⟨piece, hpiece, rfl⟩ := List.mem_map.mp htext
  cases piece with
  | char c =>
    rw [renderPiece, Clausal.OneLine, String.toList_singleton, List.mem_singleton]
    rintro rfl
    exact h hpiece
  | argument i =>
    rw [renderPiece]
    cases harg : arguments[i]? with
    | none => exact (by decide : Clausal.OneLine "")
    | some text => exact harguments text (List.mem_of_getElem? harg)

theorem oneLine_render_numbers {format : LabelFormat} (h : format.OneLine) (numbers : List Nat) :
    Clausal.OneLine (format.render (numbers.map toString)) :=
  oneLine_render h (List.forall_mem_map.mpr fun n _ => oneLine_toString n)

theorem oneLine_plain : plain.OneLine := by
  simp [OneLine, plain]

theorem oneLine_tuple {name : String} (h : Clausal.OneLine name) (n : Nat) :
    Clausal.OneLine (tuple name n) := by
  rw [tuple, oneLine_append, oneLine_append, oneLine_append]
  refine ⟨⟨⟨h, by decide⟩, oneLine_intercalate (by decide) fun text htext => ?_⟩, by decide⟩
  rw [List.eq_of_mem_replicate htext]
  decide

end LabelFormat

/-! ## The formats of groups -/

section Create

variable {start : Nat} {label : Option String}

theorem Block.parseLabel_of_create {ranges : List Nat} {g : Block}
    (h : create start ranges label = .ok g) : parseLabel label ranges.length = .ok g.format := by
  unfold create at h
  split_ifs at h
  · cases h
  · split at h
    · cases h
    · split at h
      · cases h
      · obtain ⟨-, -, h⟩ := Except.bind_eq_ok_iff.mp h
        obtain ⟨format, hformat, h⟩ := Except.bind_eq_ok_iff.mp h
        obtain ⟨ids, -, h⟩ := Except.bind_eq_ok_iff.mp h
        cases h
        exact hformat

theorem Words.parse_of_create {n k : Nat} {family : Family} {g : Words}
    (h : create start n k family label = .ok g) :
    LabelFormat.parse (label.getD defaultLabel) 1 = .ok g.format := by
  obtain ⟨ids, -, h⟩ := Except.bind_eq_ok_iff.mp h
  obtain ⟨format, hformat, h⟩ := Except.bind_eq_ok_iff.mp h
  cases h
  exact hformat

theorem BipartiteEdges.parse_of_create {graph : BipartiteGraph} {label : String}
    {g : BipartiteEdges} (h : create start graph label = .ok g) :
    LabelFormat.parse label 2 = .ok g.format := by
  obtain ⟨ids, -, h⟩ := Except.bind_eq_ok_iff.mp h
  obtain ⟨format, hformat, h⟩ := Except.bind_eq_ok_iff.mp h
  cases h
  exact hformat

theorem BinaryMapping.parse_of_create {n m : Nat} {f : BinaryMapping}
    (h : create start n m label = .ok f) :
    LabelFormat.parse (label.getD defaultLabel) 2 = .ok f.format := by
  unfold create at h
  split_ifs at h
  · cases h
  · dsimp only at h
    split at h
    · cases h
    · obtain ⟨ids, -, h⟩ := Except.bind_eq_ok_iff.mp h
      obtain ⟨format, hformat, h⟩ := Except.bind_eq_ok_iff.mp h
      cases h
      exact hformat

end Create

/-! ## The labels of groups -/

theorem BipartiteEdges.oneLine_renderLabel {start : Nat} {graph : BipartiteGraph} {label : String}
    {g : BipartiteEdges} (h : create start graph label = .ok g) (hlabel : OneLine label)
    (index : Index) : OneLine (g.renderLabel index) :=
  LabelFormat.oneLine_render_numbers (LabelFormat.oneLine_of_parse (parse_of_create h) hlabel) index

namespace GroupSpec

/-- The text that the labels are made from, if there is one: a name, or the text of a format. -/
def text? : GroupSpec → Option String
  | singleton name => name
  | block _ label | words _ _ _ label | bipartite _ label | graph _ label | digraph _ _ label
  | mapping _ label | binaryMapping _ _ label => label

theorem oneLine_renderLabel {spec : GroupSpec} {start : Nat} {g : VarGroup}
    (h : spec.create start = .ok g) (htext : ∀ text ∈ spec.text?, OneLine text) (index : Index) :
    OneLine (g.renderLabel index) := by
  have hgiven : ∀ {label : Option String} {default : String}, (∀ text ∈ label, OneLine text) →
      OneLine default → OneLine (label.getD default) := by
    intro label default hlabel hdefault
    cases label with
    | none => exact hdefault
    | some label => exact hlabel label rfl
  have hedges : OneLine BipartiteEdges.defaultLabel := by decide
  cases spec with
  | singleton name =>
    obtain ⟨g, hg, rfl⟩ := Except.map_eq_ok_iff.mp h
    obtain ⟨id, -, rfl⟩ := Except.map_eq_ok_iff.mp hg
    refine hgiven htext ?_
    have hname : varText id = "x" ++ toString id := rfl
    rw [hname, oneLine_append]
    exact ⟨by decide, oneLine_toString id⟩
  | block ranges label =>
    obtain ⟨g, hg, rfl⟩ := Except.map_eq_ok_iff.mp h
    refine LabelFormat.oneLine_render_numbers (LabelFormat.oneLine_of_parse
      (Block.parseLabel_of_create hg) ?_) index
    exact hgiven htext (LabelFormat.oneLine_tuple (by decide) _)
  | words n k family label =>
    obtain ⟨g, hg, rfl⟩ := Except.map_eq_ok_iff.mp h
    refine LabelFormat.oneLine_render (LabelFormat.oneLine_of_parse
      (Words.parse_of_create hg) (hgiven htext (by decide))) ?_
    rw [List.forall_mem_singleton]
    exact oneLine_intercalate (by decide) (List.forall_mem_map.mpr fun i _ => oneLine_toString i)
  | bipartite graph label =>
    obtain ⟨g, hg, rfl⟩ := Except.map_eq_ok_iff.mp h
    exact BipartiteEdges.oneLine_renderLabel hg (hgiven htext hedges) index
  | graph graph label =>
    obtain ⟨g, hg, rfl⟩ := Except.map_eq_ok_iff.mp h
    obtain ⟨upper, -, hlayout⟩ := GraphEdges.exists_layout_of_create hg
    exact BipartiteEdges.oneLine_renderLabel hlayout (hgiven htext hedges) index
  | digraph graph order label =>
    obtain ⟨g, hg, rfl⟩ := Except.map_eq_ok_iff.mp h
    obtain ⟨upper, -, hlayout⟩ := DigraphEdges.exists_layout_of_create hg
    exact BipartiteEdges.oneLine_renderLabel hlayout (hgiven htext hedges) index
  | mapping graph label =>
    obtain ⟨f, hf, rfl⟩ := Except.map_eq_ok_iff.mp h
    obtain ⟨pairs, hpairs, rfl⟩ := Except.map_eq_ok_iff.mp hf
    exact BipartiteEdges.oneLine_renderLabel hpairs (hgiven htext (by decide)) index
  | binaryMapping n m label =>
    obtain ⟨f, hf, rfl⟩ := Except.map_eq_ok_iff.mp h
    refine LabelFormat.oneLine_render_numbers (LabelFormat.oneLine_of_parse
      (BinaryMapping.parse_of_create hf) (hgiven htext (by decide))) index

end GroupSpec

end Clausal
