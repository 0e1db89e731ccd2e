import Clausal.Formula.Text
import Clausal.Proofs.Dimacs.RoundTrip
import Clausal.Proofs.Formula.Built
import Clausal.Proofs.Label

/-!
# Comments say nothing

A formula is written with comments or without. Deleting the comments from a text, and reading a
DIMACS file, are two views of a text that skip comments at its start (`SkipsComments`). What the
header says is printed without line feeds, so no such view depends on it. Labels are printed as they
are: they do not matter as long as the names and formats that were given are on one line
(`Draft.Built.oneLine_renderLabel`), and else they may.
-/

namespace Clausal

/-! ## Views that skip comments -/

/-- A view of texts to which comments at the start of a text make no difference. -/
def SkipsComments {α : Type} (mark : Char) (view : String → α) : Prop :=
  ∀ (lines : List String) (rest : String), (∀ line ∈ lines, IsComment mark line) →
    view (unlines lines ++ rest) = view rest

theorem skipsComments_withoutLines (mark : Char) : SkipsComments mark (withoutLines mark) :=
  fun _ rest h => withoutLines_unlines_append h rest

/-- The header never makes a difference, and labels on one line make none. -/
theorem SkipsComments.congr {α : Type} {mark : Char} {view : String → α}
    (hview : SkipsComments mark view) (hmark : mark ≠ '\n') (header header' : Option Header)
    {labels labels' : Option (List String)} (h : labels = labels' ∨
      (∀ ls ∈ labels, ∀ label ∈ ls, OneLine label) ∧ ∀ ls ∈ labels', ∀ label ∈ ls, OneLine label)
    (rest : String) :
    view (unlines (comments (String.singleton mark) header labels) ++ rest) =
      view (unlines (comments (String.singleton mark) header' labels') ++ rest) := by
  rcases h with rfl | ⟨hlabels, hlabels'⟩
  · have hsplit : ∀ header : Option Header, comments (String.singleton mark) header labels =
        comments (String.singleton mark) header none ++
          comments (String.singleton mark) none labels := by
      intro header
      simp [comments]
    have hcomment : ∀ header : Option Header,
        ∀ line ∈ comments (String.singleton mark) header none, IsComment mark line := by
      intro header line hline
      refine isComment_of_mem_comments hmark (fun ls hls => ?_) hline
      cases hls
    rw [hsplit header, hsplit header', unlines_append, unlines_append, String.append_assoc,
      String.append_assoc, hview _ _ (hcomment header), hview _ _ (hcomment header')]
  · rw [hview _ _ fun _ hline => isComment_of_mem_comments hmark hlabels hline,
      hview _ _ fun _ hline => isComment_of_mem_comments hmark hlabels' hline]

/-! ## DIMACS files -/

namespace Dimacs

theorem print_eq (header : Option Header) (labels : Option (List String)) (vars : Nat)
    (clauses : List Clause) : print header labels vars clauses =
      unlines (comments "c" header labels) ++ print none none vars clauses := by
  rw [print, lines, unlines_append]
  rfl

theorem skipsComments_content :
    SkipsComments 'c' fun text => content (text.toList.splitOn '\n') := by
  intro lines rest h
  dsimp only
  rw [splitOn_unlines_append fun line hline => (h line hline).oneLine]
  induction lines with
  | nil => rfl
  | cons line lines ih =>
    rw [List.forall_mem_cons] at h
    have hskipped : Skipped line.toList :=
      Or.inr (head_trimBlank_of_head h.1.head (by decide))
    rw [List.map_cons, List.cons_append, content_cons_of_skipped hskipped, ih h.2]

theorem parse_of_content_eq {text text' : String}
    (h : content (text.toList.splitOn '\n') = content (text'.toList.splitOn '\n'))
    {result : Nat × List Clause} (hparse : parse text.toByteArray = .ok result) :
    parse text'.toByteArray = .ok result := by
  obtain ⟨n, clauses⟩ := result
  obtain ⟨s, m, values, hs, hdescribes, hcomplete⟩ := parse_eq_ok_iff.mp hparse
  cases String.toByteArray_inj.mp hs
  rw [Describes, h] at hdescribes
  exact parse_eq_ok_iff.mpr ⟨text', m, values, rfl, hdescribes, hcomplete⟩

end Dimacs

/-! ## OPB files -/

namespace PbConstraint

theorem isComment_countLine (vars constraints : Nat) :
    IsComment '*' (countLine vars constraints) := by
  have htext : countLine vars constraints = String.singleton '*' ++ (" #variable= " ++
      toString vars ++ " #constraint= " ++ toString constraints) := by
    show "* #variable= " ++ toString vars ++ " #constraint= " ++ toString constraints = _
    rw [← String.append_assoc, ← String.append_assoc, ← String.append_assoc]
    rfl
  rw [htext]
  apply isComment_append (by decide)
  rw [oneLine_append, oneLine_append, oneLine_append]
  exact ⟨⟨⟨by decide, oneLine_toString vars⟩, by decide⟩, oneLine_toString constraints⟩

/-- The first line of a file is deleted with its comments. -/
theorem withoutLines_print (header : Option Header) (labels : Option (List String)) (vars : Nat)
    (constraints : List PbConstraint) : withoutLines '*' (print header labels vars constraints) =
      withoutLines '*' (unlines (comments "*" header labels) ++ unlines (constraints.map line)) := by
  have hlines : lines header labels vars constraints =
      [countLine vars constraints.length] ++ (comments "*" header labels ++ constraints.map line) :=
    rfl
  rw [print, hlines, unlines_append, unlines_append]
  apply skipsComments_withoutLines
  rw [List.forall_mem_singleton]
  exact isComment_countLine vars constraints.length

end PbConstraint

/-! ## Labels on one line -/

theorem Registry.oneLine_labelsFrom {format : LabelFormat} (hformat : format.OneLine)
    {groups : List (Handle VarGroup)}
    (hgroups : ∀ group ∈ groups, ∀ index, OneLine (group.value.renderLabel index))
    (vars next : Nat) : ∀ text ∈ labelsFrom format vars next groups, OneLine text := by
  have hdefault : ∀ first size, ∀ text ∈ defaultLabels format first size, OneLine text := by
    intro first size
    rw [defaultLabels, List.forall_mem_map]
    intro id _
    exact LabelFormat.oneLine_render_numbers hformat [id]
  induction groups generalizing next with
  | nil => exact hdefault _ _
  | cons group groups ih =>
    rw [List.forall_mem_cons] at hgroups
    have hgroup : ∀ text ∈ groupLabels format group.value, OneLine text := by
      rw [groupLabels]
      split_ifs
      · exact hdefault _ _
      · split
        · rename_i labels hlabels
          obtain ⟨is, -, rfl⟩ := Except.map_eq_ok_iff.mp hlabels
          exact List.forall_mem_map.mpr fun index _ => hgroups.1 index
        · exact hdefault _ _
    rw [labelsFrom]
    split_ifs
    · exact ih hgroups.2 next
    · rw [List.forall_mem_append, List.forall_mem_append]
      exact ⟨⟨hdefault _ _, hgroup⟩, ih hgroups.2 _⟩

/-- The name or the format of a group is on one line. -/
def Operation.OneLine (op : Operation) : Prop :=
  ∀ spec, op.spec? = some spec → ∀ text ∈ spec.text?, Clausal.OneLine text

namespace Formula

variable {K : Type} {f : Formula K}

theorem oneLine_writtenLabels
    (h : ∀ group ∈ f.registry.groups, ∀ index, OneLine (group.value.renderLabel index))
    (opts : WriteOptions) : ∀ ls ∈ f.writtenLabels opts, ∀ label ∈ ls, OneLine label := by
  rw [writtenLabels]
  split_ifs
  · rintro ls ⟨⟩
    exact Registry.oneLine_labelsFrom LabelFormat.oneLine_plain h f.vars 1
  · nofun

theorem writtenLabels_congr (f : Formula K) {opts opts' : WriteOptions}
    (h : opts.labels = opts'.labels) : f.writtenLabels opts = f.writtenLabels opts' := by
  rw [writtenLabels, writtenLabels, h]

end Formula

namespace Draft

def Call.OneLine : Call → Prop
  | .run op => op.OneLine
  | .addConstraint _ _ _ | .labels _ => True

def toOpb (opts : WriteOptions) : Draft → String
  | cnf f => f.toOpb opts
  | opb f => f.toOpb opts

theorem Built.oneLine_renderLabel {d : Draft} (h : d.Built Call.OneLine) :
    ∀ group ∈ d.groups, ∀ index, OneLine (group.value.renderLabel index) := by
  refine h.forall_groups (P := fun g => ∀ index, OneLine (g.renderLabel index)) ?_
  intro op spec start g hop hspec hcreate
  exact GroupSpec.oneLine_renderLabel hcreate (hop spec hspec)

/-- **Comments say nothing.** Which comments a formula is written with makes no difference to what
is left when the comments are deleted, nor to what a DIMACS file is read as. This holds for headers
with any texts, and for labels if the names and formats that were given to the formula are on one
line. -/
theorem comments_say_nothing {d : Draft} {opts opts' : WriteOptions}
    (h : opts.labels = opts'.labels ∨ d.Built Call.OneLine) :
    withoutLines '*' (d.toOpb opts) = withoutLines '*' (d.toOpb opts') ∧
    ∀ f, d = .cnf f →
      withoutLines 'c' (f.toDimacs opts) = withoutLines 'c' (f.toDimacs opts') ∧
      ∀ result, Dimacs.parse (f.toDimacs opts).toByteArray = .ok result ↔
        Dimacs.parse (f.toDimacs opts').toByteArray = .ok result := by
  have hlabels : ∀ {K : Type} (f : Formula K), d.groups = f.registry.groups →
      f.writtenLabels opts = f.writtenLabels opts' ∨
        (∀ ls ∈ f.writtenLabels opts, ∀ label ∈ ls, OneLine label) ∧
          ∀ ls ∈ f.writtenLabels opts', ∀ label ∈ ls, OneLine label := by
    intro K f hgroups
    refine h.imp f.writtenLabels_congr fun hbuilt => ?_
    have hrender := hbuilt.oneLine_renderLabel
    rw [hgroups] at hrender
    exact ⟨Formula.oneLine_writtenLabels hrender opts, Formula.oneLine_writtenLabels hrender opts'⟩
  have hopb : ∀ {K : Type} [Constraint K] (f : Formula K), d.groups = f.registry.groups →
      withoutLines '*' (f.toOpb opts) = withoutLines '*' (f.toOpb opts') := by
    intro K _ f hgroups
    rw [Formula.toOpb, Formula.toOpb, PbConstraint.withoutLines_print,
      PbConstraint.withoutLines_print]
    exact (skipsComments_withoutLines '*').congr (by decide) _ _ (hlabels f hgroups) _
  constructor
  · cases d with
    | cnf f => exact hopb f rfl
    | opb f => exact hopb f rfl
  · rintro f rfl
    rw [Formula.toDimacs, Formula.toDimacs, Dimacs.print_eq, Dimacs.print_eq (f.writtenHeader opts')]
    have hcontent := Dimacs.skipsComments_content.congr (by decide) (f.writtenHeader opts)
      (f.writtenHeader opts') (hlabels f rfl) (Dimacs.print none none f.vars f.constraints)
    refine ⟨?_, fun result => ⟨?_, ?_⟩⟩
    · exact (skipsComments_withoutLines 'c').congr (by decide) _ _ (hlabels f rfl) _
    · exact Dimacs.parse_of_content_eq hcontent
    · exact Dimacs.parse_of_content_eq hcontent.symm

/-- A header on two lines and a named variable. -/
theorem comments_say_nothing_title : ∃ f : CnfFormula, (Draft.cnf f).Built Call.OneLine ∧
    f.toDimacs ⟨true, true⟩ = "c title: a?1 0\nc\nc varname 1 x\nc\np cnf 1 1\n1 0\n" ∧
    withoutLines 'c' (f.toDimacs ⟨true, true⟩) = "p cnf 1 1\n1 0\n" ∧
    Dimacs.parse (f.toDimacs ⟨true, true⟩).toByteArray = .ok (1, [[.positive 1]]) := by
  let ops : List Operation :=
    [.setHeader "title" "a\n1 0", .newVariable (some "x"), .addClause [.positive 1]]
  let f : CnfFormula := (Operation.runAll ops 0 .empty).2
  have hname : OneLine "x" := by decide
  have hops : ∀ op ∈ ops, Call.OneLine (.run op) := by
    simpa [ops, Call.OneLine, Operation.OneLine, Operation.spec?, GroupSpec.text?] using hname
  have hbuilt : (Draft.cnf f).Built Call.OneLine := Built.cnf.runAll hops 0
  obtain ⟨-, hdimacs⟩ := @comments_say_nothing _ ⟨true, true⟩ ⟨false, false⟩ (Or.inr hbuilt)
  obtain ⟨htext, hparse⟩ := hdimacs f rfl
  refine ⟨f, hbuilt, by decide +kernel, htext.trans (by decide +kernel), ?_⟩
  exact (hparse _).mpr (by decide +kernel)

/-- The second line of a name is a line of the file. -/
theorem labels_say_something : ∃ f : CnfFormula, (Draft.cnf f).Built Call.Made ∧
    f.toDimacs ⟨false, true⟩ = "c varname 1 a\n1 0\nc\np cnf 1 0\n" ∧
    withoutLines 'c' (f.toDimacs ⟨false, true⟩) ≠ withoutLines 'c' (f.toDimacs ⟨false, false⟩) ∧
    withoutLines '*' (f.toOpb ⟨false, true⟩) ≠ withoutLines '*' (f.toOpb ⟨false, false⟩) ∧
    Dimacs.parse (f.toDimacs ⟨false, true⟩).toByteArray = .error (.clauseBeforeProblemLine 2) ∧
    Dimacs.parse (f.toDimacs ⟨false, false⟩).toByteArray = .ok (1, []) := by
  let ops : List Operation := [.newVariable (some "a\n1 0")]
  let f : CnfFormula := (Operation.runAll ops 0 .empty).2
  have hops : ∀ op ∈ ops, Call.Made (.run op) := by
    simp [ops, Call.Made, Operation.Made, Operation.spec?, GroupSpec.Reachable]
  refine ⟨f, Built.cnf.runAll hops 0, ?_, ?_, ?_, ?_, ?_⟩
  all_goals decide +kernel

end Draft

end Clausal
