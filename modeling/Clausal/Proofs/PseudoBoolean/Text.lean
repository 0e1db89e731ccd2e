import Clausal.Proofs.Clause
import Clausal.Proofs.Constraint
import Clausal.Proofs.Formula.Text

/-!
# Nothing is lost in an OPB file

Without comments an OPB file has one line for each constraint, after a first line with the numbers.
The words of a constraint are a weight and a literal for each term, then the relation and the bound
(`words_line`). A weight starts with a sign that no relation starts with, so these words tell where
the terms end, and all parts of the constraint can be taken from them (`line_injective`). For the
evaluation, too, a clause is the same as the constraint that it is written as.
-/

namespace Clausal

open Dimacs (isSpace not_space_of_mem_decimal signed_toString ended_space)

/-! ## Numbers and literals -/

theorem intText_injective {a b : Int} (h : (toString a).toList = (toString b).toList) : a = b :=
  (signed_toString a).unique (h ▸ signed_toString b)

namespace Lit

theorem toList_text (l : Lit) :
    l.text.toList = (if l.negated then ['~', 'x'] else ['x']) ++ (toString l.var).toList := by
  have hvar : varText l.var = "x" ++ toString l.var := rfl
  rw [text, hvar]
  split_ifs
  · rw [String.toList_append, String.toList_append]
    rfl
  · rw [String.toList_append]
    rfl

theorem toList_text_injective {l m : Lit} (h : l.text.toList = m.text.toList) : l = m := by
  rw [toList_text, toList_text] at h
  obtain ⟨v, s⟩ := l
  obtain ⟨w, t⟩ := m
  have hvar : ∀ {mark : List Char},
      mark ++ (toString v).toList = mark ++ (toString w).toList → v = w :=
    fun heq => natText_injective (List.append_cancel_left heq)
  cases s <;> cases t
  · exact congrArg positive (hvar h)
  · exact absurd (List.cons.inj h).1 (by decide)
  · exact absurd (List.cons.inj h).1 (by decide)
  · exact congrArg negative (hvar h)

theorem not_space_text (l : Lit) : ∀ c ∈ l.text.toList, isSpace c = false := by
  rw [toList_text, List.forall_mem_append]
  refine ⟨?_, not_space_of_mem_decimal (decimal_toString l.var)⟩
  split_ifs
  · exact List.forall_mem_cons.mpr ⟨rfl, List.forall_mem_singleton.mpr rfl⟩
  · exact List.forall_mem_singleton.mpr rfl

end Lit

namespace PbConstraint

/-! ## The words of a line -/

def termWords (term : Lit × Nat) : List (List Char) :=
  ['+' :: (toString term.2).toList, term.1.text.toList]

def boundWord (bound : Int) : List Char :=
  (toString bound).toList ++ [';']

/-- The words that a constraint is written with. -/
def lineWords (c : PbConstraint) : List (List Char) :=
  c.terms.flatMap termWords ++ [c.rel.symbol.toList, boundWord c.bound]

theorem toList_termText_append (term : Lit × Nat) (rest : List Char) :
    (termText term).toList ++ rest =
      ('+' :: (toString term.2).toList) ++ ' ' :: (term.1.text.toList ++ ' ' :: rest) := by
  have htext : termText term = "+" ++ toString term.2 ++ " " ++ term.1.text ++ " " := rfl
  rw [htext]
  simp only [String.toList_append, List.append_assoc]
  rfl

theorem toList_line (c : PbConstraint) : (line c).toList =
    c.terms.flatMap (fun term => (termText term).toList) ++
      (c.rel.symbol.toList ++ ' ' :: boundWord c.bound) := by
  have htext : line c = String.join (c.terms.map termText) ++ c.rel.symbol ++
    (" " ++ toString c.bound ++ ";") := rfl
  rw [htext, String.toList_append, String.toList_append, String.toList_join, List.flatMap_map,
    List.append_assoc, String.toList_append, String.toList_append]
  rfl

theorem not_space_boundWord (bound : Int) : ∀ c ∈ boundWord bound, isSpace c = false := by
  rw [boundWord, List.forall_mem_append]
  exact ⟨(signed_toString bound).not_space, List.forall_mem_singleton.mpr rfl⟩

theorem words_line (c : PbConstraint) : words isSpace (line c).toList = c.lineWords := by
  rw [toList_line, lineWords]
  induction c.terms with
  | nil =>
    have hsymbol : c.rel.symbol.toList ≠ [] ∧ ∀ ch ∈ c.rel.symbol.toList, isSpace ch = false := by
      cases c.rel with
      | ge =>
        have hend : ∀ ch ∈ ['='], isSpace ch = false := List.forall_mem_singleton.mpr rfl
        exact ⟨List.cons_ne_nil _ _, List.forall_mem_cons.mpr ⟨rfl, hend⟩⟩
      | eq => exact ⟨List.cons_ne_nil _ _, List.forall_mem_singleton.mpr rfl⟩
    have hbound : boundWord c.bound ≠ [] := by
      rw [boundWord]
      exact List.concat_ne_nil _ _
    rw [List.flatMap_nil, List.nil_append, words_append hsymbol.2 hsymbol.1 (ended_space _),
      words_cons_of_sep rfl, words_of_forall (not_space_boundWord c.bound) hbound]
    rfl
  | cons term terms ih =>
    have hweight : ∀ ch ∈ '+' :: (toString term.2).toList, isSpace ch = false :=
      List.forall_mem_cons.mpr ⟨rfl, not_space_of_mem_decimal (decimal_toString term.2)⟩
    have hlit : term.1.text.toList ≠ [] := by
      rw [Lit.toList_text]
      cases term.1.negated <;> exact List.cons_ne_nil _ _
    rw [List.flatMap_cons, List.append_assoc, toList_termText_append,
      words_append hweight (List.cons_ne_nil _ _) (ended_space _), words_cons_of_sep rfl,
      words_append term.1.not_space_text hlit (ended_space _), words_cons_of_sep rfl, ih]
    rfl

theorem toList_symbol_injective {rel rel' : PbRelation}
    (h : rel.symbol.toList = rel'.symbol.toList) : rel = rel' := by
  cases rel <;> cases rel' <;> first | rfl | exact absurd h (by decide)

theorem lineWords_injective {c c' : PbConstraint} (h : c.lineWords = c'.lineWords) : c = c' := by
  -- A weight starts with a sign, a relation does not.
  have hend : ∀ (rel : PbRelation) (digits : List Char), rel.symbol.toList ≠ '+' :: digits := by
    intro rel digits heq
    cases rel <;> exact absurd (List.cons.inj heq).1 (by decide)
  obtain ⟨terms, rel, bound⟩ := c
  obtain ⟨terms', rel', bound'⟩ := c'
  simp only [lineWords] at h
  rw [mk.injEq]
  induction terms generalizing terms' with
  | nil =>
    cases terms' with
    | nil =>
      obtain ⟨hrel, hrest⟩ := List.cons.inj h
      have hbound := List.append_cancel_right (List.cons.inj hrest).1
      exact ⟨rfl, toList_symbol_injective hrel, intText_injective hbound⟩
    | cons term terms' => exact absurd (List.cons.inj h).1 (hend rel _)
  | cons term terms ih =>
    cases terms' with
    | nil => exact absurd (List.cons.inj h).1.symm (hend rel' _)
    | cons term' terms' =>
      obtain ⟨hweight, hrest⟩ := List.cons.inj h
      obtain ⟨hlit, hrest⟩ := List.cons.inj hrest
      obtain ⟨rfl, hequal⟩ := ih terms' hrest
      have hterm : term = term' := Prod.ext (Lit.toList_text_injective hlit)
        (natText_injective (List.cons.inj hweight).2)
      exact ⟨by rw [hterm], hequal⟩

theorem line_injective {c c' : PbConstraint} (h : (line c).toList = (line c').toList) : c = c' := by
  apply lineWords_injective
  rw [← words_line, ← words_line, h]

/-! ## The lines of a file -/

theorem oneLine_of_not_space {text : String} (h : ∀ c ∈ text.toList, isSpace c = false) :
    OneLine text :=
  fun hmem => absurd (h _ hmem) (by decide)

theorem oneLine_line (c : PbConstraint) : OneLine (line c) := by
  have hterms : ∀ text ∈ c.terms.map termText, OneLine text := by
    rw [List.forall_mem_map]
    intro term _
    have htext : termText term = "+" ++ toString term.2 ++ " " ++ term.1.text ++ " " := rfl
    rw [htext, oneLine_append, oneLine_append, oneLine_append, oneLine_append]
    exact ⟨⟨⟨⟨by decide, oneLine_toString term.2⟩, by decide⟩,
      oneLine_of_not_space term.1.not_space_text⟩, by decide⟩
  have hsymbol : OneLine c.rel.symbol := by
    cases c.rel <;> decide
  have htext : line c = String.join (c.terms.map termText) ++ c.rel.symbol ++
    (" " ++ toString c.bound ++ ";") := rfl
  rw [htext, oneLine_append, oneLine_append, oneLine_append, oneLine_append]
  exact ⟨⟨oneLine_join hterms, hsymbol⟩,
    ⟨by decide, oneLine_of_not_space (signed_toString c.bound).not_space⟩, by decide⟩

theorem oneLine_lines (vars : Nat) (constraints : List PbConstraint) :
    ∀ text ∈ lines none none vars constraints, OneLine text := by
  rw [lines, comments, List.forall_mem_append, List.forall_mem_cons, List.forall_mem_map]
  exact ⟨⟨(isComment_countLine vars constraints.length).oneLine, List.forall_mem_nil _⟩, fun c _ => oneLine_line c⟩

theorem splitOn_print (vars : Nat) (constraints : List PbConstraint) :
    (print none none vars constraints).toList.splitOn '\n' =
      (countLine vars constraints.length).toList ::
        (constraints.map fun c => (line c).toList) ++ [[]] := by
  have hsplit := splitOn_unlines_append (oneLine_lines vars constraints) ""
  rw [String.append_empty] at hsplit
  rw [print, hsplit, lines, comments, List.map_append, List.map_map]
  rfl

theorem count_print (vars : Nat) (constraints : List PbConstraint) :
    (print none none vars constraints).toList.count '\n' = constraints.length + 1 := by
  rw [print, count_unlines (oneLine_lines vars constraints), lines, comments, List.length_append,
    List.length_map]
  exact Nat.add_comm 1 _

theorem countLine_injective {vars vars' constraints constraints' : Nat}
    (h : (countLine vars constraints).toList = (countLine vars' constraints').toList) :
    vars = vars' := by
  have htext : ∀ vars constraints : Nat, (countLine vars constraints).toList =
      "* #variable= ".toList ++
        ((toString vars).toList ++ ' ' :: ("#constraint= " ++ toString constraints).toList) := by
    intro vars constraints
    show ("* #variable= " ++ toString vars ++ " #constraint= " ++ toString constraints).toList = _
    simp only [String.toList_append, List.append_assoc]
    rfl
  have hspace : ∀ {rest : List Char}, ∀ c ∈ (' ' :: rest).head?, c.isDigit = false := by
    rintro rest c ⟨⟩
    decide
  rw [htext, htext] at h
  exact (natText_append_injective hspace hspace (List.append_cancel_left h)).1

theorem print_injective :
    Function.Injective fun file : Nat × List PbConstraint => print none none file.1 file.2 := by
  rintro ⟨vars, constraints⟩ ⟨vars', constraints'⟩ h
  have hsplit := congrArg (fun text : String => text.toList.splitOn '\n') h
  simp only [splitOn_print] at hsplit
  obtain ⟨hfirst, hrest⟩ := List.cons.inj hsplit
  have hlines := List.append_cancel_right hrest
  have hinjective : Function.Injective fun c : PbConstraint => (line c).toList :=
    fun _ _ => line_injective
  rw [countLine_injective hfirst, hinjective.list_map hlines]

/-! ## What a file tells -/

/-- **Nothing is lost in an OPB file.** Without comments the text tells the number of variables and
all constraints, in their order, and has one line more than there are constraints. In the same way it
tells the clauses of a formula of clauses, and the constraint that is written for a clause is
satisfied by the assignments that satisfy the clause. -/
theorem print_loses_nothing :
    (Function.Injective fun file : Nat × List PbConstraint => print none none file.1 file.2) ∧
    (∀ (vars : Nat) (constraints : List PbConstraint),
      (print none none vars constraints).toList.count '\n' = constraints.length + 1 ∧
        (print none none vars constraints).toList.getLast? = some '\n') ∧
    ∀ f : CnfFormula,
      (∀ g : CnfFormula, f.toOpb ⟨false, false⟩ = g.toOpb ⟨false, false⟩ ↔
        f.vars = g.vars ∧ f.constraints = g.constraints) ∧
      ∀ c ∈ f.constraints, c.length < litLimit →
        ∀ a : Assignment, (Constraint.toPb c).isSat a = c.isSat a := by
  refine ⟨print_injective, fun vars constraints => ⟨?_, ?_⟩, fun f => ⟨fun g => ?_, ?_⟩⟩
  · exact count_print vars constraints
  · exact getLast?_unlines (List.cons_ne_nil _ _)
  · have hopb : ∀ f : CnfFormula, f.toOpb ⟨false, false⟩ =
        print none none f.vars (f.constraints.map Constraint.toPb) := fun _ => rfl
    have hinjective := (FaithfulConstraint.toPb_injective (K := Clause)).list_map
    constructor
    · intro h
      rw [hopb, hopb] at h
      obtain ⟨hvars, hconstraints⟩ := Prod.mk.inj (print_injective h)
      exact ⟨hvars, hinjective hconstraints⟩
    · rintro ⟨hvars, hconstraints⟩
      rw [hopb, hopb, hvars, hconstraints]
  · intro c _ hlength a
    exact isSat_ofClause hlength a

/-- A clause with a literal twice and an opposite pair, under an assignment that leaves a variable
open. -/
theorem print_loses_nothing_open :
    let c : Clause := [.positive 2, .negative 1, .negative 2, .negative 1]
    let f : CnfFormula := Collector.addClauses .empty [c, []]
    let a : Assignment := .ofValues [.no]
    c.length < litLimit ∧
      f.toOpb ⟨false, false⟩ =
        "* #variable= 2 #constraint= 2\n+1 x2 +1 ~x1 +1 ~x2 +1 ~x1 >= 1;\n>= 1;\n" ∧
      (ofClause c).isSat a = c.isSat a ∧ c.isSat a = true ∧
      c.isSat (.ofValues [.yes]) = false := by
  intro c f a
  have hlength : c.length < litLimit := by decide
  have hmem : c ∈ f.constraints := by decide
  have hsat := (print_loses_nothing.2.2 f).2 c hmem hlength a
  exact ⟨hlength, by decide +kernel, hsat, by decide, by decide⟩

end PbConstraint

end Clausal
