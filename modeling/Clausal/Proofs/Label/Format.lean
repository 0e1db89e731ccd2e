import Clausal.Label
import Clausal.Proofs.Limits
import Clausal.Proofs.Outcome
import Clausal.Proofs.Text.Decimal

/-!
# How formats are read

A format is read from left to right: an opening brace is doubled or starts a placeholder, which
ends at the next closing brace. `Reads` says so rule by rule, and every text is read in one way
(`reads_iff`). A format is refused if something is wrong with its tokens (`Faulty`): a placeholder
does not end, its name is no number, or there is no argument that it refers to.

A format can be written part by part, with the braces of its texts doubled (`Part.write`). However
the parts follow each other, reading takes them apart again, because a doubled brace is read first
(`Part.reads_write_append`), so what is filled in is found between the texts.
-/

namespace Clausal

namespace LabelFormat

/-! ## Tokens -/

/-- How a text is read from left to right. -/
inductive Reads : List Char → List Token → Prop
  | done : Reads [] []
  | char {c : Char} {rest : List Char} {ts : List Token} : c ≠ '\x7b' → c ≠ '\x7d' →
      Reads rest ts → Reads (c :: rest) (.char c :: ts)
  | openPair {rest : List Char} {ts : List Token} :
      Reads rest ts → Reads ('\x7b' :: '\x7b' :: rest) (.char '\x7b' :: ts)
  | closePair {rest : List Char} {ts : List Token} :
      Reads rest ts → Reads ('\x7d' :: '\x7d' :: rest) (.char '\x7d' :: ts)
  | close {rest : List Char} {ts : List Token} : rest.head? ≠ some '\x7d' →
      Reads rest ts → Reads ('\x7d' :: rest) (.char '\x7d' :: ts)
  | placeholder {content rest : List Char} {ts : List Token} : content.head? ≠ some '\x7b' →
      '\x7d' ∉ content → Reads rest ts →
      Reads ('\x7b' :: (content ++ '\x7d' :: rest)) (.placeholder content :: ts)
  | unterminated {rest : List Char} : rest.head? ≠ some '\x7b' → '\x7d' ∉ rest →
      Reads ('\x7b' :: rest) [.unterminated]

section Tokens

variable {rest : List Char}

theorem tokens_char {c : Char} (hopen : c ≠ '\x7b') (hclose : c ≠ '\x7d') :
    tokens none (c :: rest) = .char c :: tokens none rest := by
  rw [tokens.eq_def]
  simp only [if_neg hopen, if_neg hclose]

theorem tokens_open_open (rest : List Char) :
    tokens none ('\x7b' :: '\x7b' :: rest) = .char '\x7b' :: tokens none rest := by
  simp [tokens]

theorem tokens_open (h : rest.head? ≠ some '\x7b') :
    tokens none ('\x7b' :: rest) = tokens (some []) rest := by
  cases rest with
  | nil => simp [tokens]
  | cons d rest =>
    have hd : d ≠ '\x7b' := by simpa using h
    simp [tokens, hd]

theorem tokens_close_close (rest : List Char) :
    tokens none ('\x7d' :: '\x7d' :: rest) = .char '\x7d' :: tokens none rest := by
  simp [tokens]

theorem tokens_close (h : rest.head? ≠ some '\x7d') :
    tokens none ('\x7d' :: rest) = .char '\x7d' :: tokens none rest := by
  cases rest with
  | nil => simp [tokens]
  | cons d rest =>
    have hd : d ≠ '\x7d' := by simpa using h
    simp [tokens, hd]

theorem tokens_content {content more : List Char} (h : '\x7d' ∉ more) :
    tokens (some content) (more ++ '\x7d' :: rest) =
      .placeholder (content.reverse ++ more) :: tokens none rest := by
  induction more generalizing content with
  | nil => simp [tokens]
  | cons c more ih =>
    rw [List.mem_cons, not_or] at h
    rw [List.cons_append, tokens, if_neg (Ne.symm h.1), ih h.2]
    simp

theorem tokens_content_of_not_mem {content text : List Char} (h : '\x7d' ∉ text) :
    tokens (some content) text = [.unterminated] := by
  induction text generalizing content with
  | nil => simp [tokens]
  | cons c text ih =>
    rw [List.mem_cons, not_or] at h
    rw [tokens, if_neg (Ne.symm h.1), ih h.2]

end Tokens

theorem Reads.tokens_eq {text : List Char} {ts : List Token} (h : Reads text ts) :
    tokens none text = ts := by
  induction h with
  | done => rw [tokens]
  | char hopen hclose _ ih => rw [tokens_char hopen hclose, ih]
  | openPair _ ih => rw [tokens_open_open, ih]
  | closePair _ ih => rw [tokens_close_close, ih]
  | close hhead _ ih => rw [tokens_close hhead, ih]
  | @placeholder content rest ts hhead hcontent _ ih =>
    have hhead' : (content ++ '\x7d' :: rest).head? ≠ some '\x7b' := by
      cases content with
      | nil => simp
      | cons c content => exact hhead
    rw [tokens_open hhead', tokens_content hcontent, ih, List.reverse_nil, List.nil_append]
  | unterminated hhead hrest => rw [tokens_open hhead, tokens_content_of_not_mem hrest]

theorem exists_reads (text : List Char) : ∃ ts, Reads text ts := by
  induction hn : text.length using Nat.strong_induction_on generalizing text with
  | _ n ih =>
    subst hn
    cases text with
    | nil => exact ⟨[], .done⟩
    | cons c rest =>
      have hrest : ∃ ts, Reads rest ts := ih _ (by simp) rest rfl
      by_cases hopen : c = '\x7b'
      · subst hopen
        by_cases hhead : rest.head? = some '\x7b'
        · obtain ⟨rest, rfl⟩ := List.head?_eq_some_iff.mp hhead
          obtain ⟨ts, hts⟩ := ih rest.length (by simp only [List.length_cons]; omega) rest rfl
          exact ⟨_, .openPair hts⟩
        · by_cases hmem : '\x7d' ∈ rest
          · obtain ⟨content, rest, rfl, hcontent⟩ := List.eq_append_cons_of_mem hmem
            have hlt : rest.length < ('\x7b' :: (content ++ '\x7d' :: rest)).length := by
              simp only [List.length_cons, List.length_append]
              omega
            obtain ⟨ts, hts⟩ := ih rest.length hlt rest rfl
            refine ⟨_, .placeholder (fun hc => hhead ?_) hcontent hts⟩
            rw [List.head?_append, hc, Option.some_or]
          · exact ⟨_, .unterminated hhead hmem⟩
      · by_cases hclose : c = '\x7d'
        · subst hclose
          by_cases hhead : rest.head? = some '\x7d'
          · obtain ⟨rest, rfl⟩ := List.head?_eq_some_iff.mp hhead
            obtain ⟨ts, hts⟩ := ih rest.length (by simp only [List.length_cons]; omega) rest rfl
            exact ⟨_, .closePair hts⟩
          · obtain ⟨ts, hts⟩ := hrest
            exact ⟨_, .close hhead hts⟩
        · obtain ⟨ts, hts⟩ := hrest
          exact ⟨_, .char hopen hclose hts⟩

theorem reads_iff {text : List Char} {ts : List Token} :
    Reads text ts ↔ ts = tokens none text := by
  constructor
  · exact fun h => h.tokens_eq.symm
  · rintro rfl
    obtain ⟨ts, hts⟩ := exists_reads text
    exact hts.tokens_eq ▸ hts

/-! ## Faults -/

/-- The part of a placeholder before a colon. -/
def name (content : List Char) : List Char := content.takeWhile (· ≠ ':')

/-- Some characters write the number of an argument, maybe with a plus sign in front. -/
def Numeral (i : Nat) (chars : List Char) : Prop :=
  Decimal i chars ∨ ∃ digits, chars = '+' :: digits ∧ Decimal i digits

theorem not_decimal_plus {i : Nat} {digits : List Char} : ¬ Decimal i ('+' :: digits) :=
  fun h => absurd (h.isDigit _ List.mem_cons_self) (by decide)

theorem Numeral.unique {i j : Nat} {chars : List Char} (hi : Numeral i chars)
    (hj : Numeral j chars) : i = j := by
  rcases hi with hi | ⟨digits, rfl, hi⟩
  · rcases hj with hj | ⟨digits, rfl, -⟩
    · exact hi.unique hj
    · exact absurd hi not_decimal_plus
  · rcases hj with hj | ⟨digits', hdigits, hj⟩
    · exact absurd hj not_decimal_plus
    · cases hdigits
      exact hi.unique hj

theorem Numeral.ne_nil {i : Nat} {chars : List Char} (h : Numeral i chars) : chars ≠ [] := by
  rcases h with h | ⟨digits, rfl, -⟩
  · exact h.ne_nil
  · exact List.cons_ne_nil _ _

theorem position?_eq_some_iff {chars : List Char} {i : Nat} :
    position? chars = some i ↔ Numeral i chars ∧ i < wordSize := by
  have hword : ∀ digits : List Char, (digitsValue? digits).bind checkedWord = some i ↔
      Decimal i digits ∧ i < wordSize := by
    intro digits
    simp only [Option.bind_eq_some_iff, digitsValue?_eq_some_iff, checkedWord_eq_some_iff]
    constructor
    · rintro ⟨j, hj, rfl, hlt⟩
      exact ⟨hj, hlt⟩
    · rintro ⟨hi, hlt⟩
      exact ⟨i, hi, rfl, hlt⟩
  unfold position?
  rw [hword]
  split
  · next digits =>
    simp [Numeral, not_decimal_plus]
  · next hplus =>
    have hnone : ¬ ∃ digits, chars = '+' :: digits ∧ Decimal i digits := by
      rintro ⟨digits, hchars, -⟩
      exact hplus digits hchars
    rw [Numeral, or_iff_left hnone]

/-- Whether a token is a placeholder without a name. -/
def isUnnamed : Token → Bool
  | .placeholder content => (name content).isEmpty
  | _ => false

/-- A placeholder after some tokens refers to an argument: to the one with its number or, without a
name, to the next one in order. -/
def Refers (before : List Token) (content : List Char) (i : Nat) : Prop :=
  name content = [] ∧ i = before.countP isUnnamed ∨ Numeral i (name content)

/-- What can be wrong with a token after some others. -/
inductive Fault (arguments : Nat) (before : List Token) : Token → Prop
  | unterminated : Fault arguments before .unterminated
  | unreadable {content : List Char} : name content ≠ [] →
      (∀ i < wordSize, ¬ Numeral i (name content)) → Fault arguments before (.placeholder content)
  | beyond {content : List Char} {i : Nat} : Refers before content i → arguments ≤ i →
      Fault arguments before (.placeholder content)

/-- Something is wrong with one of the tokens of a format. -/
def Faulty (arguments : Nat) (ts : List Token) : Prop :=
  ∃ before tok after, ts = before ++ tok :: after ∧ Fault arguments before tok

theorem exists_split_cons_iff {α : Type} {P : List α → α → Prop} {x : α} {xs : List α} :
    (∃ before y after, x :: xs = before ++ y :: after ∧ P before y) ↔
      P [] x ∨ ∃ before y after, xs = before ++ y :: after ∧ P (x :: before) y := by
  constructor
  · rintro ⟨before, y, after, hsplit, hP⟩
    cases before with
    | nil =>
      cases hsplit
      exact Or.inl hP
    | cons z before =>
      obtain ⟨rfl, rfl⟩ := List.cons.inj hsplit
      exact Or.inr ⟨before, y, after, rfl, hP⟩
  · rintro (hP | ⟨before, y, after, rfl, hP⟩)
    · exact ⟨[], x, xs, rfl, hP⟩
    · exact ⟨x :: before, y, after, rfl, hP⟩

section Resolve

variable {arguments : Nat} {before : List Token} {content : List Char}

theorem fault_unnamed_iff (hname : name content = []) :
    Fault arguments before (.placeholder content) ↔ arguments ≤ before.countP isUnnamed := by
  constructor
  · rintro (_ | ⟨hne, -⟩ | ⟨⟨-, rfl⟩ | hnumeral, hle⟩)
    · exact absurd hname hne
    · exact hle
    · exact absurd hname hnumeral.ne_nil
  · exact .beyond (Or.inl ⟨hname, rfl⟩)

theorem fault_named_iff (hname : name content ≠ []) :
    Fault arguments before (.placeholder content) ↔
      ∀ i, position? (name content) = some i → arguments ≤ i := by
  constructor
  · rintro (_ | ⟨-, hnone⟩ | ⟨⟨hnil, -⟩ | hnumeral, hle⟩) i hi
    · rw [position?_eq_some_iff] at hi
      exact absurd hi.1 (hnone i hi.2)
    · exact absurd hnil hname
    · rwa [(position?_eq_some_iff.mp hi).1.unique hnumeral]
  · intro h
    cases hposition : position? (name content) with
    | none =>
      refine .unreadable hname fun i hlt hi => ?_
      rw [position?_eq_some_iff.mpr ⟨hi, hlt⟩] at hposition
      cases hposition
    | some i =>
      have hi := position?_eq_some_iff.mp hposition
      exact .beyond (Or.inr hi.1) (h i hposition)

theorem resolve_unnamed (hname : name content = []) (format : String) (next : Nat)
    (ts : List Token) : resolve format arguments next (.placeholder content :: ts) =
      if arguments ≤ next then .error (.tooFewArguments format arguments)
      else (resolve format arguments (next + 1) ts).map (.argument next :: ·) := by
  have hempty : (content.takeWhile (· ≠ ':')).isEmpty = true := List.isEmpty_iff.mpr hname
  rw [resolve, if_pos hempty]

theorem resolve_named (hname : name content ≠ []) (format : String) (next : Nat)
    (ts : List Token) : resolve format arguments next (.placeholder content :: ts) =
      match position? (name content) with
      | none => .error (.invalidPlaceholder (String.ofList content) format)
      | some i =>
        if arguments ≤ i then .error (.tooFewArguments format arguments)
        else (resolve format arguments next ts).map (.argument i :: ·) := by
  have hempty : ¬ (content.takeWhile (· ≠ ':')).isEmpty = true := mt List.isEmpty_iff.mp hname
  rw [resolve, if_neg hempty]
  rfl

theorem exists_resolve_error_iff {format : String} (seen : List Token) {ts : List Token} :
    (∃ e, resolve format arguments (seen.countP isUnnamed) ts = .error e) ↔
      ∃ before tok after, ts = before ++ tok :: after ∧
        Fault arguments (seen ++ before) tok := by
  induction ts generalizing seen with
  | nil => simp [resolve]
  | cons tok ts ih =>
    have hlater := ih (seen ++ [tok])
    rw [List.countP_append, List.countP_singleton] at hlater
    rw [exists_split_cons_iff, List.append_nil]
    simp only [List.append_assoc, List.singleton_append] at hlater
    cases tok with
    | char c =>
      have hfault : ¬ Fault arguments seen (.char c) := nofun
      rw [or_iff_right hfault, ← hlater]
      simp [resolve, Except.map_eq_error_iff, isUnnamed]
    | unterminated => simp [resolve, Fault.unterminated]
    | placeholder content =>
      by_cases hname : name content = []
      · have hunnamed : isUnnamed (.placeholder content) = true := List.isEmpty_iff.mpr hname
        rw [resolve_unnamed hname, fault_unnamed_iff hname, ← hlater, if_pos hunnamed]
        split_ifs with hle
        · simp [hle]
        · simp [hle, Except.map_eq_error_iff]
      · have hnamed : ¬ isUnnamed (.placeholder content) = true := mt List.isEmpty_iff.mp hname
        rw [resolve_named hname, fault_named_iff hname, ← hlater, if_neg hnamed]
        cases position? (name content) with
        | none => simp
        | some i =>
          by_cases hle : arguments ≤ i
          · simp [hle]
          · simp [hle, Except.map_eq_error_iff]

theorem kind_of_resolve {format : String} {next : Nat} {ts : List Token} {e : Error}
    (h : resolve format arguments next ts = .error e) : e.kind = .invalidArgument := by
  induction ts generalizing next with
  | nil => cases h
  | cons tok ts ih =>
    cases tok with
    | char c => exact ih (Except.map_eq_error_iff.mp h)
    | unterminated =>
      cases h
      rfl
    | placeholder content =>
      by_cases hname : name content = []
      · rw [resolve_unnamed hname] at h
        split_ifs at h
        · cases h
          rfl
        · exact ih (Except.map_eq_error_iff.mp h)
      · rw [resolve_named hname] at h
        split at h
        · cases h
          rfl
        · split_ifs at h
          · cases h
            rfl
          · exact ih (Except.map_eq_error_iff.mp h)

theorem kind_of_parse {format : String} {e : Error} (h : parse format arguments = .error e) :
    e.kind = .invalidArgument :=
  kind_of_resolve (Except.map_eq_error_iff.mp h)

end Resolve

/-! ## Formats made of parts -/

/-- A part of a format: a text, or an argument, which is the next one in order unless it has a
number. A remark on an argument follows a colon. -/
inductive Part where
  | text (s : String)
  | argument (position : Option Nat) (remark : Option String)

namespace Part

def positionText : Option Nat → List Char
  | some i => (toString i).toList
  | none => []

/-- A remark with its colon. -/
def remarkText : Option String → List Char
  | some remark => ':' :: remark.toList
  | none => []

/-- What stands between the braces of an argument. -/
def content (position : Option Nat) (remark : Option String) : List Char :=
  positionText position ++ remarkText remark

/-- Braces are doubled. -/
def double (c : Char) : List Char := if c = '\x7b' ∨ c = '\x7d' then [c, c] else [c]

/-- How a part is written. -/
def write : Part → List Char
  | text s => s.toList.flatMap double
  | argument position remark => '\x7b' :: (content position remark ++ ['\x7d'])

/-- How a part is read. -/
def tokens : Part → List Token
  | text s => s.toList.map .char
  | argument position remark => [.placeholder (content position remark)]

/-- Whether a part is an argument without a number. -/
def isNext : Part → Bool
  | argument none _ => true
  | _ => false

/-- There is an argument with the number, and the remark has no closing brace. -/
def Fits (arguments : Nat) : Part → Prop
  | text _ => True
  | argument position remark => (∀ i ∈ position, i < arguments) ∧ '\x7d' ∉ remarkText remark

/-- The text of some parts with given arguments. Those without a number are counted from `next`
on. -/
def fill (arguments : List String) (next : Nat) : List Part → String
  | [] => ""
  | text s :: parts => s ++ fill arguments next parts
  | argument (some i) _ :: parts => arguments[i]?.getD "" ++ fill arguments next parts
  | argument none _ :: parts => arguments[next]?.getD "" ++ fill arguments (next + 1) parts

/-! ## Reading what was written -/

variable {arguments : Nat}

theorem not_mem_positionText {c : Char} (hc : c.isDigit = false) (position : Option Nat) :
    c ∉ positionText position := by
  intro hmem
  cases position with
  | none => cases hmem
  | some i =>
    rw [(decimal_toString i).isDigit c hmem] at hc
    cases hc

theorem not_mem_content {position : Option Nat} {remark : Option String}
    (h : '\x7d' ∉ remarkText remark) : '\x7d' ∉ content position remark := by
  rw [content, List.mem_append, not_or]
  exact ⟨not_mem_positionText (by decide) position, h⟩

theorem head?_content (position : Option Nat) (remark : Option String) :
    (content position remark).head? ≠ some '\x7b' := by
  intro hhead
  cases hposition : positionText position with
  | nil =>
    rw [content, hposition, List.nil_append] at hhead
    cases remark with
    | none => cases hhead
    | some remark => exact absurd (Option.some.inj hhead) (by decide)
  | cons c rest =>
    rw [content, hposition] at hhead
    cases hhead
    exact not_mem_positionText (c := '\x7b') (by decide) position (hposition ▸ List.mem_cons_self)

theorem name_content (position : Option Nat) (remark : Option String) :
    name (content position remark) = positionText position := by
  have hall : ∀ c ∈ positionText position, decide (c ≠ ':') = true := by
    intro c hc
    rw [decide_eq_true_eq]
    rintro rfl
    exact not_mem_positionText (by decide) position hc
  have hremark : (remarkText remark).takeWhile (· ≠ ':') = [] := by
    cases remark <;> simp [remarkText]
  rw [name, content, List.takeWhile_append_of_pos hall, hremark, List.append_nil]

theorem reads_double_append (c : Char) {rest : List Char} {ts : List Token} (h : Reads rest ts) :
    Reads (double c ++ rest) (.char c :: ts) := by
  by_cases hopen : c = '\x7b'
  · subst hopen
    exact .openPair h
  · by_cases hclose : c = '\x7d'
    · subst hclose
      exact .closePair h
    · rw [double, if_neg (not_or.mpr ⟨hopen, hclose⟩)]
      exact .char hopen hclose h

/-- A part is read as it was meant, whatever follows it. -/
theorem reads_write_append {p : Part} (hp : p.Fits arguments) {rest : List Char} {ts : List Token}
    (h : Reads rest ts) : Reads (p.write ++ rest) (p.tokens ++ ts) := by
  cases p with
  | text s =>
    rw [write, tokens]
    induction s.toList with
    | nil => exact h
    | cons c s ih =>
      rw [List.flatMap_cons, List.append_assoc]
      exact reads_double_append c ih
  | argument position remark =>
    rw [write, tokens, List.cons_append, List.append_assoc]
    exact .placeholder (head?_content position remark) (not_mem_content hp.2) h

theorem reads_write {parts : List Part} (hparts : ∀ p ∈ parts, p.Fits arguments) :
    Reads (parts.flatMap write) (parts.flatMap tokens) := by
  induction parts with
  | nil => exact .done
  | cons p parts ih =>
    rw [List.forall_mem_cons] at hparts
    exact reads_write_append hparts.1 (ih hparts.2)

theorem resolve_text {format : String} {next : Nat} (s : List Char) (ts : List Token) :
    resolve format arguments next (s.map .char ++ ts) =
      (resolve format arguments next ts).map (s.map .char ++ ·) := by
  induction s with
  | nil =>
    rw [List.map_nil, List.nil_append]
    cases resolve format arguments next ts <;> rfl
  | cons c s ih =>
    rw [List.map_cons, List.cons_append, resolve, ih]
    cases resolve format arguments next ts <;> rfl

theorem join_text (s : String) (args : List String) :
    String.join ((s.toList.map LabelPiece.char).map (renderPiece args)) = s := by
  apply String.toList_inj.mp
  rw [String.toList_join]
  simp [renderPiece, List.flatMap_map]

/-- What is filled in stands between the texts. -/
theorem exists_resolve_tokens {parts : List Part}
    (hparts : ∀ p ∈ parts, p.Fits (min arguments wordSize)) {next : Nat}
    (hnext : next + parts.countP isNext ≤ arguments) (format : String) :
    ∃ pieces, resolve format arguments next (parts.flatMap tokens) = .ok pieces ∧
      ∀ args, String.join (pieces.map (renderPiece args)) = fill args next parts := by
  induction parts generalizing next with
  | nil => exact ⟨[], rfl, fun args => rfl⟩
  | cons p parts ih =>
    rw [List.forall_mem_cons] at hparts
    rw [List.flatMap_cons]
    cases p with
    | text s =>
      obtain ⟨pieces, hpieces, hfill⟩ := ih hparts.2 hnext
      refine ⟨s.toList.map .char ++ pieces, ?_, fun args => ?_⟩
      · rw [tokens, resolve_text, hpieces, Except.map_ok]
      · rw [List.map_append, String.join_append, join_text, hfill, fill]
    | argument position remark =>
      have hname := name_content position remark
      rw [tokens, List.singleton_append]
      cases position with
      | some i =>
        obtain ⟨pieces, hpieces, hfill⟩ := ih hparts.2 hnext
        have hi : i < min arguments wordSize := hparts.1.1 i rfl
        have hposition : position? (positionText (some i)) = some i :=
          position?_eq_some_iff.mpr ⟨Or.inl (decimal_toString i), by omega⟩
        have hle : ¬ arguments ≤ i := by omega
        refine ⟨.argument i :: pieces, ?_, fun args => ?_⟩
        · rw [resolve_named (hname ▸ (decimal_toString i).ne_nil), hname, hposition, hpieces]
          simp [hle]
        · rw [List.map_cons, String.join_cons, hfill, fill]
          rfl
      | none =>
        rw [List.countP_cons_of_pos rfl] at hnext
        have hlater : next + 1 + parts.countP isNext ≤ arguments := by omega
        obtain ⟨pieces, hpieces, hfill⟩ := ih hparts.2 hlater
        refine ⟨.argument next :: pieces, ?_, fun args => ?_⟩
        · rw [resolve_unnamed hname, if_neg (by omega), hpieces, Except.map_ok]
        · rw [List.map_cons, String.join_cons, hfill, fill]
          rfl

theorem exists_parse_write {parts : List Part}
    (hparts : ∀ p ∈ parts, p.Fits (min arguments wordSize))
    (hnext : parts.countP isNext ≤ arguments) :
    ∃ format, parse (String.ofList (parts.flatMap write)) arguments = .ok format ∧
      ∀ args, format.render args = fill args 0 parts := by
  have hfirst : 0 + parts.countP isNext ≤ arguments := by rwa [Nat.zero_add]
  obtain ⟨pieces, hpieces, hfill⟩ := exists_resolve_tokens hparts hfirst
    (String.ofList (parts.flatMap write))
  refine ⟨⟨pieces⟩, ?_, hfill⟩
  rw [parse, String.toList_ofList, (reads_write hparts).tokens_eq, hpieces, Except.map_ok]

end Part

/-- **Formats are read as they are written, and refused only if something is wrong.** A format
that is written part by part, with the braces of its texts doubled, is accepted; filled in, it is
its texts and the arguments between them, in their order. Every text is read in one way, and it is
refused exactly if a placeholder in it does not end, has a name that is no number, or refers to an
argument that is not there. -/
theorem parse_format (arguments : Nat) (hword : arguments ≤ wordSize) :
    (∀ parts : List Part, (∀ p ∈ parts, p.Fits arguments) →
      parts.countP Part.isNext ≤ arguments → ∃ format,
        parse (String.ofList (parts.flatMap Part.write)) arguments = .ok format ∧
        ∀ args, format.render args = Part.fill args 0 parts) ∧
    ∀ text : String, ∃ ts, (∀ ts', Reads text.toList ts' ↔ ts' = ts) ∧
      ((∃ e, parse text arguments = .error e) ↔ Faulty arguments ts) ∧
      ∀ e, parse text arguments = .error e → e.kind = .invalidArgument := by
  refine ⟨fun parts hparts => Part.exists_parse_write (by rwa [min_eq_left hword]), fun text =>
    ⟨tokens none text.toList, fun ts' => reads_iff, ?_, fun e he => ?_⟩⟩
  · simp only [parse, Except.map_eq_error_iff]
    exact exists_resolve_error_iff []
  · exact kind_of_parse he

/-- Braces next to placeholders, an argument with a remark, and one that is the next in order. -/
theorem parse_format_braces :
    let parts : List Part := [.text "\x7b", .argument (some 1) none, .text "\x7d\x7d",
      .argument none (some "\x7b>"), .argument (some 0) none]
    (2 : Nat) ≤ wordSize ∧ (∀ p ∈ parts, p.Fits 2) ∧ parts.countP Part.isNext ≤ 2 ∧
      String.ofList (parts.flatMap Part.write) =
        "\x7b\x7b\x7b1\x7d\x7d\x7d\x7d\x7d\x7b:\x7b>\x7d\x7b0\x7d" ∧
      (∃ format, parse (String.ofList (parts.flatMap Part.write)) 2 = .ok format ∧
        format.render ["a", "b"] = "\x7bb\x7d\x7daa") ∧
      ∃ e, parse "x\x7b0\x7d\x7b+2\x7d" 2 = .error e := by
  intro parts
  have hword : (2 : Nat) ≤ wordSize := by decide
  have hfits : ∀ p ∈ parts, p.Fits 2 := by
    simp [parts, Part.Fits, Part.remarkText]
  have hnext : parts.countP Part.isNext ≤ 2 := by decide
  obtain ⟨hwrite, hread⟩ := parse_format 2 hword
  obtain ⟨format, hformat, hfill⟩ := hwrite parts hfits hnext
  obtain ⟨ts, hts, herror, -⟩ := hread "x\x7b0\x7d\x7b+2\x7d"
  refine ⟨hword, hfits, hnext, by decide +kernel, ⟨format, hformat, ?_⟩, herror.mpr ?_⟩
  · rw [hfill]
    decide +kernel
  · have htokens := (hts _).mp (reads_iff.mpr rfl)
    refine ⟨[.char 'x', .placeholder ['0']], .placeholder ['+', '2'], [], ?_, ?_⟩
    · rw [← htokens]
      decide +kernel
    · exact .beyond (Or.inr (Or.inr ⟨['2'], rfl, decimal_toString 2⟩)) (Nat.le_refl 2)

end LabelFormat

end Clausal
