import Clausal.Proofs.Label.Format

/-!
# Frames

A default format puts a separator between its arguments, a text before them and a text after them. A
number ends where a separator starts, so numbers can be read off the text that they are filled into,
however many they are (`Frame.around_injective`).
-/

namespace Clausal

namespace LabelFormat

/-- The texts before, between and after some arguments. -/
structure Frame where
  opening : String
  separator : String
  closing : String
  /-- The separator ends a number. -/
  separates : ∃ c rest, separator.toList = c :: rest ∧ c.isDigit = false

namespace Frame

variable (f : Frame)

def around (texts : List String) : String :=
  f.opening ++ f.separator.intercalate texts ++ f.closing

/-- Placeholders with the separator between them. -/
def slots : Nat → List Part
  | 0 => []
  | 1 => [.argument none none]
  | n + 2 => .argument none none :: .text f.separator :: slots (n + 1)

/-- The format with `n` placeholders. -/
def parts (n : Nat) : List Part :=
  .text f.opening :: (f.slots n ++ [.text f.closing])

/-! ## Reading numbers off -/

/-- Some numbers with the separator in front of each. -/
def tail (numbers : List Nat) : List Char :=
  numbers.flatMap fun i => f.separator.toList ++ (toString i).toList

theorem toList_intercalate_cons (s t : String) (texts : List String) :
    (s.intercalate (t :: texts)).toList =
      t.toList ++ texts.flatMap fun u => s.toList ++ u.toList := by
  induction texts generalizing t with
  | nil => simp
  | cons u texts ih =>
    rw [String.intercalate_cons_cons, String.toList_append, ih u, List.flatMap_cons]
    simp

theorem head?_tail (numbers : List Nat) : ∀ c ∈ (f.tail numbers).head?, c.isDigit = false := by
  obtain ⟨c, rest, hseparator, hc⟩ := f.separates
  cases numbers with
  | nil => simp [tail]
  | cons i numbers => simpa [tail, hseparator] using hc

theorem tail_injective : Function.Injective f.tail := by
  intro is js h
  obtain ⟨c, rest, hseparator, -⟩ := f.separates
  induction is generalizing js with
  | nil =>
    cases js with
    | nil => rfl
    | cons j js => simp [tail, hseparator] at h
  | cons i is ih =>
    cases js with
    | nil => simp [tail, hseparator] at h
    | cons j js =>
      simp only [tail, List.flatMap_cons, List.append_assoc, List.append_cancel_left_eq] at h
      obtain ⟨rfl, htail⟩ := natText_append_injective (f.head?_tail is) (f.head?_tail js) h
      rw [ih htail]

theorem separator_append_intercalate (i : Nat) (is : List Nat) :
    f.separator.toList ++ (f.separator.intercalate ((i :: is).map toString)).toList =
      f.tail (i :: is) := by
  rw [List.map_cons, toList_intercalate_cons, List.flatMap_map, tail, List.flatMap_cons,
    List.append_assoc]

theorem around_injective : Function.Injective fun numbers : List Nat =>
    f.around (numbers.map toString) := by
  have hne : ∀ (i : Nat) (is : List Nat),
      (f.separator.intercalate ((i :: is).map toString)).toList ≠ [] := by
    intro i is
    rw [List.map_cons, toList_intercalate_cons]
    exact List.append_ne_nil_of_left_ne_nil (decimal_toString i).ne_nil _
  intro is js h
  have htexts : (f.separator.intercalate (is.map toString)).toList =
      (f.separator.intercalate (js.map toString)).toList := by
    have hlabels := congrArg String.toList h
    simp only [around, String.toList_append, List.append_assoc] at hlabels
    exact List.append_cancel_right (List.append_cancel_left hlabels)
  cases is with
  | nil =>
    cases js with
    | nil => rfl
    | cons j js => exact absurd htexts.symm (hne j js)
  | cons i is =>
    cases js with
    | nil => exact absurd htexts (hne i is)
    | cons j js =>
      apply f.tail_injective
      rw [← separator_append_intercalate, ← separator_append_intercalate, htexts]

/-! ## Formats -/

theorem fits_parts (n arguments : Nat) : ∀ p ∈ f.parts n, p.Fits arguments := by
  have hargument : (Part.argument none none).Fits arguments := ⟨nofun, List.not_mem_nil⟩
  have hslots : ∀ p ∈ f.slots n, p.Fits arguments := by
    fun_induction slots f n with
    | case1 => exact nofun
    | case2 => exact List.forall_mem_singleton.mpr hargument
    | case3 n ih =>
      exact List.forall_mem_cons.mpr ⟨hargument, List.forall_mem_cons.mpr ⟨trivial, ih⟩⟩
  rw [parts, List.forall_mem_cons, List.forall_mem_append, List.forall_mem_singleton]
  exact ⟨trivial, hslots, trivial⟩

theorem countP_parts (n : Nat) : (f.parts n).countP Part.isNext = n := by
  have hslots : (f.slots n).countP Part.isNext = n := by
    fun_induction slots f n with
    | case1 => rfl
    | case2 => rfl
    | case3 n ih => simp [List.countP_cons, Part.isNext, ih]
  simp [parts, Part.isNext, hslots]

theorem fill_slots (before texts : List String) (closing : String) :
    Part.fill (before ++ texts) before.length (f.slots texts.length ++ [.text closing]) =
      f.separator.intercalate texts ++ closing := by
  induction texts generalizing before with
  | nil => simp [slots, Part.fill]
  | cons t texts ih =>
    cases texts with
    | nil => simp [slots, Part.fill]
    | cons u texts =>
      have hnext := ih (before ++ [t])
      rw [List.append_assoc, List.length_append] at hnext
      have ht : (before ++ t :: u :: texts)[before.length]?.getD "" = t := by simp
      rw [List.length_cons, List.length_cons, slots, List.cons_append, List.cons_append, Part.fill,
        ht, Part.fill, String.intercalate_cons_cons]
      rw [String.append_assoc, String.append_assoc, ← hnext]
      rfl

theorem render_of_parse {text : String} {n : Nat} {format : LabelFormat}
    (h : parse text n = .ok format)
    (htext : String.ofList ((f.parts n).flatMap Part.write) = text) (texts : List String)
    (hlength : texts.length = n) : format.render texts = f.around texts := by
  obtain ⟨format', hformat', hfill⟩ :=
    Part.exists_parse_write (f.fits_parts n _) (f.countP_parts n).le
  rw [htext, h] at hformat'
  cases hformat'
  subst hlength
  rw [hfill, parts, Part.fill, around, String.append_assoc]
  exact congrArg _ (f.fill_slots [] texts f.closing)

theorem write_slots (n : Nat) : (f.slots n).flatMap Part.write =
    (f.separator.toList.flatMap Part.double).intercalate (List.replicate n ['\x7b', '\x7d']) := by
  fun_induction slots f n with
  | case1 => rfl
  | case2 => rfl
  | case3 n ih =>
    rw [List.replicate_succ, List.replicate_succ, List.intercalate_cons_cons, ← List.replicate_succ,
      List.flatMap_cons, List.flatMap_cons, ih]
    rfl

/-- A name on its own, which has no arguments. -/
def named (name : String) : Frame := ⟨name, ",", "", ',', [], rfl, rfl⟩

/-- Arguments between parentheses, after a name. -/
def tuple (name : String) : Frame := ⟨name ++ "(", ",", ")", ',', [], rfl, rfl⟩

/-- The letters of a word between braces. -/
def word : Frame := ⟨"p_\x7b", ",", "\x7d", ',', [], rfl, rfl⟩

/-- An equation that says what an element is mapped to. -/
def equation : Frame := ⟨"f(", ")=", "", ')', ['='], rfl, rfl⟩

theorem write_tuple {name : String} (hname : name.toList.flatMap Part.double = name.toList)
    (n : Nat) :
    String.ofList (((tuple name).parts n).flatMap Part.write) = LabelFormat.tuple name n := by
  apply String.toList_inj.mp
  rw [LabelFormat.tuple, String.toList_ofList, parts, List.flatMap_cons, List.flatMap_append,
    write_slots]
  simp only [tuple, Part.write, String.toList_append, List.flatMap_append, hname,
    String.toList_intercalate, List.map_replicate, List.flatMap_singleton, List.append_assoc]
  rfl

end Frame

end LabelFormat

end Clausal
