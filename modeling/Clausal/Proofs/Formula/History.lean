import Clausal.Proofs.Formula.Shuffle
import Clausal.Proofs.Text.Decimal
import Mathlib.Data.List.Perm.Subperm

/-!
# Shuffles are recorded in the header

A shuffled formula says in its header what became of it: its description is marked, and a new
field with the least number that is not in use records the shuffle; all other fields stay as they
are (`Header.shuffled_eq`, `Header.marked_of_mem`). The number is searched for from 1 on
(`Header.Search`). Different numbers have different fields, so one number more than there are
fields is enough to find one that is free, and the search comes to an end
(`Header.exists_search`).

A header that is made by setting fields has no field twice. A shuffle keeps it so, and adds the
field of one number, so the shuffles of a formula are numbered one after the other
(`Formula.Shuffles.shuffleField_mem_iff`).
-/

namespace Clausal

namespace Header

/-! ## Fields -/

/-- The names of the fields. -/
def fields (h : Header) : List String := h.map Prod.fst

/-- The header that is made by setting some fields, one after the other. -/
def ofSettings (settings : List (String × String)) : Header :=
  settings.foldl (fun h (field, value) => h.put field value) []

section Fields

variable {h : Header} {field value : String}

@[simp] theorem fields_append (h h' : Header) : fields (h ++ h') = h.fields ++ h'.fields :=
  List.map_append

theorem field?_eq_none_iff : h.field? field = none ↔ field ∉ h.fields := by
  simp only [field?, Option.map_eq_none_iff, List.find?_eq_none, decide_eq_true_eq, fields,
    List.mem_map, not_exists, not_and]

theorem put_of_not_mem (hfield : field ∉ h.fields) :
    h.put field value = h ++ [(field, value)] := by
  induction h with
  | nil => rfl
  | cons entry h ih =>
    obtain ⟨f, v⟩ := entry
    rw [fields, List.map_cons, List.mem_cons, not_or] at hfield
    rw [put, if_neg (Ne.symm hfield.1), ih hfield.2, List.cons_append]

theorem put_of_mem (hnodup : h.fields.Nodup) (hfield : field ∈ h.fields) :
    h.put field value = h.map fun e => (e.1, if e.1 = field then value else e.2) := by
  induction h with
  | nil => cases hfield
  | cons entry h ih =>
    obtain ⟨f, v⟩ := entry
    rw [fields, List.map_cons, List.nodup_cons] at hnodup
    rw [put, List.map_cons]
    split_ifs with hf
    · subst hf
      have hrest : ∀ e ∈ h, e.1 ≠ f := by
        rintro e he rfl
        exact hnodup.1 (List.mem_map.mpr ⟨e, he, rfl⟩)
      have hkeep : h.map (fun e => (e.1, if e.1 = f then value else e.2)) = h := by
        refine (List.map_congr_left fun e he => ?_).trans (List.map_id h)
        rw [if_neg (hrest e he)]
        rfl
      rw [hkeep]
    · have hmem : field ∈ fields h := (List.mem_cons.mp hfield).resolve_left (Ne.symm hf)
      rw [ih hnodup.2 hmem]

theorem fields_put_of_mem (hfield : field ∈ h.fields) : (h.put field value).fields = h.fields := by
  induction h with
  | nil => cases hfield
  | cons entry h ih =>
    obtain ⟨f, v⟩ := entry
    rw [put]
    split_ifs with hf
    · rfl
    · have hmem : field ∈ fields h := (List.mem_cons.mp hfield).resolve_left (Ne.symm hf)
      exact congrArg (f :: ·) (ih hmem)

theorem nodup_put (hnodup : h.fields.Nodup) : (h.put field value).fields.Nodup := by
  by_cases hfield : field ∈ h.fields
  · rwa [fields_put_of_mem hfield]
  · rw [put_of_not_mem hfield, fields_append]
    exact List.concat_eq_append ▸ hnodup.concat hfield

theorem nodup_ofSettings (settings : List (String × String)) :
    (ofSettings settings).fields.Nodup := by
  suffices hall : ∀ h : Header, h.fields.Nodup →
      (settings.foldl (fun h (field, value) => h.put field value) h).fields.Nodup from
    hall [] List.nodup_nil
  induction settings with
  | nil => exact fun _ hnodup => hnodup
  | cons setting settings ih => exact fun h hnodup => ih _ (nodup_put hnodup)

theorem value_of_field? (hnodup : h.fields.Nodup) {text : String}
    (htext : h.field? field = some text) {e : String × String} (he : e ∈ h)
    (hfield : e.1 = field) : e.2 = text := by
  obtain ⟨e', he', rfl⟩ := Option.map_eq_some_iff.mp htext
  have hname : e'.1 = field := by simpa using List.find?_some he'
  rw [List.inj_on_of_nodup_map hnodup he (List.mem_of_find?_eq_some he') (hfield.trans hname.symm)]

end Fields

/-! ## The search for a free number -/

theorem shuffleField_injective : Function.Injective shuffleField := by
  intro i j h
  have htext : ∀ i, shuffleField i = "transformation " ++ toString i := fun _ => rfl
  have hlist := congrArg String.toList h
  rw [htext, htext, String.toList_append, String.toList_append] at hlist
  exact natText_injective (List.append_cancel_left hlist)

theorem shuffleField_ne_descriptionField (i : Nat) : shuffleField i ≠ descriptionField := by
  intro h
  have htext : shuffleField i = "transformation " ++ toString i := rfl
  have hhead := congrArg (fun text : String => text.toList.head?) h
  rw [htext] at hhead
  simp [descriptionField] at hhead

/-- The search for a number that records no shuffle yet: from the first number, in a number of
tries, to the one that is found. -/
inductive Search (h : Header) : Nat → Nat → Nat → Prop
  | free {i : Nat} : h.field? (shuffleField i) = none → Search h i 1 i
  | used {i tries j : Nat} : h.field? (shuffleField i) ≠ none → Search h (i + 1) tries j →
      Search h i (tries + 1) j

namespace Search

variable {h : Header} {i tries j : Nat}

theorem spec (hsearch : h.Search i tries j) : j + 1 = i + tries ∧ shuffleField j ∉ h.fields ∧
    ∀ k, i ≤ k → k < j → shuffleField k ∈ h.fields := by
  induction hsearch with
  | free hfree => exact ⟨rfl, field?_eq_none_iff.mp hfree, fun k hik hkj => by omega⟩
  | used hused _ ih =>
    obtain ⟨htries, hfree, hbefore⟩ := ih
    refine ⟨by omega, hfree, fun k hik hkj => ?_⟩
    rcases Nat.eq_or_lt_of_le hik with rfl | hlt
    · exact not_not.mp (mt field?_eq_none_iff.mpr hused)
    · exact hbefore k hlt hkj

theorem le (hsearch : h.Search i tries j) : i ≤ j := by
  induction hsearch with
  | free => exact Nat.le_refl _
  | used _ _ ih => omega

theorem freeShuffle_eq (hsearch : h.Search i tries j) {n : Nat} (hn : tries ≤ n) :
    h.freeShuffle n i = j := by
  induction hsearch generalizing n with
  | free hfree =>
    obtain ⟨n, rfl⟩ : ∃ m, n = m + 1 := ⟨n - 1, by omega⟩
    rw [freeShuffle, hfree, if_pos Option.isNone_none]
  | used hused _ ih =>
    obtain ⟨n, rfl⟩ : ∃ m, n = m + 1 := ⟨n - 1, by omega⟩
    rw [freeShuffle, if_neg (mt Option.isNone_iff_eq_none.mp hused), ih (by omega)]

end Search

/-- One number more than there are fields is enough. -/
theorem exists_free (h : Header) (i : Nat) :
    ∃ k < h.length + 1, shuffleField (i + k) ∉ h.fields := by
  by_contra hall
  push Not at hall
  have hnodup : ((List.range (h.length + 1)).map fun k => shuffleField (i + k)).Nodup := by
    apply List.Nodup.map _ List.nodup_range
    exact shuffleField_injective.comp (add_right_injective i)
  have hsub : ((List.range (h.length + 1)).map fun k => shuffleField (i + k)) ⊆ h.fields := by
    intro field hfield
    obtain ⟨k, hk, rfl⟩ := List.mem_map.mp hfield
    exact hall k (List.mem_range.mp hk)
  have hle := (List.subperm_of_subset hnodup hsub).length_le
  rw [List.length_map, List.length_range, fields, List.length_map] at hle
  omega

theorem search_of_free {h : Header} {n i : Nat} (hfree : ∃ k < n, shuffleField (i + k) ∉ h.fields) :
    ∃ tries ≤ n, ∃ j, h.Search i tries j := by
  induction n generalizing i with
  | zero =>
    obtain ⟨k, hk, -⟩ := hfree
    omega
  | succ n ih =>
    by_cases hi : shuffleField i ∈ h.fields
    · obtain ⟨k, hk, hfree⟩ := hfree
      -- the first number is in use, so the free one is among the others
      obtain ⟨k, rfl⟩ : ∃ m, k = m + 1 := by
        refine ⟨k - 1, ?_⟩
        have hne : k ≠ 0 := by
          rintro rfl
          exact hfree hi
        omega
      obtain ⟨tries, htries, j, hsearch⟩ := ih (i := i + 1) ⟨k, by omega, by
        rwa [Nat.add_assoc, Nat.add_comm 1 k]⟩
      exact ⟨tries + 1, by omega, j, .used (mt field?_eq_none_iff.mp (not_not.mpr hi)) hsearch⟩
    · exact ⟨1, by omega, i, .free (field?_eq_none_iff.mpr hi)⟩

theorem exists_search (h : Header) : ∃ tries ≤ h.length + 1, ∃ i, h.Search 1 tries i :=
  search_of_free (h.exists_free 1)

/-! ## The header of a shuffled formula -/

/-- The header with the mark of a shuffle in its description. -/
def marked (h : Header) : Header :=
  h.put descriptionField (match h.field? descriptionField with
    | some text => text ++ " " ++ shuffleMark
    | none => shuffleMark)

section Shuffled

variable {h : Header}

theorem marked_of_mem (hnodup : h.fields.Nodup) (hmem : descriptionField ∈ h.fields) :
    h.marked =
      h.map fun e => (e.1, if e.1 = descriptionField then e.2 ++ " (reshuffled)" else e.2) := by
  cases htext : h.field? descriptionField with
  | none => exact absurd hmem (field?_eq_none_iff.mp htext)
  | some text =>
    have hmark : text ++ " " ++ shuffleMark = text ++ " (reshuffled)" := String.append_assoc
    rw [marked, put_of_mem hnodup hmem, htext]
    refine List.map_congr_left fun e he => ?_
    split_ifs with hdescription
    · rw [value_of_field? hnodup htext he hdescription]
      exact congrArg (Prod.mk e.1) hmark
    · rfl

theorem marked_of_not_mem (hmem : descriptionField ∉ h.fields) :
    h.marked = h ++ [(descriptionField, "(reshuffled)")] := by
  rw [marked, put_of_not_mem hmem, field?_eq_none_iff.mpr hmem]
  rfl

theorem shuffleField_mem_marked_iff (i : Nat) :
    shuffleField i ∈ h.marked.fields ↔ shuffleField i ∈ h.fields := by
  by_cases hmem : descriptionField ∈ h.fields
  · rw [marked, fields_put_of_mem hmem]
  · rw [marked_of_not_mem hmem, fields_append, List.mem_append]
    simp [fields, shuffleField_ne_descriptionField]

variable {tries i : Nat} (hsearch : h.Search 1 tries i)

include hsearch

theorem shuffled_eq (htries : tries ≤ h.length + 1) :
    h.shuffled = h.marked ++ [(shuffleField i, "Formula reshuffling")] := by
  have hnumber := hsearch.freeShuffle_eq htries
  have hfree : shuffleField i ∉ h.marked.fields :=
    mt (shuffleField_mem_marked_iff i).mp hsearch.spec.2.1
  rw [← put_of_not_mem hfree, ← hnumber]
  rfl

end Shuffled

theorem nodup_shuffled {h : Header} (hnodup : h.fields.Nodup) : h.shuffled.fields.Nodup :=
  nodup_put (nodup_put hnodup)

theorem shuffleField_mem_shuffled_iff {h : Header} {tries i : Nat} (hsearch : h.Search 1 tries i)
    (htries : tries ≤ h.length + 1) (j : Nat) :
    shuffleField j ∈ h.shuffled.fields ↔ shuffleField j ∈ h.fields ∨ j = i := by
  have hlast : fields [(shuffleField i, "Formula reshuffling")] = [shuffleField i] := rfl
  rw [shuffled_eq hsearch htries, fields_append, List.mem_append, shuffleField_mem_marked_iff,
    hlast, List.mem_singleton, shuffleField_injective.eq_iff]

end Header

/-! ## Shuffles in a row -/

namespace Formula

open Header (shuffleField descriptionField)

variable {K : Type} [Constraint K] {f g : Formula K} {k : Nat}

/-- What a formula can become by a number of shuffles, whatever they may change and whichever words
are drawn. -/
inductive Shuffles (f : Formula K) : Nat → Formula K → Prop
  | none : Shuffles f 0 f
  | more {k : Nat} {g g' : Formula K} (opts : ShuffleOptions) (source : WordSource) :
      Shuffles f k g → ((g.shuffle opts).run source).1 = .ok g' → Shuffles f (k + 1) g'

theorem exists_shuffle_iff (f : Formula K) (opts : ShuffleOptions) (source : WordSource) :
    (∃ f', ((f.shuffle opts).run source).1 = .ok f') ↔ ∀ l ∈ f.allLits, l.var ≠ 0 := by
  rw [shuffle_eq]
  split_ifs with hzero
  · simpa using hzero
  · simpa using hzero

theorem header_of_shuffle {f' : Formula K} {opts : ShuffleOptions} {source : WordSource}
    (h : ((f.shuffle opts).run source).1 = .ok f') : f'.header = f.header.shuffled := by
  rw [shuffle_eq] at h
  split_ifs at h
  cases h
  rfl

namespace Shuffles

theorem nodup_header (h : f.Shuffles k g) (hnodup : f.header.fields.Nodup) :
    g.header.fields.Nodup := by
  induction h with
  | none => exact hnodup
  | more opts source _ hshuffle ih =>
    rw [header_of_shuffle hshuffle]
    exact Header.nodup_shuffled ih

theorem shuffleField_mem_iff (h : f.Shuffles k g)
    (hnone : ∀ j, 1 ≤ j → shuffleField j ∉ f.header.fields) {j : Nat} (hj : 1 ≤ j) :
    shuffleField j ∈ g.header.fields ↔ j ≤ k := by
  induction h generalizing j with
  | none => exact iff_of_false (hnone j hj) (by omega)
  | @more k g g' opts source _ hshuffle ih =>
    obtain ⟨tries, htries, i, hsearch⟩ := g.header.exists_search
    obtain ⟨hcount, hfree, hbefore⟩ := hsearch.spec
    have hi := hsearch.le
    -- the numbers in use are 1, …, k, so the next one is free and the first that is
    have hnext : i = k + 1 := by
      have hlow : ¬ i ≤ k := mt (ih hi).mpr hfree
      have hhigh : ¬ k + 1 < i := fun hlt => by
        have hle := (ih (by omega)).mp (hbefore (k + 1) (by omega) hlt)
        omega
      omega
    rw [header_of_shuffle hshuffle, Header.shuffleField_mem_shuffled_iff hsearch htries, ih hj]
    omega

end Shuffles

/-- **Shuffles are recorded in the header.** The search for a number comes to an end after at most
one try more than there are fields, so that it stays in the range of 32-bit numbers, and finds the
least number without a field. A shuffle keeps all fields in their order, with their values, marks
the description or adds one, and adds the field of the number that was found. After a number of
shuffles in a row, of a formula without fields for shuffles, there are fields for the numbers from
1 to the number of shuffles and for no others. There is never a field twice. -/
theorem shuffle_keeps_history (f : Formula K) (settings : List (String × String))
    (hheader : f.header = .ofSettings settings) (hlength : f.header.length + 1 < 2 ^ 31) :
    (∃ tries i, f.header.Search 1 tries i ∧ tries ≤ f.header.length + 1 ∧ 1 ≤ i ∧ i < 2 ^ 31 ∧
      shuffleField i ∉ f.header.fields ∧
      (∀ j, 1 ≤ j → j < i → shuffleField j ∈ f.header.fields) ∧
      ∀ opts source f', ((f.shuffle opts).run source).1 = .ok f' →
        (descriptionField ∈ f.header.fields → f'.header =
          (f.header.map fun e =>
            (e.1, if e.1 = descriptionField then e.2 ++ " (reshuffled)" else e.2)) ++
            [(shuffleField i, "Formula reshuffling")]) ∧
        (descriptionField ∉ f.header.fields → f'.header = f.header ++
          [(descriptionField, "(reshuffled)"), (shuffleField i, "Formula reshuffling")])) ∧
    (∀ opts source, (∃ f', ((f.shuffle opts).run source).1 = .ok f') ↔
      ∀ l ∈ f.allLits, l.var ≠ 0) ∧
    ((∀ j, 1 ≤ j → shuffleField j ∉ f.header.fields) → ∀ k g, f.Shuffles k g →
      ∀ j, 1 ≤ j → (shuffleField j ∈ g.header.fields ↔ j ≤ k)) ∧
    ∀ k g, f.Shuffles k g → g.header.fields.Nodup := by
  have hnodup : f.header.fields.Nodup := hheader ▸ Header.nodup_ofSettings settings
  refine ⟨?_, exists_shuffle_iff f, fun hnone k g h j hj => h.shuffleField_mem_iff hnone hj,
    fun k g h => h.nodup_header hnodup⟩
  obtain ⟨tries, htries, i, hsearch⟩ := f.header.exists_search
  obtain ⟨hcount, hfree, hbefore⟩ := hsearch.spec
  refine ⟨tries, i, hsearch, htries, hsearch.le, by omega, hfree, hbefore,
    fun opts source f' hf' => ⟨fun hmem => ?_, fun hmem => ?_⟩⟩
  · rw [header_of_shuffle hf', Header.shuffled_eq hsearch htries, Header.marked_of_mem hnodup hmem]
  · rw [header_of_shuffle hf', Header.shuffled_eq hsearch htries, Header.marked_of_not_mem hmem,
      List.append_assoc]
    rfl

/-- Two numbers set by hand, with a gap between them, and shuffles of the empty formula. -/
theorem shuffle_keeps_history_gap :
    let settings := [("transformation 1", "by hand"), ("description", "pigeons"),
      ("transformation 3", "by hand")]
    let f : CnfFormula := { Formula.empty with header := .ofSettings settings }
    f.header.length + 1 < 2 ^ 31 ∧
      (∃ f', ((f.shuffle .all).run (.cycle [0])).1 = .ok f' ∧ f'.header =
        [("transformation 1", "by hand"), ("description", "pigeons (reshuffled)"),
          ("transformation 3", "by hand"), ("transformation 2", "Formula reshuffling")]) ∧
      ∀ k g, (Formula.empty : CnfFormula).Shuffles k g → g.header.fields.Nodup ∧
        ∀ j, 1 ≤ j → (shuffleField j ∈ g.header.fields ↔ j ≤ k) := by
  intro settings f
  have hlength : f.header.length + 1 < 2 ^ 31 := by decide +kernel
  obtain ⟨⟨tries, i, -, -, hi, -, hfree, hbefore, hheader⟩, hexists, -⟩ :=
    shuffle_keeps_history f settings rfl hlength
  have hone : shuffleField 1 ∈ f.header.fields := by decide +kernel
  have htwo : shuffleField 2 ∉ f.header.fields := by decide +kernel
  have hnumber : i = 2 := by
    have hne : i ≠ 1 := by
      rintro rfl
      exact hfree hone
    have hle : ¬ 2 < i := fun hlt => htwo (hbefore 2 (by omega) hlt)
    omega
  obtain ⟨f', hf'⟩ := (hexists .all (.cycle [0])).mpr nofun
  refine ⟨hlength, ⟨f', hf', ?_⟩, fun k g h => ?_⟩
  · rw [(hheader .all _ f' hf').1 (by decide +kernel), hnumber]
    decide +kernel
  · obtain ⟨-, -, hrow, hnodup⟩ :=
      shuffle_keeps_history (Formula.empty : CnfFormula) [] rfl (by decide)
    exact ⟨hnodup k g h, hrow nofun k g h⟩

end Formula

end Clausal
