import Clausal.Proofs.VarGroup.Generator
import Clausal.Proofs.VarGroup.Table
import Mathlib.Data.List.ReduceOption
import Mathlib.Data.List.Sort

/-!
# Groups that number words

The table of a family lists the words that the family accepts, in strictly increasing lexicographic
order. A word is therefore found in one place only, and the numbers of the words that match a
pattern can be read off the table with the words.
-/

namespace Clausal

/-! ## Families -/

namespace Family

theorem chain_eq_true_iff {rel : Nat → Nat → Bool} {word : List Nat} :
    chain rel word = true ↔ word.IsChain (fun a b => rel a b = true) := by
  induction word with
  | nil => simp [chain]
  | cons a word ih =>
    cases word with
    | nil => simp [chain]
    | cons b word => rw [chain, Bool.and_eq_true, ih, List.isChain_cons_cons]

theorem allDistinct_eq_true_iff {word : List Nat} : allDistinct word = true ↔ word.Nodup := by
  induction word with
  | nil => simp [allDistinct]
  | cons a word ih => simp [allDistinct, ih]

theorem all_letters_iff {n : Nat} {word : List Nat} :
    (word.all fun i => 1 ≤ i && i ≤ n) = true ↔ ∀ i ∈ word, i ∈ List.range' 1 n := by
  rw [List.all_eq_true]
  refine forall₂_congr fun i _ => ?_
  rw [Bool.and_eq_true, decide_eq_true_eq, decide_eq_true_eq, List.mem_range'_1]
  omega

/-- The strictly increasing sequences over an increasing alphabet are its sublists. -/
theorem sublist_iff {letters word : List Nat} (hletters : letters.Pairwise (· < ·)) :
    word.Sublist letters ↔ (∀ i ∈ word, i ∈ letters) ∧ word.Pairwise (· < ·) := by
  constructor
  · intro hsub
    exact ⟨fun i hi => hsub.subset hi, hletters.sublist hsub⟩
  · rintro ⟨hmem, hword⟩
    refine List.sublist_of_subperm_of_pairwise ?_ hword hletters
    exact List.subperm_of_subset (hword.imp Nat.ne_of_lt) hmem

theorem mem_sequences {family : Family} {n k : Nat} {word : List Nat} :
    word ∈ family.sequences n k ↔ word.length = k ∧ family.accepts n word = true := by
  have hletters : (List.range' 1 n).Pairwise (· < ·) := List.pairwise_lt_range' 1
  rw [sequences]
  by_cases hk : k = 0
  · rw [if_pos hk, hk, List.mem_singleton, List.length_eq_zero_iff]
    refine ⟨fun h => ⟨h, ?_⟩, fun h => h.1⟩
    rw [h]
    cases family <;> rfl
  · unfold accepts
    rw [if_neg hk, Bool.and_eq_true, all_letters_iff]
    cases family with
    | combinations =>
      rw [mem_selections, sublist_iff hletters, chain_eq_true_iff]
      simp only [decide_eq_true_eq]
      rw [List.isChain_iff_pairwise]
      tauto
    | multisets =>
      rw [chain_eq_true_iff]
      simp only [decide_eq_true_eq]
      rw [List.isChain_iff_pairwise]
      exact mem_multiselections hletters
    | permutations =>
      rw [allDistinct_eq_true_iff]
      dsimp only
      split_ifs with hn
      · -- distinct letters are at most as many as the alphabet has
        rw [List.mem_nil_iff, false_iff]
        rintro ⟨hlen, hmem, hword⟩
        have := (List.subperm_of_subset hword hmem).length_le
        rw [List.length_range'] at this
        omega
      · exact mem_arrangements List.nodup_range'
    | words =>
      rw [and_iff_left rfl]
      exact mem_tuples_replicate

theorem pairwise_sequences (family : Family) (n k : Nat) :
    (family.sequences n k).Pairwise (· < ·) := by
  have hletters : (List.range' 1 n).Pairwise (· < ·) := List.pairwise_lt_range' 1
  rw [sequences]
  by_cases hk : k = 0
  · rw [if_pos hk]
    exact List.pairwise_singleton _ _
  · rw [if_neg hk]
    cases family with
    | combinations => exact pairwise_selections hletters
    | multisets => exact pairwise_multiselections hletters
    | permutations =>
      dsimp only
      split_ifs
      · exact List.Pairwise.nil
      · exact pairwise_arrangements hletters
    | words => exact pairwise_tuples fun c hc => (List.eq_of_mem_replicate hc) ▸ hletters

theorem nodup_sequences (family : Family) (n k : Nat) : (family.sequences n k).Nodup :=
  (pairwise_sequences family n k).nodup

/-- The number of words of length `k` over `n` letters. -/
def count (n k : Nat) : Family → Nat
  | combinations => n.choose k
  | multisets => (n + k - 1).choose k
  | permutations => if n < k then 0 else n.factorial / (n - k).factorial
  | words => n ^ k

theorem count_zero (family : Family) (n : Nat) : family.count n 0 = 1 := by
  cases family with
  | combinations => exact Nat.choose_zero_right n
  | multisets => exact Nat.choose_zero_right _
  | permutations =>
    rw [count, if_neg (Nat.not_lt_zero n), Nat.sub_zero, Nat.div_self (Nat.factorial_pos n)]
  | words => exact Nat.pow_zero n

theorem length_sequences (family : Family) (n k : Nat) :
    (family.sequences n k).length = family.count n k := by
  have hletters : (List.range' 1 n).length = n := List.length_range'
  rw [sequences]
  by_cases hk : k = 0
  · rw [if_pos hk, hk, count_zero, List.length_singleton]
  · rw [if_neg hk]
    cases family with
    | combinations => rw [length_selections, hletters, count]
    | multisets => rw [length_multiselections, hletters, Nat.multichoose_eq, count]
    | permutations =>
      dsimp only [count]
      split_ifs with hn
      · rfl
      · rw [length_arrangements, hletters, Nat.descFactorial_eq_div (by omega)]
    | words => rw [length_tuples_replicate, hletters, count]

end Family

/-! ## The group -/

namespace Words

variable {g : Words}

theorem create_eq_ok {start n k : Nat} {family : Family} {label : Option String}
    (h : create start n k family label = .ok g) : g.ids.first = start ∧
      g.sequences = g.family.sequences g.n g.k ∧ g.sequences.length = g.ids.size := by
  unfold create at h
  obtain ⟨ids, hids, h⟩ := Except.bind_eq_ok_iff.mp h
  obtain ⟨format, -, h⟩ := Except.bind_eq_ok_iff.mp h
  obtain ⟨rfl, -⟩ := IdRange.alloc_eq_ok_iff.mp hids
  cases h
  exact ⟨rfl, rfl, rfl⟩

theorem create_params {start n k : Nat} {family : Family} {label : Option String}
    (h : create start n k family label = .ok g) : g.family = family ∧ g.n = n ∧ g.k = k := by
  unfold create at h
  obtain ⟨ids, -, h⟩ := Except.bind_eq_ok_iff.mp h
  obtain ⟨format, -, h⟩ := Except.bind_eq_ok_iff.mp h
  cases h
  exact ⟨rfl, rfl, rfl⟩

theorem zip_ids_eq (h : g.sequences.length = g.ids.size) :
    g.sequences.zip g.ids.toList = g.sequences.zipIdx g.ids.first := by
  rw [List.zipIdx_eq_zip_range', h]
  rfl

theorem find?_eq_none_iff {p : Pattern} {n k : Nat} (h : p.length = k) :
    (p.reduceOption.find? fun i => i = 0 || n < i) = none ↔
      p.within (List.replicate k (List.range' 1 n)) = true := by
  rw [Pattern.within_replicate h, List.find?_eq_none]
  refine forall_congr' fun i => ?_
  rw [List.reduceOption_mem_iff, List.mem_range'_1]
  refine imp_congr_right fun _ => ?_
  rw [Bool.or_eq_true, decide_eq_true_eq, decide_eq_true_eq]
  omega

variable (hsequences : g.sequences = g.family.sequences g.n g.k)

include hsequences

theorem idOf_of_mem {e : Index × Nat} (he : e ∈ g.sequences.zipIdx g.ids.first) :
    g.idOf e.1 = .ok e.2 := by
  have hmem := List.fst_mem_of_mem_zipIdx he
  obtain ⟨hfirst, hget⟩ := List.mem_zipIdx_iff_le_and_getElem?_sub.mp he
  rw [idOf, if_pos (Family.mem_sequences.mp (hsequences ▸ hmem)).2]
  rw [VarGroup.idxOf?_of_nodup (hsequences ▸ Family.nodup_sequences _ _ _) hget]
  exact congrArg Except.ok (by omega)

omit hsequences in
theorem idOf_of_not_mem {word : Index} (h : word ∉ g.sequences) :
    (g.idOf word).mapError Error.kind = .error .indexOutOfRange := by
  rw [idOf]
  split_ifs
  · rw [List.idxOf?_eq_none_iff.mpr h]
    rfl
  · rfl

theorem checkPattern_kind (p : Pattern) : (g.checkPattern p).mapError Error.kind =
    if p.Mismatched g.k then .error .invalidArgument
    else if (VarGroup.words g).answers g.sequences (p.full g.k) then .ok (p.full g.k)
    else .error .indexOutOfRange := by
  rw [checkPattern, Pattern.expand_eq]
  by_cases hmismatched : p.Mismatched g.k
  · rw [if_pos hmismatched, if_pos hmismatched]
    rfl
  · have hlen := Pattern.length_full hmismatched
    have hfind := find?_eq_none_iff (n := g.n) hlen
    rw [if_neg hmismatched, if_neg hmismatched, Except.ok_bind, VarGroup.answers]
    split
    · rename_i i hi
      rw [hi] at hfind
      have hwithin : (p.full g.k).within (VarGroup.words g).components = false :=
        Bool.eq_false_iff.mpr fun htrue => by cases hfind.mpr htrue
      rw [hwithin, Bool.false_and]
      rfl
    · rename_i hnone
      have hwithin : (p.full g.k).within (VarGroup.words g).components = true := hfind.mp hnone
      rw [hwithin, Bool.true_and]
      cases hfixed : (p.full g.k).fixed? with
      | none => rfl
      | some word =>
        show (g.idOf word >>= fun _ => pure (p.full g.k)).mapError Error.kind =
          if ((VarGroup.words g).forms word).any g.sequences.contains then .ok (p.full g.k)
          else .error ErrorKind.indexOutOfRange
        by_cases hword : word ∈ g.sequences
        · obtain ⟨id, he⟩ := VarGroup.exists_number hword g.ids.first
          rw [idOf_of_mem hsequences he, if_pos ((VarGroup.any_forms_iff fun _ => rfl).mpr hword)]
          rfl
        · rw [if_neg (fun hany => hword ((VarGroup.any_forms_iff fun _ => rfl).mp hany)),
            Except.mapError_bind, idOf_of_not_mem hword]
          rfl

theorem indices_kind (p : Pattern) : (g.indices p).mapError Error.kind =
    (VarGroup.words g).select g.sequences p := by
  rw [indices, Except.mapError_map, checkPattern_kind hsequences, VarGroup.select,
    VarGroup.fits_eq_admits fun _ => rfl]
  show _ = if p.Mismatched g.k then _ else if VarGroup.answers _ _ (p.full g.k) then _ else _
  split_ifs <;> rfl

theorem evaluate_of_mem {e : Index × Nat} (he : e ∈ g.sequences.zipIdx g.ids.first) :
    g.evaluate e.1 = .ok (.positive e.2) := by
  have hmem := List.fst_mem_of_mem_zipIdx he
  have hlen : e.1.length = g.k := (Family.mem_sequences.mp (hsequences ▸ hmem)).1
  rw [evaluate, Index.checkLength, if_pos hlen, Except.ok_bind, idOf_of_mem hsequences he]
  rfl

theorem evaluate_eq_ok_iff {word : Index} {l : Lit} : g.evaluate word = .ok l ↔
    ∃ id, (word, id) ∈ g.sequences.zipIdx g.ids.first ∧ l = .positive id := by
  constructor
  · intro hl
    have hmem : word ∈ g.sequences := by
      rw [hsequences, Family.mem_sequences]
      obtain ⟨_, hlength, hl⟩ := Except.bind_eq_ok_iff.mp hl
      obtain ⟨id, hid, -⟩ := Except.bind_eq_ok_iff.mp hl
      rw [idOf] at hid
      split_ifs at hid with haccepts
      exact ⟨Index.checkLength_eq_ok_iff.mp hlength, haccepts⟩
    obtain ⟨id, he⟩ := VarGroup.exists_number hmem g.ids.first
    rw [evaluate_of_mem hsequences he, Except.ok.injEq] at hl
    exact ⟨_, he, hl.symm⟩
  · rintro ⟨id, he, rfl⟩
    exact evaluate_of_mem hsequences he

theorem exists_evaluate_iff {word : Index} : (∃ l, g.evaluate word = .ok l) ↔
    word.length = g.k ∧ g.family.accepts g.n word = true := by
  rw [← Family.mem_sequences, ← hsequences]
  constructor
  · rintro ⟨l, hl⟩
    obtain ⟨id, he, -⟩ := (evaluate_eq_ok_iff hsequences).mp hl
    exact List.fst_mem_of_mem_zipIdx he
  · intro hmem
    obtain ⟨id, he⟩ := VarGroup.exists_number hmem g.ids.first
    exact ⟨_, evaluate_of_mem hsequences he⟩

theorem lt_iff_of_evaluate {word word' : Index} {l l' : Lit} (hl : g.evaluate word = .ok l)
    (hl' : g.evaluate word' = .ok l') : word < word' ↔ l.var < l'.var := by
  obtain ⟨id, he, rfl⟩ := (evaluate_eq_ok_iff hsequences).mp hl
  obtain ⟨id', he', rfl⟩ := (evaluate_eq_ok_iff hsequences).mp hl'
  obtain ⟨hfirst, hget⟩ := List.mem_zipIdx_iff_le_and_getElem?_sub.mp he
  obtain ⟨hfirst', hget'⟩ := List.mem_zipIdx_iff_le_and_getElem?_sub.mp he'
  obtain ⟨hi, hword⟩ := List.getElem?_eq_some_iff.mp hget
  obtain ⟨hi', hword'⟩ := List.getElem?_eq_some_iff.mp hget'
  have hsorted : g.sequences.SortedLT :=
    (hsequences ▸ Family.pairwise_sequences g.family g.n g.k).sortedLT
  dsimp only at hword hword' hfirst hfirst'
  rw [← hword, ← hword', hsorted.getElem_lt_getElem_iff]
  show _ ↔ id < id'
  omega

omit hsequences in
theorem create_enumerates {start n k : Nat} {family : Family} {label : Option String}
    (h : create start n k family label = .ok g) :
    (VarGroup.words g).Enumerates g.sequences := by
  obtain ⟨-, hsequences, hlength⟩ := create_eq_ok h
  refine ⟨hlength, fun harity => ?_, fun e he => evaluate_of_mem hsequences he,
    fun e he l hl => ?_, fun l hl => ?_, indices_kind hsequences, fun p => ?_⟩
  · have hk : g.k = 0 := harity
    rw [hsequences, Family.sequences, if_pos hk]
    exact List.mem_singleton_self _
  · have hget : g.sequences[e.2 - g.ids.first]? = some e.1 :=
      (List.mem_zipIdx_iff_le_and_getElem?_sub.mp he).2
    show toIndex g l = .ok e.1
    rw [toIndex, if_pos (VarGroup.contains_of_mem_zipIdx hlength he hl), hl, hget]
    rfl
  · exact if_neg (Bool.eq_false_iff.mp hl)
  · show (g.checkPattern p).map _ = (g.checkPattern p).map _ >>= _
    cases g.checkPattern p with
    | error e => rfl
    | ok p =>
      rw [Except.map_ok, Except.map_ok, Except.ok_bind, zip_ids_eq hlength]
      refine Eq.symm (VarGroup.mapM_filter_zipIdx ?_ p.admits)
      exact fun e he => evaluate_of_mem hsequences he

omit hsequences in
/-- **The table of a family and its property agree.** The generator of the family gives the table
and ends. The table lists the words of length `k` that the family accepts, each once, in
lexicographic order, and they are as many as the formula of the family says. So a group evaluates
exactly these words, to literals in the order of the words. -/
theorem table_agrees (family : Family) (n k : Nat) :
    (∀ fuel, family.count n k ≤ fuel →
      family.generate n k fuel = some (family.sequences n k)) ∧
    (∀ word, word ∈ family.sequences n k ↔ word.length = k ∧ family.accepts n word = true) ∧
    (family.sequences n k).Pairwise (· < ·) ∧ (family.sequences n k).Nodup ∧
    (family.sequences n k).length = family.count n k ∧
    (k = 0 → family.count n k = 1) ∧
    (n < k → Family.combinations.count n k = 0 ∧ Family.permutations.count n k = 0) ∧
    ∀ start label g, create start n k family label = .ok g →
      g.ids.size = family.count n k ∧
      (∀ word, (∃ l, g.evaluate word = .ok l) ↔
        word.length = k ∧ family.accepts n word = true) ∧
      ∀ word word' l l', g.evaluate word = .ok l → g.evaluate word' = .ok l' →
        (word < word' ↔ l.var < l'.var) := by
  refine ⟨fun fuel hfuel => family.generate_eq ((family.length_sequences n k).trans_le hfuel),
    fun word => Family.mem_sequences, Family.pairwise_sequences family n k,
    Family.nodup_sequences family n k, Family.length_sequences family n k, fun hk => ?_,
    fun hlt => ⟨Nat.choose_eq_zero_of_lt hlt, if_pos hlt⟩, fun start label g h => ?_⟩
  · rw [hk, Family.count_zero]
  · obtain ⟨-, hsequences, hlength⟩ := create_eq_ok h
    obtain ⟨rfl, rfl, rfl⟩ := create_params h
    refine ⟨?_, fun word => exists_evaluate_iff hsequences, fun word word' l l' hl hl' => ?_⟩
    · rw [← hlength, hsequences, Family.length_sequences]
    · exact lt_iff_of_evaluate hsequences hl hl'

omit hsequences in
/-- The permutations of three letters, two at a time. -/
theorem table_agrees_permutations : ∃ g, create 5 3 2 .permutations none = .ok g ∧
    Family.permutations.generate 3 2 6 =
      some [[1, 2], [1, 3], [2, 1], [2, 3], [3, 1], [3, 2]] ∧
    g.ids.size = 6 ∧ g.evaluate [2, 3] = .ok (.positive 8) ∧ g.evaluate [3, 1] = .ok (.positive 9) ∧
      (([2, 3] : Index) < [3, 1] ↔ 8 < 9) ∧ ¬ ∃ l, g.evaluate [2, 2] = .ok l := by
  obtain ⟨g, hg, hlow, hhigh⟩ : ∃ g, create 5 3 2 .permutations none = .ok g ∧
      g.evaluate [2, 3] = .ok (.positive 8) ∧ g.evaluate [3, 1] = .ok (.positive 9) := by
    refine ⟨⟨⟨5, 6⟩, 3, 2, .permutations, [[1, 2], [1, 3], [2, 1], [2, 3], [3, 1], [3, 2]],
      ⟨[.char 'p', .char '_', .char '\x7b', .argument 0, .char '\x7d']⟩⟩, ?_, ?_, ?_⟩
    · decide +kernel
    · rfl
    · rfl
  obtain ⟨hgenerate, -, -, -, -, -, -, hgroup⟩ := table_agrees .permutations 3 2
  obtain ⟨hsize, hevaluate, hlt⟩ := hgroup 5 none g hg
  refine ⟨g, hg, hgenerate 6 (by decide), hsize, hlow, hhigh, hlt _ _ _ _ hlow hhigh, ?_⟩
  rw [hevaluate]
  decide

end Words

end Clausal
