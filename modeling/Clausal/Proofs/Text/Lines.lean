import Clausal.Dimacs.Parser
import Mathlib.Data.List.Basic

/-!
# Lines of a file and lines of its text

A file is split into lines byte by byte, and each line is read as UTF-8 on its own. This comes to
the same as reading the whole file and splitting its text: only a line feed is written with the byte
of a line feed, so a file is valid exactly when all of its lines are (`mapM_decode_splitLines_iff`).
-/

namespace Clausal

/-- The bytes of a text. -/
def encode (text : List Char) : List UInt8 := text.flatMap String.utf8EncodeChar

/-- The text with given bytes, if there is one. -/
def decode (bytes : List UInt8) : Option (List Char) :=
  (String.fromUTF8? ⟨bytes.toArray⟩).map String.toList

/-! ## Texts and their bytes -/

theorem toList_toByteArray (text : String) : text.toByteArray.data.toList = encode text.toList := by
  rw [← String.utf8Encode_toList, List.utf8Encode, List.toList_data_toByteArray]
  rfl

theorem mk_encode (text : List Char) :
    (⟨(encode text).toArray⟩ : ByteArray) = (String.ofList text).toByteArray := by
  apply ByteArray.ext
  rw [← Array.toList_inj, toList_toByteArray, String.toList_ofList]

theorem fromUTF8?_eq_some_iff {bytes : ByteArray} {text : String} :
    String.fromUTF8? bytes = some text ↔ text.toByteArray = bytes := by
  rw [String.fromUTF8?]
  constructor
  · intro h
    split at h
    · cases h
      rfl
    · cases h
  · rintro rfl
    rw [dif_pos text.isValidUTF8]
    rfl

theorem decode_eq_some_iff {bytes : List UInt8} {text : List Char} :
    decode bytes = some text ↔ encode text = bytes := by
  rw [decode, Option.map_eq_some_iff]
  constructor
  · rintro ⟨s, hs, rfl⟩
    rw [fromUTF8?_eq_some_iff] at hs
    rw [← toList_toByteArray, hs]
  · rintro rfl
    refine ⟨String.ofList text, ?_, String.toList_ofList⟩
    rw [mk_encode, fromUTF8?_eq_some_iff]

theorem encode_injective {text text' : List Char} (h : encode text = encode text') :
    text = text' := by
  have hdecode := decode_eq_some_iff.mpr h
  rw [decode_eq_some_iff.mpr rfl] at hdecode
  exact (Option.some.inj hdecode).symm

theorem mapM_decode_eq_some_iff {lines : List (List UInt8)} {texts : List (List Char)} :
    lines.mapM decode = some texts ↔ texts.map encode = lines := by
  induction lines generalizing texts with
  | nil =>
    rw [List.mapM_nil, List.map_eq_nil_iff]
    exact ⟨fun h => (Option.some.inj h).symm, fun h => congrArg some h.symm⟩
  | cons line lines ih =>
    rw [List.mapM_cons, List.map_eq_cons_iff]
    constructor
    · intro h
      obtain ⟨text, htext, h⟩ := Option.bind_eq_some_iff.mp h
      obtain ⟨rest, hrest, h⟩ := Option.bind_eq_some_iff.mp h
      exact ⟨text, rest, (Option.some.inj h).symm, decode_eq_some_iff.mp htext, ih.mp hrest⟩
    · rintro ⟨text, rest, rfl, htext, hrest⟩
      rw [decode_eq_some_iff.mpr htext, ih.mpr hrest]
      rfl

/-! ## Line feeds -/

theorem eq_of_eq_ofNat {n : Nat} (hn : n < 256) (h : (10 : UInt8) = UInt8.ofNat n) : n = 10 := by
  have htoNat := congrArg UInt8.toNat h
  rw [UInt8.toNat_ofNat_of_lt' hn] at htoNat
  exact htoNat.symm

theorem eq_lineFeed_of_mem {c : Char} (h : 10 ∈ String.utf8EncodeChar c) : c = '\n' := by
  have hlarge : ∀ n, n < 256 → 128 ≤ n → (10 : UInt8) ≠ UInt8.ofNat n := by
    intro n hn hhigh heq
    have := eq_of_eq_ofNat hn heq
    omega
  have hcode : c.val.toNat = 10 := by
    rw [String.utf8EncodeChar] at h
    -- all bytes of a longer encoding have their highest bit set
    split_ifs at h with hone htwo hthree
    · exact eq_of_eq_ofNat (by omega) (List.mem_singleton.mp h)
    · simp only [List.mem_cons, List.not_mem_nil, or_false] at h
      rcases h with h | h
      all_goals exact absurd h (hlarge _ (by omega) (by omega))
    · simp only [List.mem_cons, List.not_mem_nil, or_false] at h
      rcases h with h | h | h
      all_goals exact absurd h (hlarge _ (by omega) (by omega))
    · simp only [List.mem_cons, List.not_mem_nil, or_false] at h
      rcases h with h | h | h | h
      all_goals exact absurd h (hlarge _ (by omega) (by omega))
  apply Char.ext
  apply UInt32.toNat_inj.mp
  exact hcode

theorem not_mem_encode {text : List Char} (h : '\n' ∉ text) : 10 ∉ encode text := by
  intro hmem
  obtain ⟨c, hc, hbyte⟩ := List.mem_flatMap.mp hmem
  exact h (eq_lineFeed_of_mem hbyte ▸ hc)

theorem mem_of_mem_splitOn {α : Type} [BEq α] [LawfulBEq α] {x y : α} {xs part : List α}
    (h : part ∈ xs.splitOn x) (hy : y ∈ part) : y ∈ xs ∧ y ≠ x := by
  induction xs generalizing part with
  | nil =>
    rw [List.splitOn_nil, List.mem_singleton] at h
    rw [h] at hy
    cases hy
  | cons z zs ih =>
    have hlater : y ∈ zs ∧ y ≠ x → y ∈ z :: zs ∧ y ≠ x := And.imp_left (List.mem_cons_of_mem z)
    rw [List.splitOn_cons_eq_if_modifyHead] at h
    split_ifs at h with hz
    · rcases List.mem_cons.mp h with rfl | h
      · cases hy
      · exact hlater (ih h hy)
    · obtain ⟨first, others, hsplit⟩ := List.exists_cons_of_ne_nil (List.splitOn_ne_nil x zs)
      rw [hsplit, List.modifyHead_cons] at h
      rw [hsplit] at ih
      rcases List.mem_cons.mp h with rfl | h
      · rcases List.mem_cons.mp hy with rfl | hy
        · exact ⟨List.mem_cons_self, fun heq => hz (beq_iff_eq.mpr heq)⟩
        · exact hlater (ih List.mem_cons_self hy)
      · exact hlater (ih (List.mem_cons_of_mem first h) hy)

theorem not_mem_of_mem_splitOn {α : Type} [BEq α] [LawfulBEq α] {x : α} {xs part : List α}
    (h : part ∈ xs.splitOn x) : x ∉ part :=
  fun hx => (mem_of_mem_splitOn h hx).2 rfl

theorem encode_intercalate (lines : List (List Char)) :
    encode (['\n'].intercalate lines) = [10].intercalate (lines.map encode) := by
  induction lines with
  | nil => rfl
  | cons line lines ih =>
    cases lines with
    | nil => simp
    | cons next lines =>
      rw [List.map_cons, List.map_cons, List.intercalate_cons_cons, List.intercalate_cons_cons,
        ← List.map_cons, ← ih]
      simp only [encode, List.flatMap_append]
      rfl

/-! ## Lines -/

namespace Dimacs

theorem splitLines_eq_splitOn (bytes : List UInt8) : splitLines bytes = bytes.splitOn 10 := by
  induction bytes with
  | nil => rfl
  | cons b bytes ih =>
    rw [splitLines, List.splitOn_cons_eq_if_modifyHead, ih]
    by_cases hb : b = 10
    · rw [if_pos hb, if_pos (beq_iff_eq.mpr hb)]
    · rw [if_neg hb, if_neg (mt beq_iff_eq.mp hb)]
      obtain ⟨first, others, hsplit⟩ := List.exists_cons_of_ne_nil (List.splitOn_ne_nil 10 bytes)
      rw [hsplit]
      rfl

theorem splitLines_encode (text : List Char) :
    splitLines (encode text) = (text.splitOn '\n').map encode := by
  have htext : encode text = [10].intercalate ((text.splitOn '\n').map encode) := by
    rw [← encode_intercalate, List.intercalate_splitOn]
  rw [splitLines_eq_splitOn, htext, List.splitOn_intercalate]
  · intro line hline
    obtain ⟨part, hpart, rfl⟩ := List.mem_map.mp hline
    exact not_mem_encode (not_mem_of_mem_splitOn hpart)
  · rw [ne_eq, List.map_eq_nil_iff]
    exact List.splitOn_ne_nil _ _

/-- All lines of a file are valid exactly when the file is, and then they are the lines of its
text. -/
theorem mapM_decode_splitLines_iff {bytes : ByteArray} {lines : List (List Char)} :
    (splitLines bytes.data.toList).mapM decode = some lines ↔
      ∃ text : String, text.toByteArray = bytes ∧ text.toList.splitOn '\n' = lines := by
  rw [mapM_decode_eq_some_iff]
  constructor
  · intro h
    have hbytes : encode (['\n'].intercalate lines) = bytes.data.toList := by
      rw [encode_intercalate, h, splitLines_eq_splitOn, List.intercalate_splitOn]
    refine ⟨String.ofList (['\n'].intercalate lines), ?_, ?_⟩
    · rw [← mk_encode, hbytes]
    · rw [String.toList_ofList]
      rw [← hbytes, splitLines_encode] at h
      exact List.map_injective_iff.mpr (fun _ _ => encode_injective) h.symm
  · rintro ⟨text, rfl, rfl⟩
    rw [toList_toByteArray, splitLines_encode]

end Dimacs

end Clausal
