import Clausal.Text.Decimal
import Mathlib.Data.Nat.Digits.Defs

/-!
# Decimal notation

Digits are read from the highest one on. What is read is the number that they write in base 10,
leading zeros allowed. A number that is printed is read back (`decimal_toString`).
-/

namespace Clausal

/-- Some characters write a number, as decimal digits. -/
structure Decimal (n : Nat) (digits : List Char) : Prop where
  ne_nil : digits ≠ []
  isDigit : ∀ c ∈ digits, c.isDigit = true
  value : Nat.ofDigits 10 (digits.reverse.map fun c => c.toNat - '0'.toNat) = n

theorem foldl_digits (digits : List Char) :
    digits.foldl (fun value c => 10 * value + (c.toNat - '0'.toNat)) 0 =
      Nat.ofDigits 10 (digits.reverse.map fun c => c.toNat - '0'.toNat) := by
  rw [Nat.ofDigits_eq_foldr, List.foldr_map, List.foldr_reverse]
  simp only [Nat.cast_id, Nat.add_comm]

theorem digitsValue?_eq_some_iff {digits : List Char} {n : Nat} :
    digitsValue? digits = some n ↔ Decimal n digits := by
  rw [digitsValue?, foldl_digits]
  constructor
  · intro h
    split_ifs at h with hbad
    rw [Bool.or_eq_true, not_or, List.isEmpty_iff, List.any_eq_true] at hbad
    refine ⟨hbad.1, fun c hc => ?_, Option.some.inj h⟩
    by_contra hdigit
    exact hbad.2 ⟨c, hc, by simpa using hdigit⟩
  · rintro ⟨hne, hdigit, rfl⟩
    rw [if_neg]
    rw [Bool.or_eq_true, not_or, List.isEmpty_iff, List.any_eq_true]
    refine ⟨hne, ?_⟩
    rintro ⟨c, hc, hbad⟩
    rw [hdigit c hc] at hbad
    cases hbad

theorem Decimal.unique {m n : Nat} {digits : List Char} (hm : Decimal m digits)
    (hn : Decimal n digits) : m = n :=
  hm.value.symm.trans hn.value

theorem decimal_toString (n : Nat) : Decimal n (toString n).toList := by
  rw [Nat.toString_eq_ofList_toDigits, String.toList_ofList]
  refine ⟨Nat.toDigits_ne_nil, ?_, ?_⟩
  · intro c hc
    exact Nat.isDigit_of_mem_toDigits (by decide) (by decide) hc
  · rw [← foldl_digits]
    exact Nat.ofDigitChars_ten_toDigits

theorem natText_injective {m n : Nat} (h : (toString m).toList = (toString n).toList) : m = n :=
  (decimal_toString m).unique (h ▸ decimal_toString n)

/-- A number that no digit follows is read off a text in one way. -/
theorem natText_append_injective {m n : Nat} {rest rest' : List Char}
    (hrest : ∀ c ∈ rest.head?, c.isDigit = false) (hrest' : ∀ c ∈ rest'.head?, c.isDigit = false)
    (h : (toString m).toList ++ rest = (toString n).toList ++ rest') : m = n ∧ rest = rest' := by
  have hdigits : ∀ (n : Nat) {rest : List Char}, (∀ c ∈ rest.head?, c.isDigit = false) →
      ((toString n).toList ++ rest).takeWhile Char.isDigit = (toString n).toList := by
    intro n rest hrest
    rw [List.takeWhile_append_of_pos (decimal_toString n).isDigit]
    cases rest with
    | nil => simp
    | cons c rest => simp [hrest c rfl]
  have htext : (toString m).toList = (toString n).toList := by
    rw [← hdigits m hrest, h, hdigits n hrest']
  refine ⟨natText_injective htext, ?_⟩
  rw [htext] at h
  exact List.append_cancel_left h

end Clausal
