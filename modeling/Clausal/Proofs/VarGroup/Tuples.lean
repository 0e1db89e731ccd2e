import Clausal.Proofs.VarGroup.Table

/-!
# Groups that number tuples

Single variables, blocks and binary mappings number all tuples over the values of their components.
A block weighs a component by the number of tuples behind it; a binary mapping is a block of two
dimensions whose second one is counted downwards.
-/

namespace Clausal

/-! ## Single variables -/

namespace SingleVar

theorem enumerates (g : SingleVar) : (VarGroup.singleton g).Enumerates [[]] where
  length_eq := rfl
  nil_mem _ := List.mem_singleton_self _
  evaluate_eq e he := by
    rw [List.zipIdx_singleton, List.mem_singleton] at he
    rw [he]
    rfl
  toIndex_eq e he l hl := by
    rw [List.zipIdx_singleton, List.mem_singleton] at he
    rw [he] at hl ⊢
    exact if_pos hl
  toIndex_outside l hl := by
    refine if_neg fun hvar => ?_
    rw [VarGroup.contains, IdRange.contains, hvar] at hl
    simp [VarGroup.ids, ids, IdRange.stop] at hl
  indices_kind p := by
    refine Eq.trans ?_ (VarGroup.select_tuples (g := .singleton g) (fun _ => rfl) rfl
      (fun _ => .ok ()) (fun _ => [[]]) (fun p _ => ?_) (fun p _ _ => ?_) p)
    · show ((p.expand 0).map fun _ => [[]]).mapError Error.kind = (p.expand 0 >>= _).mapError _
      rw [Pattern.expand_eq]
      split_ifs <;> rfl
    · show _ = if p.within [] then _ else _
      rw [Pattern.within, List.zip_nil_right]
      rfl
    · rw [Pattern.narrow, show (VarGroup.singleton g).components = [] from rfl,
        List.zipWith_nil_right]
      rfl
  lits_eq p := by
    show (p.expand 0).map _ = (p.expand 0).map _ >>= _
    rw [Pattern.expand_eq]
    split_ifs <;> rfl

end SingleVar

/-! ## Blocks -/

namespace Block

/-- Offsets and digits number the tuples in their order. -/
theorem weigh?_numbers {ranges weights : List Nat} {size : Nat}
    (h : weigh? ranges = some (weights, size)) :
    (tuples (ranges.map (List.range' 1 ·))).length = size ∧
      ∀ i index, (tuples (ranges.map (List.range' 1 ·)))[i]? = some index →
        offset weights index = i ∧ digits weights i = index := by
  induction ranges generalizing weights size with
  | nil =>
    cases h
    refine ⟨rfl, fun i index hindex => ?_⟩
    obtain ⟨hi, rfl⟩ := List.getElem?_eq_some_iff.mp hindex
    obtain rfl : i = 0 := Nat.lt_one_iff.mp hi
    exact ⟨rfl, rfl⟩
  | cons r ranges ih =>
    rw [weigh?, Option.bind_eq_some_iff] at h
    obtain ⟨⟨later, count⟩, hlater, htotal⟩ := h
    obtain ⟨hcount, hnumbers⟩ := ih hlater
    obtain ⟨total, hchecked, htotal⟩ := Option.map_eq_some_iff.mp htotal
    cases htotal
    rw [checkedWord] at hchecked
    split_ifs at hchecked
    cases hchecked
    rw [List.map_cons, length_tuples_cons, hcount, List.length_range', Nat.mul_comm]
    refine ⟨rfl, fun i index hindex => ?_⟩
    -- tuple `i` has first component `i / count` and goes on as tuple `i % count` of the rest
    rw [getElem?_tuples_cons, hcount, Option.bind_eq_some_iff] at hindex
    obtain ⟨x, hx, hindex⟩ := hindex
    obtain ⟨rest, hrest, rfl⟩ := Option.map_eq_some_iff.mp hindex
    obtain ⟨hoffset, hdigits⟩ := hnumbers _ _ hrest
    obtain ⟨-, rfl⟩ := List.getElem?_eq_some_iff.mp hx
    rw [List.getElem_range', offset, digits, hoffset, hdigits]
    refine ⟨?_, ?_⟩
    · rw [show 1 + 1 * (i / count) - 1 = i / count by omega, Nat.mul_comm, Nat.div_add_mod]
    · rw [show 1 + 1 * (i / count) = i / count + 1 by omega]

theorem checkFrom_kind (position : Nat) (p : Pattern) (ranges : List Nat) :
    (checkFrom position p ranges).mapError Error.kind =
      if p.within (ranges.map (List.range' 1 ·)) then .ok () else .error .indexOutOfRange := by
  induction p generalizing position ranges with
  | nil =>
    unfold checkFrom
    rfl
  | cons fixed p ih =>
    cases ranges with
    | nil => cases fixed <;> rfl
    | cons r ranges =>
      cases fixed with
      | none =>
        rw [checkFrom, ih]
        rfl
      | some i =>
        rw [checkFrom, List.map_cons, Pattern.within_cons_cons, Option.all_some]
        by_cases hi : i = 0 ∨ r < i
        · have hfalse : (List.range' 1 r).contains i = false :=
            Bool.eq_false_iff.mpr fun htrue => contains_range'_iff.mp htrue hi
          rw [if_pos hi, hfalse, Bool.false_and]
          rfl
        · rw [if_neg hi, ih, contains_range'_iff.mpr hi, Bool.true_and]

theorem choices_eq_narrow {p : Pattern} {ranges : List Nat}
    (h : p.within (ranges.map (List.range' 1 ·)) = true) :
    choices p ranges = p.narrow (ranges.map (List.range' 1 ·)) := by
  induction p generalizing ranges with
  | nil => rfl
  | cons fixed p ih =>
    cases ranges with
    | nil => rfl
    | cons r ranges =>
      rw [List.map_cons, Pattern.within_cons_cons, Bool.and_eq_true] at h
      rw [List.map_cons, Pattern.narrow_cons_cons, ← ih h.2]
      cases fixed with
      | none =>
        rw [Pattern.filter_all_none]
        rfl
      | some i =>
        have hi : i ∈ List.range' 1 r := List.contains_iff_mem.mp h.1
        rw [Pattern.filter_all_some List.nodup_range' hi]
        rfl

theorem create_eq_ok {start : Nat} {ranges : List Nat} {label : Option String} {g : Block}
    (h : create start ranges label = .ok g) :
    g.ranges = ranges ∧ ranges ≠ [] ∧ g.ids.first = start ∧
      weigh? ranges = some (g.weights, g.ids.size) := by
  unfold create at h
  split_ifs at h with hempty
  · cases h
  · split at h
    · cases h
    · split at h
      · cases h
      · rename_i weights size hweigh
        obtain ⟨-, -, h⟩ := Except.bind_eq_ok_iff.mp h
        obtain ⟨format, -, h⟩ := Except.bind_eq_ok_iff.mp h
        obtain ⟨ids, hids, h⟩ := Except.bind_eq_ok_iff.mp h
        obtain ⟨rfl, -⟩ := IdRange.alloc_eq_ok_iff.mp hids
        cases h
        exact ⟨rfl, by simpa using hempty, rfl, hweigh⟩

section Enumerates

variable {g : Block} {index : Index}

theorem evaluate_of_mem (h : index ∈ tuples (g.ranges.map (List.range' 1 ·))) :
    g.evaluate index = .ok (g.litAt index) := by
  have hlen : index.length = (g.ranges.map (List.range' 1 ·)).length := (mem_tuples.mp h).length_eq
  have hwithin := (Pattern.within_map_some hlen).mpr h
  have hcheck : checkFrom 1 (index.map some) g.ranges = .ok () := by
    rw [← Except.mapError_eq_ok_iff, checkFrom_kind, if_pos hwithin]
  rw [evaluate, Index.checkLength, if_pos (by rw [hlen, List.length_map]; rfl), Except.ok_bind,
    hcheck]
  rfl

theorem mem_of_checks (hlength : index.checkLength g.arity = .ok ())
    (hcheck : checkFrom 1 (index.map some) g.ranges = .ok ()) :
    index ∈ tuples (g.ranges.map (List.range' 1 ·)) := by
  have hlen : index.length = (g.ranges.map (List.range' 1 ·)).length := by
    rw [List.length_map]
    exact Index.checkLength_eq_ok_iff.mp hlength
  rw [← Except.mapError_eq_ok_iff, checkFrom_kind] at hcheck
  split_ifs at hcheck with hwithin
  exact (Pattern.within_map_some hlen).mp hwithin

theorem mem_of_evaluate {l : Lit} (h : g.evaluate index = .ok l) :
    index ∈ tuples (g.ranges.map (List.range' 1 ·)) := by
  obtain ⟨_, hlength, h⟩ := Except.bind_eq_ok_iff.mp h
  obtain ⟨_, hcheck, -⟩ := Except.bind_eq_ok_iff.mp h
  exact mem_of_checks hlength hcheck

theorem indices_kind (p : Pattern) : (g.indices p).mapError Error.kind =
    (VarGroup.block g).select (tuples (g.ranges.map (List.range' 1 ·))) p := by
  refine VarGroup.select_tuples (g := .block g) (fun _ => rfl) (List.length_map _).symm
    (fun p => checkFrom 1 p g.ranges) (fun p => tuples (choices p g.ranges))
    (fun p _ => checkFrom_kind 1 p g.ranges) (fun p _ hwithin => ?_) p
  exact congrArg tuples (choices_eq_narrow hwithin)

theorem create_enumerates {start : Nat} {ranges : List Nat} {label : Option String}
    (h : create start ranges label = .ok g) :
    (VarGroup.block g).Enumerates (tuples (g.ranges.map (List.range' 1 ·))) := by
  obtain ⟨rfl, hne, rfl, hweigh⟩ := create_eq_ok h
  obtain ⟨hlength, hnumbers⟩ := weigh?_numbers hweigh
  have hrow : ∀ e ∈ (tuples (g.ranges.map (List.range' 1 ·))).zipIdx g.ids.first,
      e.2 = g.ids.first + offset g.weights e.1 ∧
        digits g.weights (e.2 - g.ids.first) = e.1 := fun e he => by
    obtain ⟨hfirst, he⟩ := List.mem_zipIdx_iff_le_and_getElem?_sub.mp he
    obtain ⟨hoffset, hdigits⟩ := hnumbers _ _ he
    exact ⟨by omega, hdigits⟩
  refine ⟨hlength, fun harity => ?_, fun e he => ?_, fun e he l hl => ?_, fun l hl => ?_,
    indices_kind, fun p => ?_⟩
  · exact absurd (List.eq_nil_of_length_eq_zero harity) hne
  · have hmem : e.1 ∈ tuples _ := List.fst_mem_of_mem_zipIdx he
    rw [(hrow e he).1]
    exact evaluate_of_mem hmem
  · show toIndex g l = .ok e.1
    rw [toIndex, if_pos (VarGroup.contains_of_mem_zipIdx hlength he hl), hl, (hrow e he).2]
  · exact if_neg (Bool.eq_false_iff.mp hl)
  · show (g.indices p).map _ = g.indices p >>= _
    cases his : g.indices p with
    | error e => rfl
    | ok is =>
      refine Eq.symm (Except.mapM_eq_ok fun index hindex => evaluate_of_mem ?_)
      exact VarGroup.mem_of_indices (g := .block g) (indices_kind p) his hindex

end Enumerates

end Block

/-! ## Binary mappings -/

namespace BinaryMapping

variable {f : BinaryMapping}

theorem bitsFor_le_iff {m b : Nat} : bitsFor m ≤ b ↔ m ≤ bitRange b := by
  show bitsFor m ≤ b ↔ m ≤ 2 ^ b
  rw [bitsFor]
  split_ifs with hone
  · exact iff_of_true (Nat.zero_le b) (Nat.le_trans hone Nat.one_le_two_pow)
  · have hne : m - 1 ≠ 0 := by omega
    rw [Nat.succ_le_iff, Nat.log2_lt hne]
    omega

theorem create_eq_ok {start n m : Nat} {label : Option String}
    (h : create start n m label = .ok f) :
    f.n = n ∧ f.m = m ∧ f.bits = bitsFor m ∧ f.ids = ⟨start, n * bitsFor m⟩ := by
  unfold create at h
  split_ifs at h with hempty
  · cases h
  · dsimp only at h
    split at h
    · cases h
    · rename_i size hsize
      obtain ⟨ids, hids, h⟩ := Except.bind_eq_ok_iff.mp h
      obtain ⟨format, -, h⟩ := Except.bind_eq_ok_iff.mp h
      obtain ⟨rfl, -⟩ := IdRange.alloc_eq_ok_iff.mp hids
      rw [checkedWord] at hsize
      split_ifs at hsize
      cases hsize
      cases h
      exact ⟨rfl, rfl, rfl, rfl⟩

theorem length_table : (tuples [f.domain, f.bitPositions]).length = f.n * f.bits := by
  simp [tuples, domain, bitPositions]

/-- The elements and bits in the order of their variables. -/
theorem eq_of_getElem?_table {i : Nat} {index : Index}
    (h : (tuples [f.domain, f.bitPositions])[i]? = some index) :
    index = [i / f.bits + 1, f.bits - 1 - i % f.bits] := by
  have hbits : (tuples [f.bitPositions]).length = f.bits := by
    simp [tuples, bitPositions]
  rw [getElem?_tuples_cons, hbits, Option.bind_eq_some_iff] at h
  obtain ⟨element, helement, h⟩ := h
  obtain ⟨rest, hrest, rfl⟩ := Option.map_eq_some_iff.mp h
  rw [getElem?_tuples_cons, tuples, List.length_singleton, Nat.div_one, Nat.mod_one,
    Option.bind_eq_some_iff] at hrest
  obtain ⟨bit, hbit, hrest⟩ := hrest
  obtain ⟨_, rfl⟩ := List.getElem?_eq_some_iff.mp helement
  obtain ⟨_, rfl⟩ := List.getElem?_eq_some_iff.mp hbit
  cases hrest
  simp [domain, bitPositions, Nat.add_comm]

theorem checkDomain_kind (i : Nat) : (f.checkDomain i).mapError Error.kind =
    if f.domain.contains i then .ok () else .error .indexOutOfRange :=
  refuse_kind rfl f.n i

theorem checkDomain_eq_ok_iff {i : Nat} : f.checkDomain i = .ok () ↔ i ∈ f.domain := by
  rw [← Except.mapError_eq_ok_iff, checkDomain_kind, ← List.contains_iff_mem]
  split_ifs with hi
  · exact iff_of_true rfl hi
  · exact iff_of_false nofun hi

theorem checkDomain_of_mem {i : Nat} (hi : i ∈ f.domain) : f.checkDomain i = .ok () :=
  checkDomain_eq_ok_iff.mpr hi

theorem mem_bitPositions {b : Nat} : b ∈ f.bitPositions ↔ b < f.bits := by
  rw [bitPositions, List.mem_reverse, List.mem_range]

theorem checkBit_eq_ok_iff {b : Nat} : f.checkBit b = .ok () ↔ b < f.bits := by
  rw [checkBit]
  split_ifs with hb <;> simp [hb]

theorem mem_table {i b : Nat} :
    [i, b] ∈ tuples [f.domain, f.bitPositions] ↔ i ∈ f.domain ∧ b < f.bits := by
  simp [mem_tuples, mem_bitPositions]

theorem checkBit_kind (b : Nat) : (f.checkBit b).mapError Error.kind =
    if f.bitPositions.contains b then .ok () else .error .indexOutOfRange := by
  have hmem : f.bitPositions.contains b = true ↔ b < f.bits :=
    List.contains_iff_mem.trans mem_bitPositions
  rw [checkBit]
  by_cases hb : b < f.bits
  · rw [if_pos hb, if_pos (hmem.mpr hb)]
    rfl
  · rw [if_neg hb, if_neg (fun htrue => hb (hmem.mp htrue))]
    rfl

theorem pairsAt_eq {element bit : Option Nat} (helement : element.all f.domain.contains = true)
    (hbit : bit.all f.bitPositions.contains = true) :
    (f.pairsAt element bit).map (fun e => [e.1, e.2]) =
      tuples (Pattern.narrow [element, bit] [f.domain, f.bitPositions]) := by
  have hlist : ∀ elements bits : List Nat,
      (if bits.isEmpty then [] else elements.flatMap fun i => bits.map (i, ·)).map
        (fun e => [e.1, e.2]) = tuples [elements, bits] := by
    intro elements bits
    rw [tuples_pair]
    cases bits with
    | nil => simp
    | cons b bits =>
      rw [List.isEmpty_cons, if_neg Bool.false_ne_true, List.map_flatMap]
      simp only [List.map_map]
      rfl
  have hdomain : f.domain.Nodup := List.nodup_range'
  have hpositions : f.bitPositions.Nodup := List.nodup_reverse.mpr List.nodup_range
  rw [Pattern.narrow_cons_cons, Pattern.narrow_cons_cons]
  cases element with
  | none =>
    cases bit with
    | none =>
      rw [Pattern.filter_all_none, Pattern.filter_all_none]
      exact hlist _ _
    | some b =>
      rw [Pattern.filter_all_none,
        Pattern.filter_all_some hpositions (List.contains_iff_mem.mp hbit)]
      exact hlist _ [b]
  | some i =>
    rw [Pattern.filter_all_some hdomain (List.contains_iff_mem.mp helement)]
    cases bit with
    | none =>
      rw [Pattern.filter_all_none]
      exact hlist _ _
    | some b =>
      rw [Pattern.filter_all_some hpositions (List.contains_iff_mem.mp hbit)]
      exact hlist _ [b]

theorem forM_kind {check : Nat → Except Error Unit} {choices : List Nat}
    (hcheck : ∀ i, (check i).mapError Error.kind =
      if choices.contains i then .ok () else .error .indexOutOfRange) (fixed : Option Nat) :
    (fixed.forM check).mapError Error.kind =
      if fixed.all choices.contains then .ok () else .error .indexOutOfRange := by
  cases fixed with
  | none => rfl
  | some i => exact hcheck i

theorem indices_kind (p : Pattern) : (f.indices p).mapError Error.kind =
    (VarGroup.binary f).select (tuples [f.domain, f.bitPositions]) p := by
  refine Eq.trans ?_ (VarGroup.select_tuples (g := .binary f) (fun _ => rfl) rfl
    (fun p => p[0]?.join.forM f.checkDomain >>= fun _ => p[1]?.join.forM f.checkBit)
    (fun p => (f.pairsAt p[0]?.join p[1]?.join).map fun e => [e.1, e.2])
    (fun p hlen => ?_) (fun p hlen hwithin => ?_) p)
  · rw [indices, matching]
    show Except.mapError _ (Except.map _ (p.expand 2 >>= _)) = (p.expand 2 >>= _).mapError _
    cases p.expand 2 with
    | error e => rfl
    | ok p =>
      simp only [Except.ok_bind]
      cases p[0]?.join.forM f.checkDomain with
      | error e => rfl
      | ok =>
        simp only [Except.ok_bind]
        cases p[1]?.join.forM f.checkBit <;> rfl
  · obtain ⟨element, bit, rfl⟩ := List.length_eq_two.mp hlen
    show (element.forM f.checkDomain >>= fun _ => bit.forM f.checkBit).mapError Error.kind =
      if element.all f.domain.contains && (bit.all f.bitPositions.contains && true) then .ok ()
      else .error .indexOutOfRange
    rw [Except.mapError_bind, forM_kind checkDomain_kind, forM_kind checkBit_kind, Bool.and_true]
    cases element.all f.domain.contains <;> rfl
  · obtain ⟨element, bit, rfl⟩ := List.length_eq_two.mp hlen
    have hboth : (element.all f.domain.contains && (bit.all f.bitPositions.contains && true)) =
      true := hwithin
    rw [Bool.and_true, Bool.and_eq_true] at hboth
    exact pairsAt_eq hboth.1 hboth.2

theorem evaluate_of_mem {i b : Nat} (h : [i, b] ∈ tuples [f.domain, f.bitPositions]) :
    f.evaluate [i, b] = .ok (f.litAt i b) := by
  obtain ⟨hi, hb⟩ := mem_table.mp h
  rw [evaluate, checkDomain_of_mem hi, checkBit_eq_ok_iff.mpr hb]
  rfl

theorem mem_of_evaluate {index : Index} {l : Lit} (h : f.evaluate index = .ok l) :
    index ∈ tuples [f.domain, f.bitPositions] := by
  match index with
  | [i, b] =>
    obtain ⟨_, hi, h⟩ := Except.bind_eq_ok_iff.mp h
    obtain ⟨_, hb, -⟩ := Except.bind_eq_ok_iff.mp h
    exact mem_table.mpr ⟨checkDomain_eq_ok_iff.mp hi, checkBit_eq_ok_iff.mp hb⟩
  | [] | [_] | _ :: _ :: _ :: _ => cases h

theorem mem_of_matching {p : Pattern} {es : List (Nat × Nat)} (hes : f.matching p = .ok es)
    {e : Nat × Nat} (he : e ∈ es) : [e.1, e.2] ∈ tuples [f.domain, f.bitPositions] := by
  have his : f.indices p = .ok (es.map fun e => [e.1, e.2]) := by
    rw [indices, hes]
    rfl
  refine VarGroup.mem_of_indices (g := .binary f) (indices_kind p) his ?_
  exact List.mem_map.mpr ⟨e, he, rfl⟩

/-- The literals count the bits of an element downwards. -/
theorem litAt_digits {i : Nat} (hi : i < f.n * f.bits) :
    f.litAt (i / f.bits + 1) (f.bits - 1 - i % f.bits) = .positive (f.ids.first + i) := by
  have hpos : 0 < f.bits := by
    by_contra hzero
    rw [Nat.eq_zero_of_not_pos hzero, Nat.mul_zero] at hi
    omega
  have hmod := Nat.mod_lt i hpos
  have hdiv := Nat.div_add_mod i f.bits
  rw [litAt, Nat.succ_mul, Nat.mul_comm (i / f.bits)]
  congr 1
  omega

theorem create_enumerates {start n m : Nat} {label : Option String}
    (h : create start n m label = .ok f) :
    (VarGroup.binary f).Enumerates (tuples [f.domain, f.bitPositions]) := by
  obtain ⟨rfl, rfl, hbits, hids⟩ := create_eq_ok h
  rw [← hbits] at hids
  have hlength : (tuples [f.domain, f.bitPositions]).length = f.ids.size := by
    rw [length_table, hids]
  have hrow : ∀ e ∈ (tuples [f.domain, f.bitPositions]).zipIdx f.ids.first,
      ∃ i, i < f.n * f.bits ∧ e.2 = f.ids.first + i ∧
        e.1 = [i / f.bits + 1, f.bits - 1 - i % f.bits] := by
    intro e he
    obtain ⟨hfirst, hget⟩ := List.mem_zipIdx_iff_le_and_getElem?_sub.mp he
    have hlt := List.snd_lt_add_of_mem_zipIdx he
    rw [length_table] at hlt
    exact ⟨e.2 - f.ids.first, by omega, by omega, eq_of_getElem?_table hget⟩
  refine ⟨hlength, fun harity => ?_, fun e he => ?_, fun e he l hl => ?_, fun l hl => ?_,
    indices_kind, fun p => ?_⟩
  · cases harity
  · obtain ⟨i, hi, hid, hindex⟩ := hrow e he
    have hmem := List.fst_mem_of_mem_zipIdx he
    rw [hindex] at hmem ⊢
    rw [hid, ← litAt_digits hi]
    exact evaluate_of_mem hmem
  · obtain ⟨i, hi, hid, hindex⟩ := hrow e he
    show toIndex f l = .ok e.1
    rw [toIndex, if_pos (VarGroup.contains_of_mem_zipIdx hlength he hl), hl, hid, hindex,
      Nat.add_sub_cancel_left]
  · exact if_neg (Bool.eq_false_iff.mp hl)
  · -- the literals are those of the matching pairs, which are not checked again
    show (f.matching p).map _ = (f.indices p) >>= _
    rw [indices]
    cases hes : f.matching p with
    | error e => rfl
    | ok es =>
      rw [Except.map_ok, Except.map_ok, Except.ok_bind, List.mapM_map]
      exact (Except.mapM_eq_ok fun e he => evaluate_of_mem (mem_of_matching hes he)).symm

end BinaryMapping

end Clausal
