import Clausal.VarGroup
import Clausal.Proofs.Outcome
import Clausal.Proofs.VarGroup.Pattern

/-!
# Groups as tables

What a group should answer is said by the table of its indices alone: the position of an index is
its identifier, counted from the first one, and a pattern selects the rows that it fits. The group
`Enumerates` the table if its own answers, each found without one, are these. What follows for a
group that enumerates a table is proved here for all kinds at once.
-/

namespace Clausal

namespace VarGroup

/-! ## What a group should answer -/

/-- The values that each component of an index is declared for. -/
def components : VarGroup → List (List Nat)
  | singleton _ => []
  | block g => g.ranges.map (List.range' 1 ·)
  | words g => List.replicate g.k (List.range' 1 g.n)
  | bipartite g => [List.range' 1 g.graph.leftOrder, List.range' 1 g.graph.rightOrder]
  | graph g => [List.range' 1 g.order, List.range' 1 g.order]
  | digraph g => [List.range' 1 g.layout.graph.leftOrder, List.range' 1 g.layout.graph.leftOrder]
  | unary f => [f.domain, f.range]
  | binary f => [f.domain, f.bitPositions]

/-- The forms in which an index can be asked for. Only an edge of a simple graph has two. -/
def forms : VarGroup → Index → List Index
  | graph _, index => [index, index.reverse]
  | _, index => [index]

/-- Whether an index is asked for by a pattern in one of its forms. -/
def fits (g : VarGroup) (p : Pattern) (index : Index) : Bool :=
  (g.forms index).any p.admits

/-- Whether the fixed components of a pattern are declared and, where none is open, are an index of
the table in one of its forms. -/
def answers (g : VarGroup) (table : List Index) (p : Pattern) : Bool :=
  p.within g.components &&
    match p.fixed? with
    | some index => (g.forms index).any table.contains
    | none => true

/-- The rows of a table that a pattern selects. -/
def select (g : VarGroup) (table : List Index) (p : Pattern) : Except ErrorKind (List Index) :=
  if p.Mismatched g.arity then .error .invalidArgument
  else if g.answers table (p.full g.arity) then .ok (table.filter (g.fits (p.full g.arity)))
  else .error .indexOutOfRange

/-- The answers of the group are those of a table. Its rows are numbered from the first identifier
on. -/
structure Enumerates (g : VarGroup) (table : List Index) : Prop where
  length_eq : table.length = g.size
  /-- There is one index without components. -/
  nil_mem : g.arity = 0 → [] ∈ table
  evaluate_eq : ∀ e ∈ table.zipIdx g.ids.first, g.evaluate e.1 = .ok (.positive e.2)
  toIndex_eq : ∀ e ∈ table.zipIdx g.ids.first, ∀ l : Lit, l.var = e.2 → g.toIndex l = .ok e.1
  toIndex_outside : ∀ l, g.contains l = false → g.toIndex l = .error (g.ids.outside l)
  indices_kind : ∀ p, (g.indices p).mapError Error.kind = g.select table p
  lits_eq : ∀ p, g.lits p = g.indices p >>= (·.mapM g.evaluate)

/-! ## What follows from a table -/

theorem mk_getElem_mem_zipIdx {α : Type} {table : List α} {i : Nat} (hi : i < table.length)
    (first : Nat) : (table[i], first + i) ∈ table.zipIdx first :=
  List.mk_add_mem_zipIdx_iff_getElem?.mpr (List.getElem?_eq_getElem hi)

theorem exists_number {α : Type} {table : List α} {row : α} (h : row ∈ table) (first : Nat) :
    ∃ id, (row, id) ∈ table.zipIdx first := by
  obtain ⟨i, hi, rfl⟩ := List.getElem_of_mem h
  exact ⟨_, mk_getElem_mem_zipIdx hi first⟩

theorem idxOf?_of_nodup {α : Type} [BEq α] [LawfulBEq α] {xs : List α} (h : xs.Nodup) {x : α}
    {i : Nat} (hx : xs[i]? = some x) : xs.idxOf? x = some i := by
  obtain ⟨hi, rfl⟩ := List.getElem?_eq_some_iff.mp hx
  refine List.idxOf?_eq_some_iff.mpr ⟨hi, rfl, fun j hj => ?_⟩
  exact List.pairwise_iff_getElem.mp h j i _ hi hj

theorem contains_of_mem_zipIdx {table : List Index} {ids : IdRange}
    (hlength : table.length = ids.size) {e : Index × Nat} (he : e ∈ table.zipIdx ids.first)
    {l : Lit} (hl : l.var = e.2) : ids.contains l = true := by
  have hlow := List.le_snd_of_mem_zipIdx he
  have hhigh := List.snd_lt_add_of_mem_zipIdx he
  exact IdRange.contains_iff.mpr ⟨by omega, by omega⟩

/-- Rows that are evaluated to the positive literals of their numbers can be picked by number. -/
theorem mapM_filter_zipIdx {α : Type} {evaluate : α → Except Error Lit} {table : List α}
    {first : Nat} (h : ∀ e ∈ table.zipIdx first, evaluate e.1 = .ok (.positive e.2))
    (keep : α → Bool) : (table.filter keep).mapM evaluate =
      .ok (((table.zipIdx first).filter fun e => keep e.1).map fun e => .positive e.2) := by
  have hrows : table.filter keep =
      ((table.zipIdx first).filter fun e => keep e.1).map (·.1) := by
    rw [show (fun e : α × Nat => keep e.1) = keep ∘ (·.1) from rfl, ← List.filter_map,
      List.zipIdx_map_fst]
  rw [hrows, List.mapM_map]
  exact Except.mapM_eq_ok fun e he => h e (List.mem_filter.mp he).1

theorem mapM_zipIdx {α : Type} {evaluate : α → Except Error Lit} {table : List α} {first : Nat}
    (h : ∀ e ∈ table.zipIdx first, evaluate e.1 = .ok (.positive e.2)) :
    table.mapM evaluate = .ok ((List.range' first table.length).map .positive) := by
  have hall := mapM_filter_zipIdx h fun _ => true
  rw [List.filter_true, List.filter_true] at hall
  rw [hall, ← List.zipIdx_map_snd first table, List.map_map]
  rfl

theorem pairwise_filter_zipIdx {α : Type} (table : List α) (first : Nat) (keep : α → Bool) :
    (((table.zipIdx first).filter fun e => keep e.1).map (·.2)).Pairwise (· < ·) := by
  refine List.Pairwise.sublist (List.filter_sublist.map _) ?_
  rw [List.zipIdx_map_snd]
  exact List.pairwise_lt_range' 1

theorem fits_eq_admits {g : VarGroup} (hforms : ∀ index, g.forms index = [index]) (p : Pattern) :
    g.fits p = p.admits := by
  funext index
  rw [fits, hforms, List.any_cons, List.any_nil, Bool.or_false]

theorem any_forms_iff {g : VarGroup} (hforms : ∀ index, g.forms index = [index])
    {table : List Index} {index : Index} :
    (g.forms index).any table.contains = true ↔ index ∈ table := by
  rw [hforms, List.any_cons, List.any_nil, Bool.or_false, List.contains_iff_mem]

theorem eq_filter_of_select {g : VarGroup} {table is : List Index} {p : Pattern}
    (h : g.select table p = .ok is) : is = table.filter (g.fits (p.full g.arity)) := by
  rw [select] at h
  split_ifs at h
  exact (Except.ok.inj h).symm

theorem mem_of_indices {g : VarGroup} {table is : List Index} {p : Pattern}
    (hkind : (g.indices p).mapError Error.kind = g.select table p) (his : g.indices p = .ok is)
    {index : Index} (hindex : index ∈ is) : index ∈ table := by
  rw [his, Except.mapError_ok] at hkind
  rw [eq_filter_of_select hkind.symm] at hindex
  exact (List.mem_filter.mp hindex).1

namespace Enumerates

variable {g : VarGroup} {table : List Index} (h : g.Enumerates table)

include h

theorem ids_toList : g.ids.toList = (table.zipIdx g.ids.first).map (·.2) := by
  rw [List.zipIdx_map_snd, h.length_eq]
  rfl

theorem exists_mem_zipIdx {id : Nat} (hid : id ∈ g.ids.toList) :
    ∃ index, (index, id) ∈ table.zipIdx g.ids.first := by
  rw [h.ids_toList, List.mem_map] at hid
  obtain ⟨e, he, rfl⟩ := hid
  exact ⟨e.1, he⟩

theorem nodup : table.Nodup := by
  refine List.pairwise_iff_getElem.mpr fun i j hi hj hij heq => ?_
  have hi := h.evaluate_eq _ (mk_getElem_mem_zipIdx hi _)
  have hj := h.evaluate_eq _ (mk_getElem_mem_zipIdx hj _)
  rw [heq, hj, Except.ok.injEq, Lit.positive, Lit.positive, Lit.mk.injEq] at hi
  omega

theorem select_nil : g.select table [] = .ok table := by
  have hfull : Pattern.full [] g.arity = List.replicate g.arity none := rfl
  have hfits : ∀ index, g.fits (List.replicate g.arity none) index = true := fun index => by
    cases g <;> simp [fits, forms, Pattern.admits_replicate_none]
  have hanswers : g.answers table (List.replicate g.arity none) = true := by
    rw [answers, Pattern.within_replicate_none]
    rcases Nat.eq_zero_or_pos g.arity with hzero | hpos
    · -- without components the empty pattern leaves none open and has to be an index
      rw [hzero]
      have := h.nil_mem hzero
      cases g <;> simpa [forms, Pattern.fixed?] using this
    · obtain ⟨k, hk⟩ := Nat.exists_eq_succ_of_ne_zero hpos.ne'
      rw [hk]
      rfl
  rw [select, if_neg (by simp), hfull, if_pos hanswers]
  exact congrArg _ (List.filter_eq_self.mpr fun index _ => hfits index)

theorem indices_nil : g.indices [] = .ok table := by
  rw [← Except.mapError_eq_ok_iff, h.indices_kind, h.select_nil]

theorem indices_eq_filter {p : Pattern} {is : List Index} (his : g.indices p = .ok is) :
    is = table.filter (g.fits (p.full g.arity)) := by
  have hselect := h.indices_kind p
  rw [his, Except.mapError_ok] at hselect
  exact eq_filter_of_select hselect.symm

theorem mapM_evaluate : table.mapM g.evaluate = .ok (g.ids.toList.map .positive) := by
  rw [mapM_zipIdx h.evaluate_eq, h.length_eq]
  rfl

theorem lits_nil : g.lits [] = .ok (g.ids.toList.map .positive) := by
  rw [h.lits_eq, h.indices_nil, Except.ok_bind, h.mapM_evaluate]

theorem exists_toIndex_iff (l : Lit) : (∃ index, g.toIndex l = .ok index) ↔ g.contains l = true := by
  constructor
  · rintro ⟨index, hindex⟩
    by_contra hcontains
    rw [h.toIndex_outside l (by simpa using hcontains)] at hindex
    cases hindex
  · intro hcontains
    have hmem : l.var ∈ g.ids.toList :=
      List.mem_range'_1.mpr (IdRange.contains_iff.mp hcontains)
    obtain ⟨index, he⟩ := h.exists_mem_zipIdx hmem
    exact ⟨index, h.toIndex_eq _ he l rfl⟩

theorem label_eq {index : Index} (hindex : index ∈ table) :
    g.label index = .ok (g.renderLabel index) := by
  obtain ⟨id, he⟩ := exists_number hindex g.ids.first
  rw [label, h.evaluate_eq _ he, Except.ok_bind, h.toIndex_eq _ he _ rfl, Except.ok_bind]
  rfl

theorem exists_row_of_label {index : Index} {text : String} (hlabel : g.label index = .ok text) :
    ∃ l row, g.evaluate index = .ok l ∧ (row, l.var) ∈ table.zipIdx g.ids.first ∧
      g.renderLabel row = text := by
  obtain ⟨l, hl, hlabel⟩ := Except.bind_eq_ok_iff.mp hlabel
  obtain ⟨row, hrow, hlabel⟩ := Except.bind_eq_ok_iff.mp hlabel
  have hmem : l.var ∈ g.ids.toList :=
    List.mem_range'_1.mpr (IdRange.contains_iff.mp ((h.exists_toIndex_iff l).mp ⟨row, hrow⟩))
  obtain ⟨row', he⟩ := h.exists_mem_zipIdx hmem
  have hsame := h.toIndex_eq _ he l rfl
  rw [hrow] at hsame
  cases hsame
  exact ⟨l, _, hl, he, Except.ok.inj hlabel⟩

end Enumerates

/-! ## Tables of tuples -/

/-- A group over all tuples may check the fixed components and list the tuples that are left. -/
theorem select_tuples {g : VarGroup} (hforms : ∀ index, g.forms index = [index])
    (harity : g.arity = g.components.length) (check : Pattern → Except Error Unit)
    (list : Pattern → List Index)
    (hcheck : ∀ p, p.length = g.arity → (check p).mapError Error.kind =
      if p.within g.components then .ok () else .error .indexOutOfRange)
    (hlist : ∀ p, p.length = g.arity → p.within g.components = true →
      list p = tuples (p.narrow g.components)) (p : Pattern) :
    (p.expand g.arity >>= fun p => (check p).map fun _ => list p).mapError Error.kind =
      g.select (tuples g.components) p := by
  rw [Pattern.expand_eq, select]
  by_cases hmismatched : p.Mismatched g.arity
  · rw [if_pos hmismatched, if_pos hmismatched]
    rfl
  · have hlength := Pattern.length_full hmismatched
    have hlen : (p.full g.arity).length = g.components.length := hlength.trans harity
    have hanswers : g.answers (tuples g.components) (p.full g.arity) =
        (p.full g.arity).within g.components := by
      rw [answers, Bool.and_eq_left_iff_imp]
      intro hwithin
      split
      · rename_i index hindex
        rw [Pattern.fixed?_eq_some_iff] at hindex
        rw [hindex] at hwithin hlen
        exact (any_forms_iff hforms).mpr
          ((Pattern.within_map_some (by simpa using hlen)).mp hwithin)
      · rfl
    rw [if_neg hmismatched, if_neg hmismatched, Except.ok_bind, Except.mapError_map,
      hcheck _ hlength, hanswers, fits_eq_admits hforms, Pattern.filter_tuples hlen]
    by_cases hwithin : (p.full g.arity).within g.components = true
    · rw [if_pos hwithin, if_pos hwithin, Except.map_ok, hlist _ hlength hwithin]
    · rw [if_neg hwithin, if_neg hwithin, Except.map_error]

end VarGroup

end Clausal
