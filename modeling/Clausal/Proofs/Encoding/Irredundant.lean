import Clausal.Proofs.Encoding.Parity.Generator

/-!
# Encodings without a clause too many

Over literals of different variables the literals can be made true and false at will
(`exists_truthRow`). So each clause of an encoding is false under a valuation that makes all other
clauses true: none of them can be left out (`Irredundant`). Two arguments cover all encodings. The
clauses of flipped and unflipped literals, of inequalities and parities, are false under one row of
truth values each. The clauses of bounds are the sublists of one length, and one of them is false
where exactly its own literals are.
-/

namespace Clausal

/-- Each of the clauses is false under some valuation that makes all others true. -/
def Irredundant (cs : List Clause) : Prop :=
  ∀ before c after, cs = before ++ c :: after →
    ∃ ν : Valuation, c.holds ν = false ∧ ∀ d ∈ before ++ after, Clause.holds d ν = true

variable {lits : List Lit}

/-! ## Valuations -/

theorem Lit.holds_update_of_ne {l : Lit} {v : Nat} (h : l.var ≠ v) (ν : Valuation) (b : Bool) :
    l.holds (Function.update ν v b) = l.holds ν := by
  rw [holds, holds, Function.update_of_ne h]

theorem exists_truthRow (hvars : (lits.map Lit.var).Nodup) {row : List Bool}
    (hlength : row.length = lits.length) : ∃ ν : Valuation, Parity.truthRow ν lits = row := by
  induction lits generalizing row with
  | nil => exact ⟨fun _ => false, (List.eq_nil_of_length_eq_zero hlength).symm⟩
  | cons l lits ih =>
    obtain ⟨b, row, rfl⟩ := List.exists_cons_of_length_eq_add_one hlength
    rw [List.map_cons, List.nodup_cons] at hvars
    obtain ⟨ν, hν⟩ := ih hvars.2 (Nat.succ.inj hlength)
    refine ⟨Function.update ν l.var (b != l.negated), ?_⟩
    have hfirst : l.holds (Function.update ν l.var (b != l.negated)) = b := by
      rw [Lit.holds, Function.update_self]
      cases b <;> cases l.negated <;> rfl
    have hothers : ∀ m ∈ lits, m.holds (Function.update ν l.var (b != l.negated)) = m.holds ν := by
      intro m hm
      refine Lit.holds_update_of_ne (fun heq => hvars.1 ?_) ν _
      exact heq ▸ List.mem_map_of_mem hm
    rw [← hν, Parity.truthRow, List.map_cons, hfirst, List.map_congr_left hothers, Parity.truthRow]

theorem exists_falseLits (hvars : (lits.map Lit.var).Nodup) {c : List Lit} (hc : c.Sublist lits) :
    ∃ ν : Valuation, falseLits ν lits = c := by
  have hlength : (lits.map fun l => decide (l ∉ c)).length = lits.length := List.length_map _
  obtain ⟨ν, hν⟩ := exists_truthRow hvars hlength
  refine ⟨ν, ?_⟩
  have hfalse : falseLits ν lits = lits.filter (· ∈ c) := by
    refine List.filter_congr fun l hl => ?_
    rw [List.map_inj_left.mp hν l hl, decide_not, Bool.not_not]
  have hchosen : c.Sublist (lits.filter (· ∈ c)) := by
    have hfilter := hc.filter (· ∈ c)
    rwa [List.filter_eq_self.mpr fun l hl => decide_eq_true hl] at hfilter
  have hnodup : (lits.filter (· ∈ c)).Nodup := hvars.of_map.filter _
  have hsubset : lits.filter (· ∈ c) ⊆ c := fun l hl => of_decide_eq_true (List.mem_filter.mp hl).2
  rw [hfalse]
  exact (hchosen.eq_of_length_le (List.subperm_of_subset hnodup hsubset).length_le).symm

theorem Clause.holds_eq_false_iff {c : Clause} {ν : Valuation} :
    c.holds ν = false ↔ ∀ l ∈ c, l.holds ν = false := by
  simp [Clause.holds]

theorem Clause.sublist_falseLits {c : Clause} {ν : Valuation} (hc : c.Sublist lits)
    (h : c.holds ν = false) : c.Sublist (falseLits ν lits) := by
  have hfilter := hc.filter fun l => !l.holds ν
  rwa [List.filter_eq_self.mpr fun l hl => by rw [Clause.holds_eq_false_iff.mp h l hl]; rfl]
    at hfilter

/-! ## Lists of clauses -/

/-- The clauses differ from each other, and each is the only false one under some valuation. -/
structure Separated (cs : List Clause) : Prop where
  nodup : cs.Nodup
  exists_only_false (c : Clause) (hc : c ∈ cs) : ∃ ν : Valuation, c.holds ν = false ∧
    ∀ d ∈ cs, Clause.holds d ν = false → d = c

namespace Separated

theorem irredundant {cs : List Clause} (h : Separated cs) : Irredundant cs := by
  rintro before c after rfl
  obtain ⟨hc, -⟩ := List.nodup_cons.mp (List.nodup_middle.mp h.nodup)
  obtain ⟨ν, hfalse, honly⟩ := h.exists_only_false c (by simp)
  refine ⟨ν, hfalse, fun d hd => ?_⟩
  have hmem : d ∈ before ++ c :: after := by
    rw [List.mem_append, List.mem_cons]
    rw [List.mem_append] at hd
    tauto
  by_contra htrue
  exact hc (honly d hmem (Bool.eq_false_of_not_eq_true htrue) ▸ hd)

theorem nil : Separated [] := ⟨List.nodup_nil, by simp⟩

theorem singleton_nil : Separated [[]] :=
  ⟨List.nodup_singleton _, fun c hc => ⟨fun _ => false, by simp_all [Clause.holds], by simp_all⟩⟩

/-- Two encodings are separated together if what makes a clause of one of them false makes all
clauses of the other true. -/
theorem append {cs ds : List Clause} (hcs : Separated cs) (hds : Separated ds)
    (h : ∀ ν : Valuation, (∀ c ∈ cs, Clause.holds c ν = true) ∨ ∀ d ∈ ds, Clause.holds d ν = true) :
    Separated (cs ++ ds) := by
  have hleft : ∀ ν : Valuation, ∀ c ∈ cs, c.holds ν = false → ∀ d ∈ ds, Clause.holds d ν = true :=
    fun ν c hc hfalse => (h ν).resolve_left fun hall => by simp [hall c hc] at hfalse
  have hright : ∀ ν : Valuation, ∀ d ∈ ds, d.holds ν = false → ∀ c ∈ cs, Clause.holds c ν = true :=
    fun ν d hd hfalse => (h ν).resolve_right fun hall => by simp [hall d hd] at hfalse
  refine ⟨hcs.nodup.append hds.nodup fun c hc hd => ?_, fun c hc => ?_⟩
  · obtain ⟨ν, hfalse, -⟩ := hcs.exists_only_false c hc
    rw [hleft ν c hc hfalse c hd] at hfalse
    cases hfalse
  · rcases List.mem_append.mp hc with hc | hc
    · obtain ⟨ν, hfalse, honly⟩ := hcs.exists_only_false c hc
      refine ⟨ν, hfalse, fun d hd hfalse' => ?_⟩
      rcases List.mem_append.mp hd with hd | hd
      · exact honly d hd hfalse'
      · rw [hleft ν c hc hfalse d hd] at hfalse'
        cases hfalse'
    · obtain ⟨ν, hfalse, honly⟩ := hds.exists_only_false c hc
      refine ⟨ν, hfalse, fun d hd hfalse' => ?_⟩
      rcases List.mem_append.mp hd with hd | hd
      · rw [hright ν c hc hfalse d hd] at hfalse'
        cases hfalse'
      · exact honly d hd hfalse'

theorem map_zipWith (hvars : (lits.map Lit.var).Nodup) {rows : List (List Bool)}
    (hrows : rows.Nodup) (hlength : ∀ fs ∈ rows, fs.length = lits.length) :
    Separated (rows.map fun fs => List.zipWith Lit.flipIf fs lits) := by
  have hfalse : ∀ fs ∈ rows, ∀ ν : Valuation,
      Clause.holds (List.zipWith Lit.flipIf fs lits) ν = false ↔ fs = Parity.truthRow ν lits := by
    intro fs hfs ν
    rw [← Bool.not_eq_true, Parity.holds_zipWith_flipIf_iff (hlength fs hfs) ν, not_not]
  refine ⟨hrows.map_on fun fs hfs gs hgs => ?_, fun c hc => ?_⟩
  · exact Parity.zipWith_flipIf_inj (hlength fs hfs) (hlength gs hgs)
  · obtain ⟨fs, hfs, rfl⟩ := List.mem_map.mp hc
    obtain ⟨ν, hν⟩ := exists_truthRow hvars (hlength fs hfs)
    refine ⟨ν, (hfalse fs hfs ν).mpr hν.symm, fun d hd hfalse' => ?_⟩
    obtain ⟨gs, hgs, rfl⟩ := List.mem_map.mp hd
    rw [(hfalse gs hgs ν).mp hfalse', hν]

/-- A selection is false where exactly its own literals are, and no other selection of the same
length is. -/
theorem selections (hvars : (lits.map Lit.var).Nodup) (k : Nat) :
    Separated (Clausal.selections k lits) := by
  refine ⟨nodup_selections hvars.of_map, fun c hc => ?_⟩
  obtain ⟨hsub, hlength⟩ := (mem_selections k lits c).mp hc
  obtain ⟨ν, hν⟩ := exists_falseLits hvars hsub
  refine ⟨ν, ?_, fun d hd hfalse => ?_⟩
  · have hsubset : c ⊆ falseLits ν lits := hν.symm ▸ List.Subset.refl c
    exact Bool.eq_false_of_not_eq_true (Clause.not_holds_of_subset_falseLits hsubset)
  · obtain ⟨hsub', hlength'⟩ := (mem_selections k lits d).mp hd
    have hsub'' := Clause.sublist_falseLits hsub' hfalse
    rw [hν] at hsub''
    exact hsub''.eq_of_length (hlength'.trans hlength.symm)

end Separated

/-! ## Encodings -/

namespace Cardinality

theorem zipWith_flipIf_replicate (lits : List Lit) :
    List.zipWith Lit.flipIf (List.replicate lits.length false) lits = lits := by
  induction lits with
  | nil => rfl
  | cons l lits ih =>
    rw [List.length_cons, List.replicate_succ, List.zipWith_cons_cons, ih]
    rfl

/-- Changed literals are flipped ones: the flips are the changes of a row without flips. -/
theorem changeSparing_eq_map (k spare : Nat) (lits : List Lit) :
    changeSparing Lit.flip k spare lits =
      (changeSparing not k spare (List.replicate lits.length false)).map fun fs =>
        List.zipWith Lit.flipIf fs lits := by
  induction lits generalizing k spare with
  | nil => cases k <;> rfl
  | cons l lits ih =>
    cases k with
    | zero => exact congrArg ([·]) (zipWith_flipIf_replicate (l :: lits)).symm
    | succ k =>
      rw [List.length_cons, List.replicate_succ]
      cases spare with
      | zero =>
        simp only [changeSparing, ih, List.append_nil, List.map_map]
        rfl
      | succ spare =>
        simp only [changeSparing, ih, List.map_append, List.map_map]
        rfl

theorem changes_eq_map (k : Nat) (lits : List Lit) :
    changes Lit.flip k lits =
      (changes not k (List.replicate lits.length false)).map fun fs =>
        List.zipWith Lit.flipIf fs lits := by
  rw [changes, changes, List.length_replicate]
  split_ifs
  · rfl
  · exact changeSparing_eq_map k _ lits

variable (hvars : (lits.map Lit.var).Nodup)

include hvars

theorem separated_changes (k : Nat) : Separated (changes Lit.flip k lits) := by
  rw [changes_eq_map]
  refine Separated.map_zipWith hvars (nodup_changes Bool.not_ne_self k _) fun fs hfs => ?_
  rw [length_of_mem_changes hfs, List.length_replicate]

theorem separated_atLeast (bound : Int) : Separated (atLeast lits bound) := by
  simp only [atLeast]
  split_ifs
  · exact Separated.nil
  · exact Separated.singleton_nil
  · exact Separated.selections hvars _

theorem separated_atMost (bound : Int) : Separated (atMost lits bound) := by
  refine separated_atLeast ?_ _
  rw [List.map_map]
  exact hvars

theorem separated_clauses (h : lits.length < litLimit) (rel : Relation) (bound : Int) :
    Separated (clauses lits rel bound) := by
  cases rel with
  | ge | gt => exact separated_atLeast hvars _
  | le | lt => exact separated_atMost hvars _
  | eq =>
    -- too many literals are true for one half, or enough for the other
    refine (separated_atMost hvars bound).append (separated_atLeast hvars bound) fun ν => ?_
    rw [atMost_holds_iff h, atLeast_holds_iff h]
    exact Int.le_total _ _
  | ne =>
    rw [clauses, notEqual]
    split_ifs
    · exact Separated.nil
    · exact separated_changes hvars _

omit hvars in
theorem length_notEqual (h : lits.length < litLimit) {bound : Nat} (hbound : bound ≤ lits.length) :
    (notEqual lits bound).length = lits.length.choose bound ∧
      ∀ c ∈ notEqual lits bound, c.length = lits.length := by
  rw [notEqual, countInt_length h, if_neg (by omega), Int.toNat_natCast]
  exact ⟨length_changes _ _ _, fun c hc => length_of_mem_changes hc⟩

omit hvars in
theorem length_atLeast (h : lits.length < litLimit) {bound : Nat} (hpos : 1 ≤ bound)
    (hbound : bound ≤ lits.length) :
    (atLeast lits bound).length = lits.length.choose (lits.length - bound + 1) ∧
      ∀ c ∈ atLeast lits bound, c.length = lits.length - bound + 1 := by
  have hsize : ((lits.length : Int) - bound + 1).toNat = lits.length - bound + 1 := by omega
  simp only [atLeast, countInt_length h]
  rw [if_neg (by omega), if_neg (by omega), hsize]
  exact ⟨length_selections _ _, fun c hc => ((mem_selections _ _ _).mp hc).2⟩

end Cardinality

namespace Parity

theorem separated_exhaustive (hvars : (lits.map Lit.var).Nodup) (constant : Nat) :
    Separated (exhaustive lits constant) :=
  Separated.map_zipWith hvars ((nodup_rows _).filter _) fun _ hfs =>
    mem_rows.mp (List.mem_filter.mp hfs).1

end Parity

/-- **Encodings have the promised size and no clause too many.** Over `k` literals of different
variables a lower bound `c` from 1 to `k` takes all clauses of `k - c + 1` literals, an inequality
with a number from 0 to `k` one clause for each choice of so many positions, and a parity
`2 ^ (k - 1)` clauses, unless there are no literals, whose parity is refused. In the encoding of any
relation to any bound, and of a parity, each clause is false under a valuation that makes all others
true. -/
theorem encodings_irredundant (lits : List Lit) (hvars : (lits.map Lit.var).Nodup)
    (h : lits.length < litLimit) :
    (∀ bound : Nat, 1 ≤ bound → bound ≤ lits.length →
      (Cardinality.clauses lits .ge bound).length = lits.length.choose (lits.length - bound + 1) ∧
        ∀ c ∈ Cardinality.clauses lits .ge bound, c.length = lits.length - bound + 1) ∧
    (∀ bound : Nat, bound ≤ lits.length →
      (Cardinality.clauses lits .ne bound).length = lits.length.choose bound ∧
        ∀ c ∈ Cardinality.clauses lits .ne bound, c.length = lits.length) ∧
    (∀ (rel : Relation) (bound : Int), Irredundant (Cardinality.clauses lits rel bound)) ∧
    (∀ constant : Nat, lits ≠ [] → constant ≤ 1 → ∃ cs, Parity.clauses lits constant = .ok cs ∧
      cs.length = 2 ^ (lits.length - 1) ∧ (∀ c ∈ cs, c.length = lits.length) ∧
      Irredundant cs) ∧
    ∀ constant : Nat, lits = [] ∨ 1 < constant →
      ∃ e, Parity.clauses lits constant = .error e := by
  refine ⟨fun bound => Cardinality.length_atLeast h, fun bound => Cardinality.length_notEqual h,
    fun rel bound => (Cardinality.separated_clauses hvars h rel bound).irredundant,
    fun constant hnonempty hconstant => ?_, fun constant hrefused => ?_⟩
  · exact ⟨Parity.exhaustive lits constant, Parity.clauses_eq_ok_exhaustive hnonempty hconstant,
      Parity.length_exhaustive hnonempty hconstant, fun c => Parity.length_of_mem_exhaustive,
      (Parity.separated_exhaustive hvars constant).irredundant⟩
  · obtain ⟨e, hcheck, -⟩ := Parity.check_eq_error hrefused
    exact ⟨e, by rw [Parity.clauses, Parity.slice, hcheck, Except.map_error]⟩

/-- Exactly one of three literals: the clause for the first two of them is needed. -/
theorem encodings_irredundant_one_of_three :
    ([Lit.positive 1, .negative 2, .positive 3].map Lit.var).Nodup ∧
      [Lit.positive 1, .negative 2, .positive 3].length < litLimit ∧
      Cardinality.clauses [.positive 1, .negative 2, .positive 3] .eq 1 =
        [] ++ [.negative 1, .positive 2] ::
          [[.negative 1, .negative 3], [.positive 2, .negative 3],
            [.positive 1, .negative 2, .positive 3]] ∧
      ∃ ν : Valuation, Clause.holds [.negative 1, .positive 2] ν = false ∧
        ∀ d ∈ [] ++ [[.negative 1, .negative 3], [.positive 2, .negative 3],
          [.positive 1, .negative 2, .positive 3]], Clause.holds d ν = true := by
  obtain ⟨-, -, hirredundant, -⟩ :=
    encodings_irredundant [.positive 1, .negative 2, .positive 3] (by decide) (by decide)
  exact ⟨by decide, by decide, by decide, hirredundant .eq 1 [] _ _ (by decide)⟩

end Clausal
