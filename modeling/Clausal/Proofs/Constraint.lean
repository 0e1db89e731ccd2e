import Clausal.Encoding.Parity
import Clausal.Proofs.PseudoBoolean
import Clausal.Proofs.Selection

/-!
# What constraints are about

A constraint that a store makes of a clause or of a linear constraint has positive coefficients and
no variables but those that it is made from (`LawfulLiterals.drawn_ofClause`,
`LawfulLiterals.drawn_ofLinear`). For an OPB this is what normalization sees to, for a CNF it is so
because an encoding only selects and flips the given literals.

Replacing the literals of a constraint leaves its weights, its relation and its bound as they are
(`LawfulLiterals.toPb_mapLits`), so it is satisfied by what gives the new literals the values of the
old ones.
-/

namespace Clausal

/-! ## Changes and selections -/

theorem mem_of_mem_changeSparing {α : Type} {change : α → α} {k spare : Nat} {xs ys : List α}
    (hys : ys ∈ changeSparing change k spare xs) {y : α} (hy : y ∈ ys) :
    ∃ x ∈ xs, y = x ∨ y = change x := by
  induction xs generalizing k spare ys with
  | nil =>
    cases k with
    | zero =>
      rw [changeSparing, List.mem_singleton] at hys
      exact ⟨y, hys ▸ hy, Or.inl rfl⟩
    | succ k => cases hys
  | cons x xs ih =>
    have hrest : ∀ {z : α} {k spare : Nat} {zs : List α}, zs ∈ changeSparing change k spare xs →
        (z = x ∨ z = change x) → y ∈ z :: zs → ∃ x' ∈ x :: xs, y = x' ∨ y = change x' := by
      intro z k spare zs hzs hz hmem
      rcases List.mem_cons.mp hmem with rfl | hmem
      · exact ⟨x, List.mem_cons_self, hz⟩
      · obtain ⟨x', hx', hform⟩ := ih hzs hmem
        exact ⟨x', List.mem_cons_of_mem x hx', hform⟩
    cases k with
    | zero =>
      rw [changeSparing, List.mem_singleton] at hys
      exact ⟨y, hys ▸ hy, Or.inl rfl⟩
    | succ k =>
      simp only [changeSparing, List.mem_append] at hys
      rcases hys with hys | hys
      · obtain ⟨zs, hzs, rfl⟩ := List.mem_map.mp hys
        exact hrest hzs (Or.inr rfl) hy
      · cases spare with
        | zero => cases hys
        | succ spare =>
          obtain ⟨zs, hzs, rfl⟩ := List.mem_map.mp hys
          exact hrest hzs (Or.inl rfl) hy

namespace Cardinality

variable {lits : List Lit} {bound : Int} {c : Clause} {l : Lit}

theorem mem_of_mem_atLeast (hc : c ∈ atLeast lits bound) (hl : l ∈ c) : l ∈ lits := by
  simp only [atLeast] at hc
  split_ifs at hc
  · cases hc
  · rw [List.mem_singleton.mp hc] at hl
    cases hl
  · exact ((mem_selections _ lits c).mp hc).1.subset hl

theorem flip_mem_of_mem_atMost (hc : c ∈ atMost lits bound) (hl : l ∈ c) : l.flip ∈ lits := by
  obtain ⟨m, hm, rfl⟩ := List.mem_map.mp (mem_of_mem_atLeast hc hl)
  rw [Lit.flip_flip]
  exact hm

theorem mem_or_flip_mem_of_mem_notEqual (hc : c ∈ notEqual lits bound) (hl : l ∈ c) :
    l ∈ lits ∨ l.flip ∈ lits := by
  rw [notEqual] at hc
  split_ifs at hc
  · cases hc
  · rw [changes] at hc
    split_ifs at hc
    · cases hc
    · obtain ⟨m, hm, rfl | rfl⟩ := mem_of_mem_changeSparing hc hl
      · exact Or.inl hm
      · rw [Lit.flip_flip]
        exact Or.inr hm

theorem mem_or_flip_mem_of_mem_clauses {rel : Relation} (hc : c ∈ clauses lits rel bound)
    (hl : l ∈ c) : l ∈ lits ∨ l.flip ∈ lits := by
  cases rel with
  | ge => exact Or.inl (mem_of_mem_atLeast hc hl)
  | gt => exact Or.inl (mem_of_mem_atLeast hc hl)
  | le => exact Or.inr (flip_mem_of_mem_atMost hc hl)
  | lt => exact Or.inr (flip_mem_of_mem_atMost hc hl)
  | eq =>
    rcases List.mem_append.mp hc with hc | hc
    · exact Or.inr (flip_mem_of_mem_atMost hc hl)
    · exact Or.inl (mem_of_mem_atLeast hc hl)
  | ne => exact mem_or_flip_mem_of_mem_notEqual hc hl

theorem var_mem_of_mem_clauses {rel : Relation} (hc : c ∈ clauses lits rel bound) (hl : l ∈ c) :
    l.var ∈ lits.map Lit.var := by
  rcases mem_or_flip_mem_of_mem_clauses hc hl with hl | hl
  · exact List.mem_map_of_mem hl
  · exact List.mem_map.mpr ⟨l.flip, hl, rfl⟩

end Cardinality

theorem Lit.flipIf_var (flipped : Bool) (l : Lit) : (l.flipIf flipped).var = l.var := by
  cases flipped <;> rfl

namespace Parity

theorem var_mem_of_mem_zipWith {flips : List Bool} {lits : List Lit} {l : Lit}
    (hl : l ∈ List.zipWith Lit.flipIf flips lits) : l.var ∈ lits.map Lit.var := by
  obtain ⟨i, hi, rfl⟩ := List.getElem_of_mem hl
  rw [List.getElem_zipWith, Lit.flipIf_var]
  exact List.mem_map_of_mem (List.getElem_mem _)

theorem var_mem_of_mem_clauses {lits : List Lit} {constant : Nat} {cs : List Clause} {c : Clause}
    {l : Lit} (h : clauses lits constant = .ok cs) (hc : c ∈ cs) (hl : l ∈ c) :
    l.var ∈ lits.map Lit.var := by
  obtain ⟨-, -, rfl⟩ := Except.map_eq_ok_iff.mp h
  obtain ⟨number, -, rfl⟩ := List.mem_map.mp hc
  exact var_mem_of_mem_zipWith hl

end Parity

/-! ## Normal forms -/

namespace PbConstraint

/-- The constraint has positive coefficients, and all its variables are among the given ones. -/
structure Drawn (vars : List Nat) (c : PbConstraint) : Prop where
  var_mem : ∀ l ∈ c.lits, l.var ∈ vars
  weight_pos : ∀ term ∈ c.terms, 0 < term.2

theorem drawn_ofClause (c : Clause) : (ofClause c).Drawn (c.map Lit.var) where
  var_mem := by
    intro l hl
    obtain ⟨term, hterm, rfl⟩ := List.mem_map.mp hl
    obtain ⟨m, hm, rfl⟩ := List.mem_map.mp hterm
    exact List.mem_map_of_mem hm
  weight_pos := by
    intro term hterm
    obtain ⟨m, -, rfl⟩ := List.mem_map.mp hterm
    exact Nat.one_pos

theorem lits_ofClause (c : Clause) : (ofClause c).lits = c := by
  rw [lits, ofClause, List.map_map]
  exact List.map_id c

theorem map_var_signedTerms (rel : Relation) (terms : List (Lit × Int)) :
    (signedTerms rel terms).map (·.1.var) = terms.map (·.1.var) := by
  rw [signedTerms]
  split
  · rw [List.map_map]
    rfl
  · rfl

theorem drawn_normalize {terms : List (Lit × Int)} {rel : Relation} {bound : Int}
    {c : PbConstraint} (h : normalize terms rel bound = .ok c) :
    c.Drawn (terms.map (·.1.var)) := by
  obtain ⟨hnormalizable, rfl⟩ := normalize_eq_ok h
  have hzero : ∀ t ∈ signedTerms rel terms, t.2 ≠ 0 :=
    forall_signedTerms_ne_zero.mpr hnormalizable.coefficient_ne_zero
  rw [← map_var_signedTerms rel]
  constructor
  · rw [lits, normalForm, List.map_map, List.forall_mem_map]
    intro t ht
    rw [Function.comp_apply, positiveTerm, Lit.flipIf_var]
    exact List.mem_map_of_mem ht
  · rw [normalForm, List.forall_mem_map]
    exact fun t ht => Int.natAbs_pos.mpr (hzero t ht)

theorem Drawn.mono {vars vars' : List Nat} {c : PbConstraint} (h : c.Drawn vars)
    (hsub : vars ⊆ vars') : c.Drawn vars' :=
  ⟨fun l hl => hsub (h.var_mem l hl), h.weight_pos⟩

/-! ## Replaced literals -/

theorem lits_mapLits (g : Lit → Lit) (c : PbConstraint) : (c.mapLits g).lits = c.lits.map g := by
  simp only [lits, mapLits, List.map_map]
  rfl

theorem mapLits_ofClause (g : Lit → Lit) (c : Clause) :
    (ofClause c).mapLits g = ofClause (c.map g) := by
  simp only [mapLits, ofClause, List.map_map]
  rfl

theorem weightTrue_map {g : Lit → Lit} {terms : List (Lit × Nat)} {ν ν' : Valuation}
    (h : ∀ term ∈ terms, (g term.1).holds ν' = term.1.holds ν) :
    weightTrue ν' (terms.map fun (l, w) => (g l, w)) = weightTrue ν terms := by
  induction terms with
  | nil => rfl
  | cons term terms ih =>
    rw [List.forall_mem_cons] at h
    rw [List.map_cons, weightTrue, weightTrue, h.1, ih h.2]

theorem holds_mapLits {g : Lit → Lit} {c : PbConstraint} {ν ν' : Valuation}
    (h : ∀ l ∈ c.lits, (g l).holds ν' = l.holds ν) : (c.mapLits g).Holds ν' ↔ c.Holds ν := by
  have hsum : weightTrue ν' (c.mapLits g).terms = weightTrue ν c.terms := by
    apply weightTrue_map
    intro term hterm
    exact h term.1 (List.mem_map_of_mem hterm)
  rw [PbConstraint.Holds, PbConstraint.Holds, hsum]
  rfl

theorem isSat_mapLits {g : Lit → Lit} {c : PbConstraint} {a a' : Assignment}
    (h : ∀ l ∈ c.lits, a'.litValue (g l) = a.litValue l) :
    (c.mapLits g).isSat a' = c.isSat a := by
  have hsum : (c.mapLits g).wordSum a' = c.wordSum a := by
    rw [wordSum, mapLits, List.foldl_map, wordSum]
    apply List.foldl_ext
    rintro sum ⟨l, w⟩ hterm
    dsimp only
    rw [h l (List.mem_map_of_mem hterm)]
  rw [isSat, isSat, hsum]
  rfl

end PbConstraint

/-! ## Both kinds of constraints -/

/-- A kind of constraint that keeps to the literals it is made from. -/
class LawfulLiterals (K : Type) [Constraint K] : Prop where
  lits_toPb (k : K) : (Constraint.toPb k).lits = Constraint.lits k
  drawn_ofClause (c : Clause) :
    (Constraint.toPb (Constraint.ofClause c : K)).Drawn (c.map Lit.var)
  drawn_ofLinear (lits : List Lit) (rel : Relation) (bound : Int) :
    ∀ k ∈ (Constraint.ofLinear lits rel bound : List K),
      (Constraint.toPb k).Drawn (lits.map Lit.var)
  toPb_mapLits (g : Lit → Lit) (k : K) :
    Constraint.toPb (Constraint.mapLits g k) = (Constraint.toPb k).mapLits g
  isSat_mapLits (g : Lit → Lit) (k : K) (a a' : Assignment) :
    (∀ l ∈ Constraint.lits k, a'.litValue (g l) = a.litValue l) →
      Constraint.isSat (Constraint.mapLits g k) a' = Constraint.isSat k a

theorem Constraint.lits_mapLits {K : Type} [Constraint K] [LawfulLiterals K] (g : Lit → Lit)
    (k : K) : lits (mapLits g k) = (lits k).map g := by
  rw [← LawfulLiterals.lits_toPb, LawfulLiterals.toPb_mapLits, PbConstraint.lits_mapLits,
    LawfulLiterals.lits_toPb]

theorem Cardinality.drawn_clauses {lits : List Lit} {rel : Relation} {bound : Int} {c : Clause}
    (hc : c ∈ clauses lits rel bound) : (PbConstraint.ofClause c).Drawn (lits.map Lit.var) := by
  apply (PbConstraint.drawn_ofClause c).mono
  intro v hv
  obtain ⟨l, hl, rfl⟩ := List.mem_map.mp hv
  exact var_mem_of_mem_clauses hc hl

instance : LawfulLiterals Clause where
  lits_toPb c := PbConstraint.lits_ofClause c
  drawn_ofClause c := PbConstraint.drawn_ofClause c
  drawn_ofLinear lits rel bound c hc := Cardinality.drawn_clauses hc
  toPb_mapLits g c := (PbConstraint.mapLits_ofClause g c).symm
  isSat_mapLits g c a a' h := by
    simp only [Constraint.isSat, Constraint.mapLits, Clause.isSat, List.any_map]
    rw [Bool.eq_iff_iff, List.any_eq_true, List.any_eq_true]
    refine exists_congr fun l => and_congr_right fun hl => ?_
    rw [Function.comp_apply, h l hl]

instance : LawfulLiterals PbConstraint where
  lits_toPb _ := rfl
  drawn_ofClause c := PbConstraint.drawn_ofClause c
  drawn_ofLinear lits rel bound k hk := by
    simp only [Constraint.ofLinear] at hk
    cases hnorm : PbConstraint.normalize (lits.map fun l => (l, 1)) rel bound with
    | ok c =>
      rw [hnorm, List.mem_singleton] at hk
      have hdrawn := PbConstraint.drawn_normalize hnorm
      rw [List.map_map] at hdrawn
      exact hk ▸ hdrawn
    | error e =>
      rw [hnorm] at hk
      obtain ⟨c, hc, rfl⟩ := List.mem_map.mp hk
      exact Cardinality.drawn_clauses hc
  toPb_mapLits _ _ := rfl
  isSat_mapLits _ _ _ _ h := PbConstraint.isSat_mapLits h

/-- A kind of constraint of which nothing is lost in its pseudo-boolean form. -/
class FaithfulConstraint (K : Type) [Constraint K] : Prop where
  toPb_injective : Function.Injective (Constraint.toPb : K → PbConstraint)

instance : FaithfulConstraint Clause where
  toPb_injective := Function.LeftInverse.injective PbConstraint.lits_ofClause

instance : FaithfulConstraint PbConstraint where
  toPb_injective := Function.injective_id

theorem PbConstraint.mapLits_mapLits (g h : Lit → Lit) (c : PbConstraint) :
    (c.mapLits g).mapLits h = c.mapLits (h ∘ g) := by
  simp only [mapLits, List.map_map]
  rfl

theorem Constraint.mapLits_mapLits {K : Type} [Constraint K] [LawfulLiterals K]
    [FaithfulConstraint K] (g h : Lit → Lit) (k : K) :
    mapLits h (mapLits g k) = mapLits (h ∘ g) k := by
  apply FaithfulConstraint.toPb_injective
  rw [LawfulLiterals.toPb_mapLits, LawfulLiterals.toPb_mapLits, LawfulLiterals.toPb_mapLits,
    PbConstraint.mapLits_mapLits]

end Clausal
