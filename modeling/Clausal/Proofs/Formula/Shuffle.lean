import Clausal.Formula.Build
import Clausal.Formula.Shuffle
import Clausal.Proofs.Constraint
import Clausal.Proofs.Formula.Audit
import Clausal.Proofs.Random
import Clausal.Proofs.VarGroup.Values
import Mathlib.Data.List.Nodup

/-!
# A shuffle preserves the models

However the choices of a shuffle come out, they fit the formula: the new names of the variables in
use are these variables in some order, all other variables keep their names, and the positions are
in some order (`Reshuffle.Fits`). From there on nothing is random. Renaming and flipping is a
one-to-one correspondence of truth values (`Reshuffle.exists_values_equiv`) under which each
constraint keeps its truth value, and moving constraints neither loses nor doubles any
(`Store.getElem?_permute`).
-/

namespace Clausal

/-! ## Renamed variables -/

namespace Reshuffle

/-- The new name of a variable. -/
def name (r : Reshuffle) (v : Nat) : Nat := r.rename[v - 1]?.getD v

/-- Whether the polarity of a variable is flipped. -/
def flipped (r : Reshuffle) (v : Nat) : Bool := r.flips[v - 1]?.getD false

theorem apply_eq (r : Reshuffle) (l : Lit) :
    r.apply l = ⟨r.name l.var, l.negated ^^ r.flipped l.var⟩ := rfl

theorem apply_flip (r : Reshuffle) (l : Lit) : r.apply l.flip = (r.apply l).flip := by
  rw [apply_eq, apply_eq, Lit.flip, Lit.flip, Bool.not_xor]

theorem holds_apply {r : Reshuffle} {l : Lit} {ν ν' : Valuation}
    (h : ν' (r.name l.var) = (ν l.var ^^ r.flipped l.var)) : (r.apply l).holds ν' = l.holds ν := by
  rw [apply_eq, Lit.holds, h, Lit.holds]
  cases ν l.var <;> cases l.negated <;> cases r.flipped l.var <;> rfl

section Perm

variable {r : Reshuffle} {n : Nat} (h : r.rename.Perm (List.range' 1 n))

include h

theorem getElem?_rename {v : Nat} (hv : v ∈ List.range' 1 n) :
    r.rename[v - 1]? = some (r.name v) := by
  have hlength : v - 1 < r.rename.length := by
    rw [h.length_eq, List.length_range']
    rw [List.mem_range'_1] at hv
    omega
  rw [name, List.getElem?_eq_getElem hlength]
  rfl

theorem name_mem {v : Nat} (hv : v ∈ List.range' 1 n) : r.name v ∈ List.range' 1 n :=
  h.mem_iff.mp (List.mem_of_getElem? (getElem?_rename h hv))

theorem name_inj {v w : Nat} (hv : v ∈ List.range' 1 n) (hw : w ∈ List.range' 1 n)
    (heq : r.name v = r.name w) : v = w := by
  have hnodup : r.rename.Nodup := h.nodup_iff.mpr List.nodup_range'
  have hget : r.rename[v - 1]? = r.rename[w - 1]? := by
    rw [getElem?_rename h hv, getElem?_rename h hw, heq]
  obtain ⟨hlength, -⟩ := List.getElem?_eq_some_iff.mp (getElem?_rename h hv)
  have hindex := (List.getElem?_inj hlength hnodup).mp hget
  rw [List.mem_range'_1] at hv hw
  omega

theorem exists_name {id : Nat} (hid : id ∈ List.range' 1 n) :
    ∃ v ∈ List.range' 1 n, r.name v = id := by
  obtain ⟨i, hi⟩ := List.mem_iff_getElem?.mp (h.mem_iff.mpr hid)
  obtain ⟨hlength, -⟩ := List.getElem?_eq_some_iff.mp hi
  rw [h.length_eq, List.length_range'] at hlength
  refine ⟨i + 1, ?_, ?_⟩
  · rw [List.mem_range'_1]
    omega
  · rw [name, Nat.add_sub_cancel, hi]
    rfl

theorem apply_inj {l m : Lit} (hl : l.var ∈ List.range' 1 n) (hm : m.var ∈ List.range' 1 n)
    (heq : r.apply l = r.apply m) : l = m := by
  obtain ⟨v, negated⟩ := l
  obtain ⟨w, negated'⟩ := m
  obtain ⟨hname, hpolarity⟩ := Lit.mk.inj heq
  obtain rfl : v = w := name_inj h hl hm hname
  obtain rfl : negated = negated' := Bool.xor_left_inj.mp hpolarity
  rfl

/-- Truth values before correspond one to one to truth values after: the value of a variable is that
of its new name, flipped or not. -/
theorem exists_values_equiv : ∃ e : IdRange.Values ⟨1, n⟩ ≃ IdRange.Values ⟨1, n⟩,
    ∀ a, ∀ v ∈ List.range' 1 n, (e a).extend (r.name v) = (a.extend v ^^ r.flipped v) := by
  let rename (v : {v // v ∈ IdRange.toList ⟨1, n⟩}) : {v // v ∈ IdRange.toList ⟨1, n⟩} :=
    ⟨r.name v, name_mem h v.2⟩
  have hbijective : Function.Bijective rename := by
    constructor
    · intro v w heq
      exact Subtype.ext (name_inj h v.2 w.2 (Subtype.mk.inj heq))
    · rintro ⟨id, hid⟩
      obtain ⟨v, hv, rfl⟩ := exists_name h hid
      exact ⟨⟨v, hv⟩, rfl⟩
  let σ := Equiv.ofBijective rename hbijective
  let e : IdRange.Values ⟨1, n⟩ ≃ IdRange.Values ⟨1, n⟩ :=
    { toFun := fun a id => a (σ.symm id) ^^ r.flipped (σ.symm id)
      invFun := fun b v => b (σ v) ^^ r.flipped v
      left_inv := fun a => by
        funext v
        simp
      right_inv := fun b => by
        funext id
        simp }
  refine ⟨e, fun a v hv => ?_⟩
  have hv : v ∈ IdRange.toList ⟨1, n⟩ := hv
  rw [IdRange.extend_of_mem a hv, IdRange.extend_of_mem (e a) (name_mem h hv)]
  show (a (σ.symm (σ ⟨v, hv⟩)) ^^ r.flipped (σ.symm (σ ⟨v, hv⟩))) = _
  rw [Equiv.symm_apply_apply]

end Perm

end Reshuffle

/-! ## Moved constraints -/

theorem lookup_eq_some_of_mem {α β : Type} [BEq α] [LawfulBEq α] {entries : List (α × β)}
    {a : α} {b : β} (hnodup : (entries.map Prod.fst).Nodup) (hmem : (a, b) ∈ entries) :
    entries.lookup a = some b := by
  induction entries with
  | nil => cases hmem
  | cons entry entries ih =>
    obtain ⟨a', b'⟩ := entry
    rw [List.map_cons, List.nodup_cons] at hnodup
    rw [List.lookup_cons]
    rcases List.mem_cons.mp hmem with heq | hrest
    · cases heq
      rw [beq_self_eq_true]
    · have hne : ¬ a = a' := by
        rintro rfl
        exact hnodup.1 (List.mem_map.mpr ⟨(a, b), hrest, rfl⟩)
      rw [beq_eq_false_iff_ne.mpr hne]
      exact ih hnodup.2 hrest

theorem map_some_filterMap {α β : Type} {f : α → Option β} {xs : List α}
    (h : ∀ x ∈ xs, ∃ y, f x = some y) : (xs.filterMap f).map some = xs.map f := by
  induction xs with
  | nil => rfl
  | cons x xs ih =>
    rw [List.forall_mem_cons] at h
    obtain ⟨⟨y, hy⟩, hrest⟩ := h
    rw [List.filterMap_cons_some hy, List.map_cons, List.map_cons, hy, ih hrest]

namespace Store

variable {K : Type} {s : Store K} {positions : List Nat}
  (h : positions.Perm (List.range s.size))

include h

theorem lookup_zip {i p : Nat} {c : K} (hp : positions[i]? = some p)
    (hc : s.constraints[i]? = some c) :
    ((positions.zip s.constraints).reverse).lookup p = some c := by
  have hlength : positions.length = s.constraints.length := by
    rw [h.length_eq, List.length_range]
    rfl
  apply lookup_eq_some_of_mem
  · rw [List.map_reverse, List.map_fst_zip hlength.le, List.nodup_reverse]
    exact h.nodup_iff.mpr List.nodup_range
  · rw [List.mem_reverse]
    apply List.mem_of_getElem? (i := i)
    rw [List.getElem?_zip_eq_some]
    exact ⟨hp, hc⟩

theorem exists_position {i : Nat} {c : K} (hc : s.constraints[i]? = some c) :
    ∃ p, positions[i]? = some p ∧ p < s.size := by
  obtain ⟨hi, -⟩ := List.getElem?_eq_some_iff.mp hc
  have hlength : i < positions.length := by
    rw [h.length_eq, List.length_range]
    exact hi
  refine ⟨positions[i], List.getElem?_eq_getElem hlength, ?_⟩
  rw [← List.mem_range, ← h.mem_iff]
  exact List.getElem_mem hlength

theorem exists_lookup {p : Nat} (hp : p ∈ List.range s.size) :
    ∃ (i : Nat) (c : K), positions[i]? = some p ∧ s.constraints[i]? = some c ∧
      ((positions.zip s.constraints).reverse).lookup p = some c := by
  obtain ⟨i, hi⟩ := List.mem_iff_getElem?.mp (h.mem_iff.mpr hp)
  obtain ⟨hlength, -⟩ := List.getElem?_eq_some_iff.mp hi
  rw [h.length_eq, List.length_range] at hlength
  have hc : s.constraints[i]? = some s.constraints[i] := List.getElem?_eq_getElem hlength
  exact ⟨i, s.constraints[i], hi, hc, lookup_zip h hi hc⟩

theorem map_some_permute : (s.permute positions).constraints.map some =
    (List.range s.size).map fun p => ((positions.zip s.constraints).reverse).lookup p := by
  apply map_some_filterMap
  intro p hp
  obtain ⟨i, c, -, -, hlookup⟩ := exists_lookup h hp
  exact ⟨c, hlookup⟩

theorem getElem?_permute {i p : Nat} {c : K} (hp : positions[i]? = some p)
    (hc : s.constraints[i]? = some c) : (s.permute positions).constraints[p]? = some c := by
  have hrange : p ∈ List.range s.size := h.mem_iff.mp (List.mem_of_getElem? hp)
  have hget : ((s.permute positions).constraints.map some)[p]? = _ :=
    congrArg (·[p]?) (map_some_permute h)
  rw [List.getElem?_map, List.getElem?_map, List.getElem?_range (List.mem_range.mp hrange),
    Option.map_some, lookup_zip h hp hc] at hget
  obtain ⟨c', hc', heq⟩ := Option.map_eq_some_iff.mp hget
  cases heq
  exact hc'

theorem size_permute : (s.permute positions).size = s.size := by
  have hlength := congrArg List.length (map_some_permute h)
  rw [List.length_map, List.length_map, List.length_range] at hlength
  exact hlength

theorem mem_permute_iff {c : K} :
    c ∈ (s.permute positions).constraints ↔ c ∈ s.constraints := by
  constructor
  · intro hc
    have hsome : some c ∈ (s.permute positions).constraints.map some := List.mem_map_of_mem hc
    rw [map_some_permute h] at hsome
    obtain ⟨p, hp, hlookup⟩ := List.mem_map.mp hsome
    obtain ⟨i, c', -, hc', hlookup'⟩ := exists_lookup h hp
    cases hlookup'.symm.trans hlookup
    exact List.mem_of_getElem? hc'
  · intro hc
    obtain ⟨i, hi⟩ := List.mem_iff_getElem?.mp hc
    obtain ⟨p, hp, -⟩ := exists_position h hi
    exact List.mem_of_getElem? (getElem?_permute h hp hi)

end Store

/-! ## Choices that fit -/

/-- What the choices of a shuffle can be: the variables in use get their names in some order, all
others keep theirs, and the constraints get their positions in some order. What may not change stays
as it is. -/
structure Reshuffle.Fits {K : Type} [Constraint K] (f : Formula K) (opts : ShuffleOptions)
    (r : Reshuffle) : Prop where
  rename : ∃ known, r.rename = known ++ List.range' (f.vars + 1) (f.maxVar - f.vars) ∧
    known.Perm (List.range' 1 f.vars) ∧ (opts.rename = false → known = List.range' 1 f.vars)
  flips : r.flips.length = f.maxVar ∧ (opts.flip = false → ∀ b ∈ r.flips, b = false)
  positions : r.positions.Perm (List.range f.size) ∧
    (opts.reorder = false → r.positions = List.range f.size)

theorem le_foldl_max (lits : List Lit) (n : Nat) :
    n ≤ lits.foldl (fun v l => max v l.var) n ∧
      ∀ l ∈ lits, l.var ≤ lits.foldl (fun v l => max v l.var) n := by
  induction lits generalizing n with
  | nil => exact ⟨Nat.le_refl n, nofun⟩
  | cons l lits ih =>
    obtain ⟨hinit, hlits⟩ := ih (max n l.var)
    rw [List.foldl_cons, List.forall_mem_cons]
    exact ⟨Nat.le_trans (Nat.le_max_left _ _) hinit, Nat.le_trans (Nat.le_max_right _ _) hinit,
      hlits⟩

namespace Formula

variable {K : Type} [Constraint K] {f : Formula K} {opts : ShuffleOptions}

theorem vars_le_maxVar (f : Formula K) : f.vars ≤ f.maxVar := (le_foldl_max f.allLits f.vars).1

theorem drawReshuffle_eq (f : Formula K) (opts : ShuffleOptions) (source : WordSource) :
    ∃ source₁ source₂, ((f.drawReshuffle opts).run source).1 =
      ⟨((Draw.shuffleIf opts.rename (List.range' 1 f.vars)).run source).1 ++
          List.range' (f.vars + 1) (f.maxVar - f.vars),
        (((List.range f.maxVar).mapM fun _ =>
          if opts.flip then Draw.coin else pure false).run source₁).1,
        ((Draw.shuffleIf opts.reorder (List.range f.size)).run source₂).1⟩ := by
  obtain ⟨rename, flip, reorder⟩ := opts
  cases reorder with
  | true => cases rename <;> exact ⟨_, _, rfl⟩
  | false => cases rename <;> exact ⟨_, source, rfl⟩

theorem drawReshuffle_fits (f : Formula K) (opts : ShuffleOptions) (source : WordSource) :
    ((f.drawReshuffle opts).run source).1.Fits f opts := by
  obtain ⟨source₁, source₂, heq⟩ := f.drawReshuffle_eq opts source
  have hflip : ∀ (_ : Nat) source,
      opts.flip = false → ((if opts.flip then Draw.coin else pure false).run source).1 = false := by
    intro _ source h
    rw [h]
    rfl
  obtain ⟨hlength, hflips⟩ := Draw.mapM_fits (P := fun b => opts.flip = false → b = false)
    hflip (List.range f.maxVar) source₁
  rw [heq]
  refine ⟨?_, ?_, ?_⟩
  · exact ⟨_, rfl, Draw.shuffleIf_perm _ _ _, fun h => Draw.shuffleIf_of_false h _ _⟩
  · exact ⟨hlength.trans List.length_range, fun h b hb => hflips b hb h⟩
  · exact ⟨Draw.shuffleIf_perm _ _ _, fun h => Draw.shuffleIf_of_false h _ _⟩

theorem shuffle_eq (f : Formula K) (opts : ShuffleOptions) (source : WordSource) :
    ((f.shuffle opts).run source).1 =
      if f.allLits.any (·.var = 0) then .error (.invalidIdentifier 0)
      else .ok (f.reshuffle ((f.drawReshuffle opts).run source).1) := rfl

end Formula

/-! ## Total assignments -/

namespace Assignment

/-- The total assignment of `1, …, n` with the values of a valuation. -/
def ofValuation (n : Nat) (ν : Valuation) : Assignment := ⟨n, fun v => .ofBool (ν v)⟩

theorem litValue_ofValuation {n : Nat} {l : Lit} (h : l.var ∈ List.range' 1 n) (ν : Valuation) :
    (ofValuation n ν).litValue l = .ofBool (l.holds ν) := by
  have hrange : 1 ≤ l.var ∧ l.var ≤ n := by
    rw [List.mem_range'_1] at h
    omega
  have hvar : (ofValuation n ν).varValue l.var = .ofBool (ν l.var) := if_pos hrange
  rw [litValue, hvar, Lit.holds]
  cases l.negated <;> cases ν l.var <;> rfl

end Assignment

/-! ## The shuffled formula -/

section Shuffled

variable {K : Type} [Constraint K] {f : Formula K} {opts : ShuffleOptions} {r : Reshuffle}
  (h : r.Fits f opts)

include h

namespace Reshuffle.Fits

theorem rename_perm : r.rename.Perm (List.range' 1 f.maxVar) := by
  obtain ⟨known, hrename, hperm, -⟩ := h.rename
  have hsplit : List.range' 1 f.vars ++ List.range' (f.vars + 1) (f.maxVar - f.vars) =
      List.range' 1 f.maxVar := by
    rw [Nat.add_comm f.vars 1, List.range'_append_1, Nat.add_sub_cancel' f.vars_le_maxVar]
  rw [hrename, ← hsplit]
  exact hperm.append_right _

theorem name_of_lt {v : Nat} (hv : f.vars < v) : r.name v = v := by
  obtain ⟨known, hrename, hperm, -⟩ := h.rename
  have hlength : known.length = f.vars := by rw [hperm.length_eq, List.length_range']
  rw [name, hrename, List.getElem?_append_right (by omega), hlength]
  by_cases hbeyond : v - 1 - f.vars < f.maxVar - f.vars
  · rw [List.getElem?_range' hbeyond, Option.getD_some]
    omega
  · rw [List.getElem?_eq_none (by rw [List.length_range']; omega), Option.getD_none]

theorem name_le_iff {v : Nat} (hv : 1 ≤ v) : r.name v ≤ f.vars ↔ v ≤ f.vars := by
  by_cases hle : v ≤ f.vars
  · obtain ⟨known, hrename, hperm, -⟩ := h.rename
    have hlength : known.length = f.vars := by rw [hperm.length_eq, List.length_range']
    have hlt : v - 1 < known.length := by omega
    have hmem : known[v - 1] ∈ List.range' 1 f.vars := hperm.mem_iff.mp (List.getElem_mem hlt)
    have hname : r.name v = known[v - 1] := by
      rw [name, hrename, List.getElem?_append_left hlt, List.getElem?_eq_getElem hlt,
        Option.getD_some]
    rw [List.mem_range'_1] at hmem
    omega
  · rw [h.name_of_lt (Nat.lt_of_not_le hle)]

theorem positions_perm :
    r.positions.Perm (List.range (f.store.substitute r.apply).size) := by
  have hsize : (f.store.substitute r.apply).size = f.size := List.length_map _
  rw [hsize]
  exact h.positions.1

end Reshuffle.Fits

namespace Formula

theorem getElem?_reshuffle {i : Nat} {k : K} (hk : f.constraints[i]? = some k) :
    ∃ p, r.positions[i]? = some p ∧
      (f.reshuffle r).constraints[p]? = some (Constraint.mapLits r.apply k) := by
  have hk' : (f.store.substitute r.apply).constraints[i]? =
      some (Constraint.mapLits r.apply k) := by
    show (f.constraints.map _)[i]? = _
    rw [List.getElem?_map, hk, Option.map_some]
  obtain ⟨p, hp, -⟩ := Store.exists_position h.positions_perm hk'
  exact ⟨p, hp, Store.getElem?_permute h.positions_perm hp hk'⟩

theorem size_reshuffle : (f.reshuffle r).size = f.size :=
  (Store.size_permute h.positions_perm).trans (List.length_map _)

theorem forall_reshuffle_iff {P : K → Prop} :
    (∀ k ∈ (f.reshuffle r).constraints, P k) ↔
      ∀ k ∈ f.constraints, P (Constraint.mapLits r.apply k) := by
  have hmem : ∀ k, k ∈ (f.reshuffle r).constraints ↔
      k ∈ f.constraints.map (Constraint.mapLits r.apply) :=
    fun k => Store.mem_permute_iff h.positions_perm
  simp only [hmem, List.forall_mem_map]

variable (hpos : ∀ l ∈ f.allLits, 1 ≤ l.var)

include hpos

omit h in
theorem mem_range_of_mem_lits {k : K} (hk : k ∈ f.constraints) {l : Lit}
    (hl : l ∈ Constraint.lits k) : l.var ∈ List.range' 1 f.maxVar := by
  have hmem : l ∈ f.allLits := List.mem_flatMap.mpr ⟨k, hk, hl⟩
  have hle := (le_foldl_max f.allLits f.vars).2 l hmem
  have hge := hpos l hmem
  rw [List.mem_range'_1]
  exact ⟨hge, Nat.lt_one_add_iff.mpr hle⟩

variable [LawfulLiterals K] {ν ν' : Valuation}
  (hvalues : ∀ v ∈ List.range' 1 f.maxVar, ν' (r.name v) = (ν v ^^ r.flipped v))

section Values

include hvalues

omit h [LawfulLiterals K] in
theorem holds_apply_of_mem {k : K} (hk : k ∈ f.constraints) {l : Lit}
    (hl : l ∈ Constraint.lits k) : (r.apply l).holds ν' = l.holds ν :=
  Reshuffle.holds_apply (hvalues l.var (mem_range_of_mem_lits hpos hk hl))

theorem holds_reshuffle_iff : (f.reshuffle r).store.Holds ν' ↔ f.store.Holds ν := by
  rw [Store.Holds, Store.Holds]
  refine (forall_reshuffle_iff h).trans (forall₂_congr fun k hk => ?_)
  rw [LawfulLiterals.toPb_mapLits]
  apply PbConstraint.holds_mapLits
  intro l hl
  rw [LawfulLiterals.lits_toPb] at hl
  exact holds_apply_of_mem hpos hvalues hk hl

theorem isSat_reshuffle : (f.reshuffle r).store.isSat (.ofValuation f.maxVar ν') =
    f.store.isSat (.ofValuation f.maxVar ν) := by
  rw [Bool.eq_iff_iff, Store.isSat, Store.isSat, List.all_eq_true, List.all_eq_true]
  refine (forall_reshuffle_iff h).trans (forall₂_congr fun k hk => ?_)
  rw [LawfulLiterals.isSat_mapLits]
  intro l hl
  have hmem := mem_range_of_mem_lits hpos hk hl
  have hmem' : (r.apply l).var ∈ List.range' 1 f.maxVar :=
    Reshuffle.name_mem h.rename_perm hmem
  rw [Assignment.litValue_ofValuation hmem', Assignment.litValue_ofValuation hmem,
    holds_apply_of_mem hpos hvalues hk hl]

end Values

theorem wellFormed_mapLits_iff {k : K} (hk : k ∈ f.constraints) (opts : AuditOptions) :
    Constraint.WellFormed opts f.vars (Constraint.mapLits r.apply k) ↔
      Constraint.WellFormed opts f.vars k := by
  have hrange := fun l hl => mem_range_of_mem_lits hpos hk (l := l) hl
  have hweight : (∀ term ∈ (Constraint.toPb (Constraint.mapLits r.apply k)).terms, term.2 ≠ 0) ↔
      ∀ term ∈ (Constraint.toPb k).terms, term.2 ≠ 0 := by
    rw [LawfulLiterals.toPb_mapLits, PbConstraint.mapLits, List.forall_mem_map]
  have hvar : (∀ l ∈ (Constraint.lits k).map r.apply, l.var ≤ f.vars) ↔
      ∀ l ∈ Constraint.lits k, l.var ≤ f.vars := by
    rw [List.forall_mem_map]
    refine forall₂_congr fun l hl => h.name_le_iff ?_
    exact (List.mem_range'_1.mp (hrange l hl)).1
  have hnodup : ((Constraint.lits k).map r.apply).Nodup ↔ (Constraint.lits k).Nodup := by
    refine ⟨List.Nodup.of_map r.apply, List.Nodup.map_on fun l hl m hm => ?_⟩
    exact Reshuffle.apply_inj h.rename_perm (hrange l hl) (hrange m hm)
  have hconsistent : Consistent ((Constraint.lits k).map r.apply) ↔
      Consistent (Constraint.lits k) := by
    rw [Consistent, List.forall_mem_map, Consistent]
    refine forall₂_congr fun l hl => not_congr ?_
    rw [← Reshuffle.apply_flip, List.mem_map]
    constructor
    · rintro ⟨m, hm, heq⟩
      have hflip : l.flip.var ∈ List.range' 1 f.maxVar := hrange l hl
      exact Reshuffle.apply_inj h.rename_perm (hrange m hm) hflip heq ▸ hm
    · exact fun hflip => ⟨_, hflip, rfl⟩
  have hlits := Constraint.lits_mapLits r.apply k
  constructor
  · rintro ⟨hw, hv, hn, hc⟩
    rw [hlits] at hv hn hc
    exact ⟨hweight.mp hw, hvar.mp hv, hn.imp_right hnodup.mp, hc.imp_right hconsistent.mp⟩
  · rintro ⟨hw, hv, hn, hc⟩
    rw [← hvar] at hv
    rw [← hnodup] at hn
    rw [← hconsistent] at hc
    rw [← hlits] at hv hn hc
    exact ⟨hweight.mpr hw, hv, hn, hc⟩

theorem isWellFormed_reshuffle (opts : AuditOptions) :
    (f.reshuffle r).isWellFormed opts = f.isWellFormed opts := by
  rw [Bool.eq_iff_iff, isWellFormed_iff, isWellFormed_iff]
  refine (forall_reshuffle_iff h).trans (forall₂_congr fun k hk => ?_)
  exact wellFormed_mapLits_iff h hpos hk opts

end Formula

end Shuffled

namespace Formula

/-- **A shuffle preserves the models.** A formula without the identifier 0 can be shuffled, and
whatever the random choices come out as, they fit. For all choices that fit, giving the new name of
each variable its old value, flipped or not, is a one-to-one correspondence of truth values, under
which the formulas are satisfied by corresponding values. Each constraint is moved to its position,
with its literals renamed and its weights, relation and bound kept. The numbers of variables and of
constraints, the names of variables that are not in use and what audits say stay the same. -/
theorem shuffle_preserves_models {K : Type} [Constraint K] [LawfulLiterals K] (f : Formula K)
    (hpos : ∀ l ∈ f.allLits, 1 ≤ l.var) (opts : ShuffleOptions) :
    (∀ source, ∃ r, r.Fits f opts ∧ ((f.shuffle opts).run source).1 = .ok (f.reshuffle r)) ∧
    ∀ r : Reshuffle, r.Fits f opts →
      (∃ e : IdRange.Values ⟨1, f.maxVar⟩ ≃ IdRange.Values ⟨1, f.maxVar⟩, ∀ a,
        (∀ v ∈ List.range' 1 f.maxVar,
          (e a).extend (r.name v) = (a.extend v ^^ r.flipped v)) ∧
        ((f.reshuffle r).store.Holds (e a).extend ↔ f.store.Holds a.extend) ∧
        (f.reshuffle r).store.isSat (.ofValuation f.maxVar (e a).extend) =
          f.store.isSat (.ofValuation f.maxVar a.extend)) ∧
      (∀ (i : Nat) (k : K), f.constraints[i]? = some k → ∃ (p : Nat) (k' : K),
        r.positions[i]? = some p ∧ (f.reshuffle r).constraints[p]? = some k' ∧
        k' = Constraint.mapLits r.apply k ∧
        Constraint.toPb k' = { Constraint.toPb k with
          terms := (Constraint.toPb k).terms.map fun (l, w) =>
            (⟨r.name l.var, l.negated ^^ r.flipped l.var⟩, w) }) ∧
      (f.reshuffle r).vars = f.vars ∧ (f.reshuffle r).size = f.size ∧
      (∀ v, f.vars < v → r.name v = v) ∧
      ∀ audit, (f.reshuffle r).isWellFormed audit = f.isWellFormed audit := by
  refine ⟨fun source => ⟨_, f.drawReshuffle_fits opts source, ?_⟩, fun r h => ?_⟩
  · have hany : ¬ f.allLits.any (·.var = 0) = true := by
      rw [List.any_eq_true]
      rintro ⟨l, hl, hzero⟩
      have hge := hpos l hl
      rw [of_decide_eq_true hzero] at hge
      cases hge
    rw [shuffle_eq, if_neg hany]
  · obtain ⟨e, he⟩ := Reshuffle.exists_values_equiv h.rename_perm
    refine ⟨⟨e, fun a => ⟨he a, ?_, ?_⟩⟩, ?_, rfl, size_reshuffle h, fun v => h.name_of_lt,
      isWellFormed_reshuffle h hpos⟩
    · exact holds_reshuffle_iff h hpos (he a)
    · exact isSat_reshuffle h hpos (he a)
    · intro i k hk
      obtain ⟨p, hp, hk'⟩ := getElem?_reshuffle h hk
      exact ⟨p, _, hp, hk', rfl, LawfulLiterals.toPb_mapLits r.apply k⟩

/-- Two variables in use and an unchecked clause about a third one: the first two swap their names,
the first and the third one are flipped, and the clauses swap their positions. -/
theorem shuffle_preserves_models_swap :
    let f : CnfFormula := ⟨⟨[[.positive 1, .negative 2], [.positive 3]], 2⟩, .empty, []⟩
    let r : Reshuffle := ⟨[2, 1, 3], [true, false, true], [1, 0]⟩
    (∀ l ∈ f.allLits, 1 ≤ l.var) ∧ r.Fits f .all ∧
      (f.reshuffle r).constraints = [[.negative 3], [.negative 2, .negative 1]] ∧
      ∃ e : IdRange.Values ⟨1, 3⟩ ≃ IdRange.Values ⟨1, 3⟩, ∀ a,
        (f.reshuffle r).store.Holds (e a).extend ↔ f.store.Holds a.extend := by
  intro f r
  have hpos : ∀ l ∈ f.allLits, 1 ≤ l.var := by decide
  have hfits : r.Fits f .all :=
    ⟨⟨[2, 1], rfl, by decide, nofun⟩, ⟨rfl, nofun⟩, ⟨by decide, nofun⟩⟩
  obtain ⟨⟨e, he⟩, -⟩ := (shuffle_preserves_models f hpos .all).2 r hfits
  exact ⟨hpos, hfits, by decide, e, fun a => (he a).2.1⟩

/-- A literal over the identifier 0 stops a shuffle, even one that may change nothing. -/
theorem shuffle_zero_eq_error :
    let f : CnfFormula := Formula.empty.addClause [.positive 0]
    ((f.shuffle ⟨false, false, false⟩).run (.cycle [0])).1 = .error (.invalidIdentifier 0) := rfl

end Formula

end Clausal
