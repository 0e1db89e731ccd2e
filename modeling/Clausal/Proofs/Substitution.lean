import Clausal.Proofs.Constraint

/-!
# Substitutions

A substitution replaces literals by literals, and the negation of a literal by the negation of what
the literal is replaced by. It may identify variables, so a constraint may come to hold repeated and
opposite literals. All the same a store says after a substitution what it said before of the values
that are pulled back, where each variable has the value of what it is replaced by
(`Store.holds_substitute`, `Store.isSat_substitute`).

Two substitutions in a row are one (`Store.substitute_substitute`), and it makes no difference whether
literals are replaced before constraints are moved or after (`Store.substitute_permute`).
-/

namespace Clausal

/-- Negations are replaced by negations. -/
def KeepsNegation (g : Lit → Lit) : Prop := ∀ l, g l.flip = (g l).flip

/-! ## Values pulled back -/

/-- Each variable has the value of what it is replaced by. -/
def Valuation.pullback (ν : Valuation) (g : Lit → Lit) : Valuation :=
  fun v => (g (.positive v)).holds ν

/-- Each of the variables `1, …, n` has the value of what it is replaced by. -/
def Assignment.pullback (a : Assignment) (g : Lit → Lit) (n : Nat) : Assignment :=
  ⟨n, fun v => a.litValue (g (.positive v))⟩

theorem Truth.negate_negate (t : Truth) : t.negate.negate = t := by
  cases t <;> rfl

namespace Assignment

theorem litValue_flip (a : Assignment) (l : Lit) : a.litValue l.flip = (a.litValue l).negate := by
  obtain ⟨v, negated⟩ := l
  cases negated with
  | false => rfl
  | true => exact (Truth.negate_negate _).symm

theorem varValue_pullback {a : Assignment} {g : Lit → Lit} {n v : Nat} (h : 1 ≤ v ∧ v ≤ n) :
    (a.pullback g n).varValue v = a.litValue (g (.positive v)) := if_pos h

end Assignment

section

variable {g : Lit → Lit} (hg : KeepsNegation g)

include hg

theorem Assignment.litValue_image {a a' : Assignment} {l : Lit}
    (h : a'.varValue l.var = a.litValue (g (.positive l.var))) : a.litValue (g l) = a'.litValue l := by
  obtain ⟨v, negated⟩ := l
  cases negated with
  | false => exact h.symm
  | true =>
    have hflip : g ⟨v, true⟩ = (g (.positive v)).flip := hg (.positive v)
    rw [hflip, litValue_flip, ← h]
    rfl

theorem Valuation.holds_image (ν : Valuation) (l : Lit) :
    (g l).holds ν = l.holds (ν.pullback g) := by
  obtain ⟨v, negated⟩ := l
  cases negated with
  | false => exact (Bool.bne_false _).symm
  | true =>
    have hflip : g ⟨v, true⟩ = (g (.positive v)).flip := hg (.positive v)
    rw [hflip, Lit.holds_flip]
    exact (Bool.bne_true _).symm

end

/-! ## Stores -/

theorem lookup_map_snd {α β γ : Type} [BEq α] (f : β → γ) (a : α) (entries : List (α × β)) :
    (entries.map (Prod.map id f)).lookup a = (entries.lookup a).map f := by
  induction entries with
  | nil => rfl
  | cons entry entries ih =>
    rw [List.map_cons, List.lookup_cons, List.lookup_cons, ih]
    dsimp only [Prod.map, id]
    cases a == entry.1 <;> rfl

namespace Store

variable {K : Type} [Constraint K]

/-- The literals of all constraints. -/
def lits (s : Store K) : List Lit := s.constraints.flatMap Constraint.lits

theorem size_substitute (s : Store K) (g : Lit → Lit) : (s.substitute g).size = s.size :=
  List.length_map _

theorem getElem?_substitute (s : Store K) (g : Lit → Lit) (i : Nat) :
    (s.substitute g).constraints[i]? = s.constraints[i]?.map (Constraint.mapLits g) :=
  List.getElem?_map

section

variable [LawfulLiterals K] {g : Lit → Lit} (hg : KeepsNegation g)

include hg

theorem holds_substitute (s : Store K) (ν : Valuation) :
    (s.substitute g).Holds ν ↔ s.Holds (ν.pullback g) := by
  rw [Store.Holds, substitute, List.forall_mem_map, Store.Holds]
  refine forall₂_congr fun k _ => ?_
  rw [LawfulLiterals.toPb_mapLits]
  exact PbConstraint.holds_mapLits fun l _ => Valuation.holds_image hg ν l

theorem isSat_substitute (s : Store K) {a a' : Assignment}
    (h : ∀ l ∈ s.lits, a'.varValue l.var = a.litValue (g (.positive l.var))) :
    (s.substitute g).isSat a = s.isSat a' := by
  rw [isSat, substitute, List.all_map, isSat]
  rw [Bool.eq_iff_iff, List.all_eq_true, List.all_eq_true]
  refine forall₂_congr fun k hk => ?_
  rw [Function.comp_apply, LawfulLiterals.isSat_mapLits]
  intro l hl
  exact Assignment.litValue_image hg (h l (List.mem_flatMap.mpr ⟨k, hk, hl⟩))

end

theorem substitute_substitute [LawfulLiterals K] [FaithfulConstraint K] (s : Store K)
    (g h : Lit → Lit) : (s.substitute g).substitute h = s.substitute (h ∘ g) := by
  rw [substitute, substitute, substitute, List.map_map]
  congr 2
  funext k
  exact Constraint.mapLits_mapLits g h k

theorem substitute_permute (s : Store K) (g : Lit → Lit) (positions : List Nat) :
    (s.substitute g).permute positions = (s.permute positions).substitute g := by
  have hlookup : ∀ i, ((positions.zip (s.substitute g).constraints).reverse).lookup i =
      (((positions.zip s.constraints).reverse).lookup i).map (Constraint.mapLits g) := by
    intro i
    rw [← lookup_map_snd, List.map_reverse, ← List.zip_map_right]
    rfl
  simp only [permute, hlookup, size_substitute]
  rw [substitute, substitute, List.map_filterMap]

/-- **The substitution lemma.** After a substitution a store holds under exactly those values under
which it held when each variable has the value of what it is replaced by, whether values are given to
all variables or an assignment leaves some of them open. Nothing but the literals changes: the numbers
of variables and of constraints, their order, weights, relations and bounds stay as they are. Two
substitutions in a row are one, and a substitution commutes with moving constraints. -/
theorem substitute_lawful [LawfulLiterals K] [FaithfulConstraint K] (s : Store K) (g : Lit → Lit)
    (hg : KeepsNegation g) :
    (∀ ν : Valuation, (s.substitute g).Holds ν ↔ s.Holds (ν.pullback g)) ∧
    (∀ a a' : Assignment,
      (∀ l ∈ s.lits, a'.varValue l.var = a.litValue (g (.positive l.var))) →
        (s.substitute g).isSat a = s.isSat a') ∧
    (∀ (a : Assignment) (n : Nat), (∀ l ∈ s.lits, 1 ≤ l.var ∧ l.var ≤ n) →
      (s.substitute g).isSat a = s.isSat (a.pullback g n)) ∧
    (s.substitute g).vars = s.vars ∧ (s.substitute g).size = s.size ∧
    (∀ (i : Nat) (k : K), s.constraints[i]? = some k → ∃ k' : K,
      (s.substitute g).constraints[i]? = some k' ∧
      Constraint.lits k' = (Constraint.lits k).map g ∧
      Constraint.toPb k' = { Constraint.toPb k with
        terms := (Constraint.toPb k).terms.map fun (l, w) => (g l, w) }) ∧
    (∀ h : Lit → Lit, (s.substitute g).substitute h = s.substitute (h ∘ g)) ∧
    ∀ positions : List Nat,
      (s.substitute g).permute positions = (s.permute positions).substitute g := by
  refine ⟨holds_substitute hg s, fun a a' => isSat_substitute hg s, fun a n hn => ?_, rfl,
    size_substitute s g, fun i k hk => ?_, substitute_substitute s g, substitute_permute s g⟩
  · exact isSat_substitute hg s fun l hl => Assignment.varValue_pullback (hn l hl)
  · refine ⟨Constraint.mapLits g k, ?_, Constraint.lits_mapLits g k,
      LawfulLiterals.toPb_mapLits g k⟩
    rw [getElem?_substitute, hk, Option.map_some]

/-- The second variable becomes the negation of the first one, in a clause and in a weighted
constraint. Both come to hold opposite literals. -/
theorem substitute_lawful_identify :
    let g : Lit → Lit := fun l => if l.var = 2 then ⟨1, !l.negated⟩ else l
    let cnf : Cnf := ⟨[[.positive 1, .positive 2], [.negative 3]], 3⟩
    let opb : Opb := ⟨[⟨[(.positive 1, 2), (.positive 2, 3)], .ge, 3⟩], 2⟩
    KeepsNegation g ∧
      (cnf.substitute g).constraints = [[.positive 1, .negative 1], [.negative 3]] ∧
      (∀ l ∈ cnf.lits, 1 ≤ l.var ∧ l.var ≤ 3) ∧
      (∀ a : Assignment, (cnf.substitute g).isSat a = cnf.isSat (a.pullback g 3)) ∧
      (opb.substitute g).constraints = [⟨[(.positive 1, 2), (.negative 1, 3)], .ge, 3⟩] ∧
      ∀ ν : Valuation, (opb.substitute g).Holds ν ↔ opb.Holds (ν.pullback g) := by
  intro g cnf opb
  have hg : KeepsNegation g := by
    intro l
    by_cases hl : l.var = 2
    · simp [g, Lit.flip, hl]
    · simp [g, Lit.flip, hl]
  have hcnf : ∀ l ∈ cnf.lits, 1 ≤ l.var ∧ l.var ≤ 3 := by decide
  exact ⟨hg, by decide, hcnf, fun a => (substitute_lawful cnf g hg).2.2.1 a 3 hcnf, by decide,
    (substitute_lawful opb g hg).1⟩

end Store

end Clausal
