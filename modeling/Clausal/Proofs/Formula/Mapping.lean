import Clausal.Formula.Operation
import Clausal.Proofs.Encoding.Mapping.Binary
import Clausal.Proofs.Encoding.Mapping.Unary
import Clausal.Proofs.Registry

/-!
# Formulas about functions

A formula can describe a function from `n` elements to `m` images with one variable for each pair or
with one variable for each bit. Both are told the same: that the mapping is complete and functional,
and which other properties it has. Then both have the same models, namely the functions with these
properties (`Operation.models_correspond`).

Properties are forced one after the other, each adding what it says to what the formula said before.
What is said in the end is that the relation of the mapping is the graph of a function. From there on
the representations differ by the code of a function: the pairs of its graph, or the bits of its
values.
-/

namespace Clausal

/-! ## Forced properties -/

section Force

variable {K : Type} [Constraint K] [LawfulConstraint K]

theorem Formula.force_expresses {f : Formula K} {property : MappingProperty}
    {mapping : Handle Mapping} {meaning : Valuation → Prop}
    (howns : f.registry.owns (mapping.map Mapping.toGroup) = true)
    (h : Request.Expresses (mapping.value.requests property) meaning) :
    ∃ f', f.force property mapping = (.ok (), f') ∧ f'.registry = f.registry ∧
      ∀ ν, f'.store.Holds ν ↔ f.store.Holds ν ∧ meaning ν := by
  refine ⟨f.collect (Request.untilFailure (mapping.value.requests property)).1, ?_, rfl, ?_⟩
  · rw [force, if_pos howns, h.addAll_eq]
    rfl
  · intro ν
    apply h.store_holds_iff
    intro request hmem
    exact Mapping.stateable_of_mem_requests hmem

namespace Operation

variable {mapping : Handle Mapping} {properties : List MappingProperty}
  {meaning : MappingProperty → Valuation → Prop}

theorem runAll_force
    (h : ∀ p ∈ properties, Request.Expresses (mapping.value.requests p) (meaning p))
    (token : Nat) {f : Formula K}
    (howns : f.registry.owns (mapping.map Mapping.toGroup) = true) :
    ∃ f', runAll (properties.map (.force · mapping)) token f =
        (properties.map fun _ => .ok .done, f') ∧
      ∀ ν, f'.store.Holds ν ↔ f.store.Holds ν ∧ ∀ p ∈ properties, meaning p ν := by
  induction properties generalizing token f with
  | nil =>
    refine ⟨f, rfl, fun ν => ?_⟩
    simp
  | cons p properties ih =>
    obtain ⟨f₁, hforce, hregistry, hholds⟩ :=
      Formula.force_expresses howns (h p List.mem_cons_self)
    -- what is forced adds no group, so the mapping is owned as before
    have howns₁ : f₁.registry.owns (mapping.map Mapping.toGroup) = true := by
      rw [hregistry]
      exact howns
    obtain ⟨f₂, hrun, hholds'⟩ :=
      ih (fun p' hp' => h p' (List.mem_cons_of_mem p hp')) (token + 1) howns₁
    refine ⟨f₂, ?_, fun ν => ?_⟩
    · rw [List.map_cons, runAll, run, hforce]
      dsimp only
      rw [hrun]
      rfl
    · rw [hholds', hholds, List.forall_mem_cons, and_assoc]

/-- Creates a mapping and states that it is a function with some properties. -/
def describeFunction (spec : GroupSpec) (mapping : Handle Mapping)
    (properties : List MappingProperty) : List Operation :=
  .newGroup spec :: (.complete :: .functional :: properties).map (.force · mapping)

/-- What is returned where nothing is refused. -/
def accepted (mapping : Handle Mapping) (properties : List MappingProperty) :
    List (Except Error Reply) :=
  .ok (.group (mapping.map Mapping.toGroup)) :: .ok .done :: .ok .done ::
    properties.map fun _ => .ok .done

theorem runAll_describeFunction (spec : GroupSpec) (mapping : Handle Mapping)
    (hcreate : spec.create 1 = .ok mapping.value.toGroup)
    (h : ∀ p ∈ .complete :: .functional :: properties,
      Request.Expresses (mapping.value.requests p) (meaning p)) :
    ∃ f : Formula K, runAll (describeFunction spec mapping properties) mapping.token .empty =
        (accepted mapping properties, f) ∧
      ∀ ν, f.store.Holds ν ↔ ∀ p ∈ .complete :: .functional :: properties, meaning p ν := by
  have hvars : (Formula.empty : Formula K).vars < maxVar := by
    show 0 < maxVar
    decide
  obtain ⟨f, hgroup, hregistry, hconstraints⟩ :=
    Formula.newGroup_of_create mapping.token hvars hcreate
  have howns : f.registry.owns (mapping.map Mapping.toGroup) = true := by
    rw [hregistry, Registry.owns]
    exact List.contains_iff_mem.mpr List.mem_cons_self
  obtain ⟨f', hrun, hholds⟩ := runAll_force h (mapping.token + 1) howns
  refine ⟨f', ?_, fun ν => ?_⟩
  · rw [describeFunction, runAll, run, hgroup]
    dsimp only
    rw [hrun]
    rfl
  · have hempty : f.store.Holds ν := by
      intro c hc
      have hnil : f.store.constraints = [] := hconstraints
      rw [hnil] at hc
      cases hc
    rw [hholds]
    exact and_iff_right hempty

end Operation

end Force

/-! ## Codes of functions -/

section Codes

variable {n m : Nat} {properties : List MappingProperty}

namespace UnaryMapping

/-- The index of an element and an image, both counted from zero. -/
def key (k : Fin n × Fin m) : Index := [(k.1 : Nat) + 1, (k.2 : Nat) + 1]

theorem key_injective : Function.Injective (key : Fin n × Fin m → Index) := by
  rintro ⟨i, v⟩ ⟨i', v'⟩ heq
  simp only [key, List.cons.injEq, Nat.add_right_cancel_iff, and_true] at heq
  exact Prod.ext (Fin.ext heq.1) (Fin.ext heq.2)

variable {f : UnaryMapping} (h : f.pairs.LaidOut) (hgraph : f.pairs.graph = .complete n m)

include hgraph

theorem domain_complete : f.domain = List.range' 1 n := by
  rw [domain, domainSize, hgraph, BipartiteGraph.leftOrder, BipartiteGraph.complete,
    Array.size_replicate]

theorem range_complete : f.range = List.range' 1 m := by
  rw [range, rangeSize, hgraph, BipartiteGraph.rightOrder, BipartiteGraph.complete,
    Array.size_replicate]

theorem mem_edges_iff_key (index : Index) :
    index ∈ f.pairs.graph.edges.map (fun e => [e.1, e.2]) ↔
      ∃ k : Fin n × Fin m, key k = index := by
  rw [List.mem_map, hgraph]
  constructor
  · rintro ⟨e, he, rfl⟩
    obtain ⟨hleft, hright⟩ := BipartiteGraph.mem_edges_complete.mp he
    obtain ⟨i, hi⟩ := mem_range'_iff_exists_fin.mp hleft
    obtain ⟨v, hv⟩ := mem_range'_iff_exists_fin.mp hright
    refine ⟨(i, v), ?_⟩
    rw [← hi, ← hv]
    rfl
  · rintro ⟨k, rfl⟩
    refine ⟨(k.1 + 1, k.2 + 1), BipartiteGraph.mem_edges_complete.mpr ⟨?_, ?_⟩, rfl⟩
    · exact fin_add_mem_range' 1 k.1
    · exact fin_add_mem_range' 1 k.2

include h

/-- The pairs of a mapping that is said to be a function are the graph of one. -/
theorem exists_equiv (hproperties : ∀ p ∈ properties, p = .injective ∨ p = .nondecreasing)
    {sat : Valuation → Prop} (hsat : ∀ ν, sat ν ↔ ∀ p ∈ .complete :: .functional :: properties,
      MappingProperty.Holds p f.domain f.range (f.Relates ν)) :
    (∀ ν, sat ν ↔ sat (f.pairs.ids.restrict ν).extend) ∧
    ∃ e : {a : f.pairs.ids.Values // sat a.extend} ≃
        {φ : Fin n → Fin m // MappingProperty.FunctionHas properties φ},
      ∀ a k, (VarGroup.unary f).truth a.1.extend (key k) = true ↔ (e a).1 k.1 = k.2 := by
  have henumerates : (VarGroup.unary f).Enumerates (f.pairs.graph.edges.map fun e => [e.1, e.2]) :=
    h.enumerates_unary
  have hcodes : ∀ ν, sat ν ↔ ∃ φ : Fin n → Fin m, MappingProperty.FunctionHas properties φ ∧
      ∀ k, (VarGroup.unary f).truth ν (key k) = true ↔ φ k.1 = k.2 := by
    intro ν
    rw [hsat, domain_complete hgraph, range_complete hgraph,
      MappingProperty.forall_holds_iff hproperties]
    simp only [Prod.forall]
    rfl
  have hgraphs : ∀ φ φ' : Fin n → Fin m,
      (∀ k : Fin n × Fin m, φ k.1 = k.2 ↔ φ' k.1 = k.2) → φ = φ' := by
    intro φ φ' heq
    funext i
    exact ((heq (i, φ i)).mp rfl).symm
  exact henumerates.exists_equiv key_injective (mem_edges_iff_key hgraph) hcodes hgraphs

end UnaryMapping

namespace BinaryMapping

variable {g : BinaryMapping}

/-- The index of a bit of an element, which is counted from zero. -/
def key (k : Fin g.n × Fin g.bits) : Index := [(k.1 : Nat) + 1, (k.2 : Nat)]

theorem key_injective : Function.Injective (key : Fin g.n × Fin g.bits → Index) := by
  rintro ⟨i, b⟩ ⟨i', b'⟩ heq
  simp only [key, List.cons.injEq, Nat.add_right_cancel_iff, and_true] at heq
  exact Prod.ext (Fin.ext heq.1) (Fin.ext heq.2)

theorem mem_tuples_iff_key (index : Index) :
    index ∈ tuples [g.domain, g.bitPositions] ↔ ∃ k : Fin g.n × Fin g.bits, key k = index := by
  rw [tuples_pair, List.mem_flatMap]
  constructor
  · rintro ⟨u, hu, hindex⟩
    obtain ⟨b, hb, rfl⟩ := List.mem_map.mp hindex
    obtain ⟨i, rfl⟩ := mem_range'_iff_exists_fin.mp hu
    exact ⟨(i, ⟨b, mem_bitPositions.mp hb⟩), rfl⟩
  · rintro ⟨k, rfl⟩
    refine ⟨_, fin_add_mem_range' 1 k.1, List.mem_map.mpr ⟨_, ?_, rfl⟩⟩
    exact mem_bitPositions.mpr k.2.isLt

theorem value_eq_iff_truth {ν : Valuation} {i j : Nat} (hj : j < bitRange g.bits) :
    g.value ν i = j ↔
      ∀ b : Fin g.bits, (VarGroup.binary g).truth ν [i, (b : Nat)] = true ↔ j.testBit b = true := by
  constructor
  · rintro rfl b
    rw [testBit_value b.isLt]
  · intro hbits
    refine eq_of_testBit_eq (value_lt g ν i) hj fun b hb => ?_
    rw [testBit_value hb, Bool.eq_iff_iff]
    exact hbits ⟨b, hb⟩

variable (henumerates : (VarGroup.binary g).Enumerates (tuples [g.domain, g.bitPositions]))
  (hle : g.m ≤ bitRange g.bits)

include henumerates hle

/-- The values of a mapping that is said to be a function are those of one. -/
theorem exists_equiv (hproperties : ∀ p ∈ properties, p = .injective ∨ p = .nondecreasing)
    {sat : Valuation → Prop} (hsat : ∀ ν, sat ν ↔ ∀ p ∈ .complete :: .functional :: properties,
      MappingProperty.Holds p g.domain g.range fun i j => g.value ν i = j) :
    (∀ ν, sat ν ↔ sat (g.ids.restrict ν).extend) ∧
    ∃ e : {b : g.ids.Values // sat b.extend} ≃
        {φ : Fin g.n → Fin g.m // MappingProperty.FunctionHas properties φ},
      ∀ b (i : Fin g.n), g.value b.1.extend (i + 1) = (e b).1 i := by
  have hlt : ∀ v : Fin g.m, (v : Nat) < bitRange g.bits := fun v => Nat.lt_of_lt_of_le v.isLt hle
  have hvalues : ∀ (ν : Valuation) (φ : Fin g.n → Fin g.m),
      (∀ i : Fin g.n, g.value ν (i + 1) = φ i) ↔
        ∀ k, (VarGroup.binary g).truth ν (key k) = true ↔ (φ k.1 : Nat).testBit k.2 = true := by
    intro ν φ
    rw [Prod.forall]
    apply forall_congr'
    intro i
    exact value_eq_iff_truth (hlt (φ i))
  have hcodes : ∀ ν, sat ν ↔ ∃ φ : Fin g.n → Fin g.m, MappingProperty.FunctionHas properties φ ∧
      ∀ k, (VarGroup.binary g).truth ν (key k) = true ↔ (φ k.1 : Nat).testBit k.2 = true := by
    intro ν
    rw [hsat, domain, range, List.range_eq_range', MappingProperty.forall_holds_iff hproperties]
    apply exists_congr
    intro φ
    apply and_congr_right
    intro _
    rw [← hvalues]
    apply forall_congr'
    intro i
    constructor
    · intro hvalue
      exact (hvalue (φ i)).mpr rfl
    · intro hvalue v
      rw [hvalue, Nat.add_zero, Fin.ext_iff]
  have hnumbers : ∀ φ φ' : Fin g.n → Fin g.m, (∀ k : Fin g.n × Fin g.bits,
      (φ k.1 : Nat).testBit k.2 = true ↔ (φ' k.1 : Nat).testBit k.2 = true) → φ = φ' := by
    intro φ φ' heq
    funext i
    refine Fin.ext (eq_of_testBit_eq (hlt (φ i)) (hlt (φ' i)) fun b hb => ?_)
    rw [Bool.eq_iff_iff]
    exact heq (i, ⟨b, hb⟩)
  obtain ⟨hrestrict, e, he⟩ :=
    henumerates.exists_equiv key_injective mem_tuples_iff_key hcodes hnumbers
  refine ⟨hrestrict, e, fun b => ?_⟩
  exact (hvalues b.1.extend (e b).1).mpr (he b)

end BinaryMapping

end Codes

/-! ## Models -/

namespace Operation

variable {K L : Type} [Constraint K] [LawfulConstraint K] [Constraint L] [LawfulConstraint L]

/-- **Both representations of a mapping have the same models.** A formula that describes a function by
pairs and one that describes it by bits are satisfied by values of their variables that correspond
one to one to the functions with the properties. Image `v` of an element is its pair with `v + 1` on
one side, and its number `v` on the other. -/
theorem models_correspond {n m : Nat} {label label' : Option String} {f : UnaryMapping}
    {g : BinaryMapping} (hf : UnaryMapping.create 1 (.complete n m) label = .ok f)
    (hg : BinaryMapping.create 1 n m label' = .ok g) {properties : List MappingProperty}
    (hproperties : ∀ p ∈ properties, p = .injective ∨ p = .nondecreasing) (token : Nat) :
    ∃ (F : Formula K) (G : Formula L),
      runAll (describeFunction (.mapping (.complete n m) label) ⟨token, .unary f⟩ properties) token
        .empty = (accepted ⟨token, .unary f⟩ properties, F) ∧
      runAll (describeFunction (.binaryMapping n m label') ⟨token, .binary g⟩ properties) token
        .empty = (accepted ⟨token, .binary g⟩ properties, G) ∧
      (∀ ν, F.store.Holds ν ↔ F.store.Holds (f.pairs.ids.restrict ν).extend) ∧
      (∀ ν, G.store.Holds ν ↔ G.store.Holds (g.ids.restrict ν).extend) ∧
      ∃ (e : {a : f.pairs.ids.Values // F.store.Holds a.extend} ≃
            {φ : Fin n → Fin m // MappingProperty.FunctionHas properties φ})
        (e' : {b : g.ids.Values // G.store.Holds b.extend} ≃
            {φ : Fin n → Fin m // MappingProperty.FunctionHas properties φ}),
        (∀ a (i : Fin n) (v : Fin m),
          (VarGroup.unary f).truth a.1.extend [i + 1, v + 1] = true ↔ (e a).1 i = v) ∧
        ∀ b (i : Fin n), g.value b.1.extend (i + 1) = (e' b).1 i := by
  have hnumbers : ∀ p ∈ MappingProperty.complete :: .functional :: properties,
      p ≠ .surjective := by
    intro p hp
    rcases List.mem_cons.mp hp with rfl | hp
    · decide
    rcases List.mem_cons.mp hp with rfl | hp
    · decide
    rcases hproperties p hp with rfl | rfl
    · decide
    · decide
  have hgraph : (BipartiteGraph.complete n m).WellFormed := BipartiteGraph.wellFormed_complete n m
  obtain ⟨hlaid, hcomplete⟩ := UnaryMapping.create_laidOut hgraph hf
  have hle := BinaryMapping.create_le_bitRange hg
  have hpairs : (GroupSpec.mapping (.complete n m) label).create 1 = .ok (.unary f) := by
    rw [GroupSpec.create, hf]
    rfl
  have hbits : (GroupSpec.binaryMapping n m label').create 1 = .ok (.binary g) := by
    rw [GroupSpec.create, hg]
    rfl
  obtain ⟨F, hF, hFholds⟩ := runAll_describeFunction (K := K) _ ⟨token, .unary f⟩ hpairs
    fun p _ => UnaryMapping.expresses_property hlaid p
  obtain ⟨G, hG, hGholds⟩ := runAll_describeFunction (K := L) _ ⟨token, .binary g⟩ hbits
    fun p hp => BinaryMapping.expresses_property hle (hnumbers p hp)
  have henumerates := BinaryMapping.create_enumerates hg
  obtain ⟨rfl, rfl, -, -⟩ := BinaryMapping.create_eq_ok hg
  obtain ⟨hrestrict, e, he⟩ := UnaryMapping.exists_equiv hlaid hcomplete hproperties hFholds
  obtain ⟨hrestrict', e', he'⟩ := BinaryMapping.exists_equiv henumerates hle hproperties hGholds
  exact ⟨F, G, hF, hG, hrestrict, hrestrict', e, e', fun a i v => he a (i, v), he'⟩

/-- Two elements with the images 2 and 0, of three. -/
theorem models_correspond_three : ∃ f g, UnaryMapping.create 1 (.complete 2 3) none = .ok f ∧
    BinaryMapping.create 1 2 3 none = .ok g ∧
    (∃ ν, (runAll (describeFunction (.mapping (.complete 2 3) none) ⟨0, .unary f⟩ [.injective]) 0
        (Formula.empty : CnfFormula)).2.store.Holds ν ∧
      (VarGroup.unary f).truth ν [1, 3] = true ∧ (VarGroup.unary f).truth ν [2, 1] = true) ∧
    ∃ ν, (runAll (describeFunction (.binaryMapping 2 3 none) ⟨0, .binary g⟩ [.injective]) 0
        (Formula.empty : OpbFormula)).2.store.Holds ν ∧ g.value ν 1 = 2 ∧ g.value ν 2 = 0 := by
  obtain ⟨f, hf⟩ : ∃ f, UnaryMapping.create 1 (.complete 2 3) none = .ok f := by
    refine ⟨⟨⟨⟨1, 6⟩, .complete 2 3, #[1, 4], #[[1, 4], [2, 5], [3, 6]],
      ⟨[.char 'f', .char '(', .argument 0, .char ')', .char '=', .argument 1]⟩⟩⟩, ?_⟩
    decide +kernel
  obtain ⟨g, hg⟩ : ∃ g, BinaryMapping.create 1 2 3 none = .ok g := by
    refine ⟨⟨⟨1, 4⟩, 2, 3, 2,
      ⟨[.char 'v', .char '(', .argument 0, .char ',', .argument 1, .char ')']⟩⟩, ?_⟩
    decide +kernel
  obtain ⟨F, G, hF, hG, -, -, e, e', he, he'⟩ :=
    models_correspond (K := Clause) (L := PbConstraint) hf hg
      (by decide : ∀ p ∈ [MappingProperty.injective], p = .injective ∨ p = .nondecreasing) 0
  let φ : Fin 2 → Fin 3 := fun i => if i = 0 then 2 else 0
  have hinjective : ∀ i i', φ i = φ i' → i = i' := by decide
  have hφ : MappingProperty.FunctionHas [.injective] φ :=
    ⟨fun _ i i' => hinjective i i', fun hmem => absurd hmem (by decide)⟩
  refine ⟨f, g, hf, hg, ⟨(e.symm ⟨φ, hφ⟩).1.extend, ?_, ?_, ?_⟩,
    (e'.symm ⟨φ, hφ⟩).1.extend, ?_, ?_, ?_⟩
  · rw [hF]
    exact (e.symm ⟨φ, hφ⟩).2
  · apply (he _ 0 2).mpr
    rw [e.apply_symm_apply]
    rfl
  · apply (he _ 1 0).mpr
    rw [e.apply_symm_apply]
    rfl
  · rw [hG]
    exact (e'.symm ⟨φ, hφ⟩).2
  · have hvalue := he' (e'.symm ⟨φ, hφ⟩) 0
    rw [e'.apply_symm_apply] at hvalue
    exact hvalue
  · have hvalue := he' (e'.symm ⟨φ, hφ⟩) 1
    rw [e'.apply_symm_apply] at hvalue
    exact hvalue

end Operation

end Clausal
