import Clausal.Proofs.Encoding.Mapping
import Clausal.Proofs.VarGroup.BipartiteEdges

/-!
# What is asked of a mapping with one variable for each pair

The true variables of such a mapping are a relation between its elements and images, and nothing
else of a valuation matters: the constraints of a property hold exactly when this relation has it
(`requests_state_property`). Elements and images are rows and columns of the graph of pairs. A row
or column states that some of its pairs are in the relation, or at most one; that the relation does
not descend is said of two pairs at a time.
-/

namespace Clausal

/-! ## Lists of literals with given values -/

theorem countP_le_one_iff {keys : List Nat} (hkeys : keys.Nodup) (p : Nat → Bool) :
    keys.countP p ≤ 1 ↔ ∀ k ∈ keys, ∀ k' ∈ keys, p k = true → p k' = true → k = k' := by
  induction keys with
  | nil => simp
  | cons key keys ih =>
    obtain ⟨hkey, htail⟩ := List.nodup_cons.mp hkeys
    rw [List.countP_cons]
    by_cases hp : p key = true
    · have hzero : keys.countP p + (if p key = true then 1 else 0) ≤ 1 ↔ keys.countP p = 0 := by
        rw [if_pos hp]
        omega
      rw [hzero, List.countP_eq_zero]
      constructor
      · intro hnone k hk k' hk' hpk hpk'
        rcases List.mem_cons.mp hk with rfl | hk
        · rcases List.mem_cons.mp hk' with rfl | hk'
          · rfl
          · exact absurd hpk' (hnone k' hk')
        · exact absurd hpk (hnone k hk)
      · intro hone k hk hpk
        have heq := hone key List.mem_cons_self k (List.mem_cons_of_mem _ hk) hp hpk
        exact hkey (heq ▸ hk)
    · rw [if_neg hp, Nat.add_zero, ih htail]
      constructor
      · intro hone k hk k' hk' hpk hpk'
        have hk := (List.mem_cons.mp hk).resolve_left fun heq => hp (heq ▸ hpk)
        have hk' := (List.mem_cons.mp hk').resolve_left fun heq => hp (heq ▸ hpk')
        exact hone k hk k' hk' hpk hpk'
      · intro hone k hk k' hk'
        exact hone k (List.mem_cons_of_mem _ hk) k' (List.mem_cons_of_mem _ hk')

section Keys

variable {ν : Valuation} {lits : List Lit} {keys : List Nat} {value : Nat → Bool}

theorem Clause.holds_iff_of_map_eq (h : lits.map (·.holds ν) = keys.map value) :
    Clause.holds lits ν = true ↔ ∃ k ∈ keys, value k = true := by
  have hany : Clause.holds lits ν = (keys.map value).any id := by
    rw [← h, List.any_map]
    rfl
  rw [hany, List.any_map, List.any_eq_true]
  rfl

theorem countTrue_le_one_iff_of_map_eq (hkeys : keys.Nodup)
    (h : lits.map (·.holds ν) = keys.map value) : countTrue ν lits ≤ 1 ↔
      ∀ k ∈ keys, ∀ k' ∈ keys, value k = true → value k' = true → k = k' := by
  have hcount : countTrue ν lits = (keys.map value).countP id := by
    rw [← h, List.countP_map, countTrue_eq_countP]
    rfl
  rw [hcount, List.countP_map]
  exact countP_le_one_iff hkeys value

end Keys

theorem mem_descents {vs ws : List Nat} (hws : ws.Pairwise (· < ·)) {e : Nat × Nat} :
    e ∈ descents vs ws ↔ e.1 ∈ vs ∧ e.2 ∈ ws ∧ e.2 < e.1 := by
  induction vs with
  | nil => simp [descents]
  | cons v vs ih =>
    rw [descents, List.mem_append, ih, takeWhile_lt_eq_filter hws, List.mem_cons]
    constructor
    · rintro (hmem | ⟨hv, hrest⟩)
      · obtain ⟨w, hw, rfl⟩ := List.mem_map.mp hmem
        obtain ⟨hw, hlt⟩ := List.mem_filter.mp hw
        exact ⟨Or.inl rfl, hw, of_decide_eq_true hlt⟩
      · exact ⟨Or.inr hv, hrest⟩
    · rintro ⟨hv | hv, hw, hlt⟩
      · left
        refine List.mem_map.mpr ⟨e.2, List.mem_filter.mpr ⟨hw, ?_⟩, ?_⟩
        · rw [← hv]
          exact decide_eq_true hlt
        · rw [← hv]
      · exact Or.inr ⟨hv, hw, hlt⟩

namespace UnaryMapping

open Request (Expresses)

/-! ## Rows and columns -/

section Lines

variable {xs all : List Nat} {lits : Nat → Except Error (List Lit)} {keys : Nat → List Nat}
  {value : Valuation → Nat → Nat → Bool}

/-- A line is the list of the literals at one vertex, whose other ends are its keys. Nothing else is
true at the vertex. One clause for each line states that something is. -/
theorem expresses_some
    (h : ∀ x ∈ xs, ∃ ls, lits x = .ok ls ∧ ∀ ν, ls.map (·.holds ν) = (keys x).map (value ν x))
    (hvalue : ∀ ν x k, value ν x k = true → k ∈ keys x ∧ k ∈ all) :
    Expresses (xs.map fun x => (lits x).map .clause) fun ν =>
      ∀ x ∈ xs, ∃ k ∈ all, value ν x k = true := by
  apply Expresses.map
  intro x hx
  obtain ⟨ls, hls, hvalues⟩ := h x hx
  refine ⟨.clause ls, ?_, fun ν => ?_⟩
  · rw [hls]
    rfl
  · refine (Clause.holds_iff_of_map_eq (hvalues ν)).trans ?_
    constructor
    · rintro ⟨k, -, hk⟩
      exact ⟨k, (hvalue ν x k hk).2, hk⟩
    · rintro ⟨k, -, hk⟩
      exact ⟨k, (hvalue ν x k hk).1, hk⟩

theorem expresses_atMostOne (hkeys : ∀ x, (keys x).Nodup)
    (h : ∀ x ∈ xs, ∃ ls, lits x = .ok ls ∧ ∀ ν, ls.map (·.holds ν) = (keys x).map (value ν x))
    (hvalue : ∀ ν x k, value ν x k = true → k ∈ keys x ∧ k ∈ all) :
    Expresses (xs.map fun x => (lits x).map (.linear · .le 1)) fun ν => ∀ x ∈ xs,
      ∀ k ∈ all, ∀ k' ∈ all, value ν x k = true → value ν x k' = true → k = k' := by
  apply Expresses.map
  intro x hx
  obtain ⟨ls, hls, hvalues⟩ := h x hx
  refine ⟨.linear ls .le 1, ?_, fun ν => ?_⟩
  · rw [hls]
    rfl
  · have hcount : (Request.linear ls .le 1).Holds ν ↔ countTrue ν ls ≤ 1 := by
      show (countTrue ν ls : Int) ≤ 1 ↔ _
      omega
    rw [hcount, countTrue_le_one_iff_of_map_eq (hkeys x) (hvalues ν)]
    constructor
    · intro hone k _ k' _ hk hk'
      exact hone k (hvalue ν x k hk).1 k' (hvalue ν x k' hk').1 hk hk'
    · intro hone k _ k' _ hk hk'
      exact hone k (hvalue ν x k hk).2 k' (hvalue ν x k' hk').2 hk hk'

end Lines

/-! ## Pairs -/

/-- The relation of the pairs whose variables are true. -/
def Relates (f : UnaryMapping) (ν : Valuation) (u v : Nat) : Prop :=
  (VarGroup.unary f).truth ν [u, v] = true

/-- No pair of the first row and no pair of the second one that descends from it are both related. -/
def NoDescent (f : UnaryMapping) (ν : Valuation) (first second : Nat × List Nat) : Prop :=
  ∀ d ∈ descents first.2 second.2, ¬ (f.Relates ν first.1 d.1 ∧ f.Relates ν second.1 d.2)

variable {f : UnaryMapping} {ν : Valuation} {u v : Nat}

theorem mem_domain : u ∈ f.domain ↔ 1 ≤ u ∧ u ≤ f.pairs.graph.leftOrder := by
  rw [domain, domainSize, List.mem_range'_1]
  omega

theorem mem_range : v ∈ f.range ↔ 1 ≤ v ∧ v ≤ f.pairs.graph.rightOrder := by
  rw [range, rangeSize, List.mem_range'_1]
  omega

theorem mem_edges_of_evaluate {l : Lit} (h : f.pairs.evaluate [u, v] = .ok l) :
    (u, v) ∈ f.pairs.graph.edges := by
  by_contra hedge
  have hfail := BipartiteEdges.edgeLit_of_not_mem hedge
  have hlit : f.pairs.edgeLit u v = .ok l := h
  rw [hlit] at hfail
  cases hfail

theorem truth_of_evaluate {l : Lit} (h : f.pairs.evaluate [u, v] = .ok l) (ν : Valuation) :
    (VarGroup.unary f).truth ν [u, v] = l.holds ν := by
  have hevaluate : (VarGroup.unary f).evaluate [u, v] = .ok l := h
  exact VarGroup.truth_of_evaluate hevaluate ν

theorem map_holds_of_mapM {pairs : List (Nat × Nat)} {lits : List Lit}
    (h : pairs.mapM (fun e => f.pairs.edgeLit e.1 e.2) = .ok lits) (ν : Valuation) :
    lits.map (·.holds ν) = pairs.map fun e => (VarGroup.unary f).truth ν [e.1, e.2] := by
  induction pairs generalizing lits with
  | nil =>
    cases h
    rfl
  | cons e pairs ih =>
    rw [List.mapM_cons] at h
    obtain ⟨l, hl, h⟩ := Except.bind_eq_ok_iff.mp h
    obtain ⟨rest, hrest, h⟩ := Except.bind_eq_ok_iff.mp h
    cases h
    rw [List.map_cons, List.map_cons, ih hrest, truth_of_evaluate hl]

section LaidOut

variable (h : f.pairs.LaidOut)

include h

theorem evaluate_eq_ok_iff :
    (∃ l, f.pairs.evaluate [u, v] = .ok l) ↔ (u, v) ∈ f.pairs.graph.edges := by
  constructor
  · rintro ⟨l, hl⟩
    exact mem_edges_of_evaluate hl
  · intro hedge
    obtain ⟨j, hj⟩ := List.mem_iff_getElem?.mp (BipartiteGraph.mem_edges.mp hedge)
    exact ⟨_, h.edgeLit_of_row hj⟩

theorem mem_of_relates (hrel : f.Relates ν u v) :
    (u ∈ f.domain ∧ v ∈ f.rangeOf u) ∧ v ∈ f.range ∧ u ∈ f.domainOf v := by
  obtain ⟨l, hl, -⟩ := VarGroup.truth_eq_true_iff.mp hrel
  have hedge := mem_edges_of_evaluate hl
  have hrow : v ∈ f.pairs.graph.rightNeighbors u := BipartiteGraph.mem_edges.mp hedge
  obtain ⟨hu, hv⟩ := h.mem_ranges hedge
  exact ⟨⟨hu, hrow⟩, hv, (h.wellFormed.mem_iff u v).mp hrow⟩

theorem exists_row (hu : u ∈ f.domain) : ∃ lits, f.row u = .ok lits ∧ ∀ ν,
    lits.map (·.holds ν) = (f.rangeOf u).map fun v => (VarGroup.unary f).truth ν [u, v] := by
  refine ⟨(f.pairs.rowIds u).map .positive, ?_, fun ν => ?_⟩
  · show f.pairs.litsAt (some u) none = _
    rw [BipartiteEdges.litsAt, BipartiteGraph.checkLeft_eq_ok_iff.mpr (mem_domain.mp hu)]
    rfl
  · rw [map_holds_of_mapM (h.mapM_row u), List.map_map]
    rfl

theorem exists_column (hv : v ∈ f.range) : ∃ lits, f.column v = .ok lits ∧ ∀ ν,
    lits.map (·.holds ν) = (f.domainOf v).map fun u => (VarGroup.unary f).truth ν [u, v] := by
  have hrange := mem_range.mp hv
  refine ⟨(f.pairs.columnIds v).map .positive, ?_, fun ν => ?_⟩
  · show f.pairs.litsAt none (some v) = _
    rw [BipartiteEdges.litsAt, BipartiteGraph.checkRight_eq_ok_iff.mpr hrange]
    rfl
  · rw [map_holds_of_mapM (h.mapM_column hrange), List.map_map]
    rfl

/-! ## Properties -/

theorem expresses_complete : Expresses (f.requests .complete) fun ν =>
    MappingProperty.complete.Holds f.domain f.range (f.Relates ν) := by
  apply expresses_some fun u hu => exists_row h hu
  intro ν u v hrel
  exact ⟨(mem_of_relates h hrel).1.2, (mem_of_relates h hrel).2.1⟩

theorem expresses_functional : Expresses (f.requests .functional) fun ν =>
    MappingProperty.functional.Holds f.domain f.range (f.Relates ν) := by
  have hnodup : ∀ u, (f.rangeOf u).Nodup := fun u =>
    (h.wellFormed.right_sorted u).imp Nat.ne_of_lt
  apply expresses_atMostOne hnodup fun u hu => exists_row h hu
  intro ν u v hrel
  exact ⟨(mem_of_relates h hrel).1.2, (mem_of_relates h hrel).2.1⟩

theorem expresses_surjective : Expresses (f.requests .surjective) fun ν =>
    MappingProperty.surjective.Holds f.domain f.range (f.Relates ν) := by
  apply expresses_some fun v hv => exists_column h hv
  intro ν v u hrel
  exact ⟨(mem_of_relates h hrel).2.2, (mem_of_relates h hrel).1.1⟩

theorem expresses_injective : Expresses (f.requests .injective) fun ν =>
    MappingProperty.injective.Holds f.domain f.range (f.Relates ν) := by
  have hnodup : ∀ v, (f.domainOf v).Nodup := fun v =>
    (h.wellFormed.left_sorted v).imp Nat.ne_of_lt
  apply expresses_atMostOne hnodup fun v hv => exists_column h hv
  intro ν v u hrel
  exact ⟨(mem_of_relates h hrel).2.2, (mem_of_relates h hrel).1.1⟩

theorem exists_exclude {u' v' : Nat} (hedge : (u, v) ∈ f.pairs.graph.edges)
    (hedge' : (u', v') ∈ f.pairs.graph.edges) : ∃ request, f.exclude u v u' v' = .ok request ∧
      ∀ ν, request.Holds ν ↔ ¬ (f.Relates ν u v ∧ f.Relates ν u' v') := by
  obtain ⟨l, hl⟩ := (evaluate_eq_ok_iff h).mpr hedge
  obtain ⟨l', hl'⟩ := (evaluate_eq_ok_iff h).mpr hedge'
  refine ⟨.clause [l.flip, l'.flip], ?_, fun ν => ?_⟩
  · rw [exclude, hl, hl']
    rfl
  · rw [Relates, Relates, truth_of_evaluate hl, truth_of_evaluate hl']
    show Clause.holds [l.flip, l'.flip] ν = true ↔ _
    rw [Clause.holds, List.any_cons, List.any_cons, List.any_nil, Lit.holds_flip, Lit.holds_flip]
    cases l.holds ν <;> cases l'.holds ν <;> simp

theorem expresses_noDescent {first : Nat × List Nat} {later : List (Nat × List Nat)}
    (hfirst : first ∈ f.rows) (hlater : ∀ second ∈ later, second ∈ f.rows) :
    Expresses (later.flatMap fun second =>
        (descents first.2 second.2).map fun d => f.exclude first.1 d.1 second.1 d.2)
      fun ν => ∀ second ∈ later, f.NoDescent ν first second := by
  apply Expresses.flatMap
  intro second hsecond
  apply Expresses.map
  intro d hd
  obtain ⟨u, -, rfl⟩ := List.mem_map.mp hfirst
  obtain ⟨u', -, rfl⟩ := List.mem_map.mp (hlater second hsecond)
  obtain ⟨hv, hv', -⟩ := (mem_descents (h.wellFormed.right_sorted u')).mp hd
  exact exists_exclude h (BipartiteGraph.mem_edges.mpr hv) (BipartiteGraph.mem_edges.mpr hv')

/-- A row without an image above 1 has nothing to descend from. -/
theorem noDescent_of_small {first second : Nat × List Nat} (hsecond : second ∈ f.rows)
    (hsmall : ¬ first.2.any (1 < ·) = true) (ν : Valuation) : f.NoDescent ν first second := by
  intro d hd
  obtain ⟨u', -, rfl⟩ := List.mem_map.mp hsecond
  obtain ⟨hv, hv', hlt⟩ := (mem_descents (h.wellFormed.right_sorted u')).mp hd
  have hpos := (h.wellFormed.range_of_mem hv').2.1
  refine absurd (List.any_eq_true.mpr ⟨d.1, hv, ?_⟩) hsmall
  exact decide_eq_true (by omega)

theorem noDescent_iff {u' : Nat} :
    f.NoDescent ν (u, f.rangeOf u) (u', f.rangeOf u') ↔ ∀ v ∈ f.range, ∀ v' ∈ f.range,
      f.Relates ν u v → f.Relates ν u' v' → v ≤ v' := by
  have hdescents : ∀ d : Nat × Nat, d ∈ descents (f.rangeOf u) (f.rangeOf u') ↔ _ := fun d =>
    mem_descents (h.wellFormed.right_sorted u')
  constructor
  · intro hnone v _ v' _ hrel hrel'
    by_contra hlt
    refine hnone (v, v') ((hdescents _).mpr ⟨?_, ?_, by omega⟩) ⟨hrel, hrel'⟩
    · exact (mem_of_relates h hrel).1.2
    · exact (mem_of_relates h hrel').1.2
  · rintro hle d hd ⟨hrel, hrel'⟩
    have hlt := ((hdescents d).mp hd).2.2
    have := hle d.1 (mem_of_relates h hrel).2.1 d.2 (mem_of_relates h hrel').2.1 hrel hrel'
    omega

theorem expresses_nondecreasing : Expresses (f.requests .nondecreasing) fun ν =>
    MappingProperty.nondecreasing.Holds f.domain f.range (f.Relates ν) := by
  have hrows : ∀ e ∈ suffixes f.rows, e.1 ∈ f.rows ∧ ∀ second ∈ e.2, second ∈ f.rows := by
    intro e he
    have hsuffix := (mem_suffixes.mp he).subset
    exact ⟨hsuffix List.mem_cons_self, fun second hmem => hsuffix (List.mem_cons_of_mem _ hmem)⟩
  have hrequests : Expresses (f.requests .nondecreasing) fun ν =>
      ∀ e ∈ (suffixes f.rows).filter (fun e => e.1.2.any (1 < ·)),
        ∀ second ∈ e.2, f.NoDescent ν e.1 second := by
    apply Expresses.flatMap
    intro e he
    have hmem := hrows e (List.mem_filter.mp he).1
    exact expresses_noDescent h hmem.1 hmem.2
  apply hrequests.congr
  intro ν
  -- the rows that are left out have nothing to descend from
  have hall : (∀ e ∈ (suffixes f.rows).filter (fun e => e.1.2.any (1 < ·)),
      ∀ second ∈ e.2, f.NoDescent ν e.1 second) ↔
        ∀ e ∈ suffixes f.rows, ∀ second ∈ e.2, f.NoDescent ν e.1 second := by
    constructor
    · intro hlarge e he second hsecond
      by_cases hany : e.1.2.any (1 < ·) = true
      · exact hlarge e (List.mem_filter.mpr ⟨he, hany⟩) second hsecond
      · exact noDescent_of_small h ((hrows e he).2 second hsecond) hany ν
    · intro hsome e he
      exact hsome e (List.mem_filter.mp he).1
  have hdomain : f.domain.Pairwise (· < ·) := List.pairwise_lt_range' 1
  rw [hall, forall_mem_suffixes, rows, List.pairwise_map, pairwise_iff_of_increasing hdomain]
  apply forall₂_congr
  intro u _
  apply forall₂_congr
  intro u' _
  exact imp_congr_right fun _ => noDescent_iff h

theorem expresses_property (property : MappingProperty) :
    Expresses (f.requests property) fun ν => property.Holds f.domain f.range (f.Relates ν) := by
  cases property with
  | complete => exact expresses_complete h
  | functional => exact expresses_functional h
  | surjective => exact expresses_surjective h
  | injective => exact expresses_injective h
  | nondecreasing => exact expresses_nondecreasing h

end LaidOut

/-! ## Created mappings -/

theorem create_laidOut {start : Nat} {graph : BipartiteGraph} {label : Option String}
    (hgraph : graph.WellFormed) (h : create start graph label = .ok f) :
    f.pairs.LaidOut ∧ f.pairs.graph = graph := by
  obtain ⟨pairs, hpairs, rfl⟩ := Except.map_eq_ok_iff.mp h
  exact BipartiteEdges.create_laidOut hgraph hpairs

/-- **The constraints of a property hold exactly when the relation of the true pairs has it.** The
pairs of the relation are edges of the graph, each of which has a variable. All constraints of a
property can be added to every collector, whatever the graph and the collector hold. -/
theorem requests_state_property {graph : BipartiteGraph} {start : Nat} {label : Option String}
    (hgraph : graph.Reachable) (h : create start graph label = .ok f)
    (property : MappingProperty) :
    (∀ u v, (∃ l, f.pairs.evaluate [u, v] = .ok l) ↔ (u, v) ∈ graph.edges) ∧
    Collector.Stated (f.requests property) fun ν =>
      property.Holds (List.range' 1 graph.leftOrder) (List.range' 1 graph.rightOrder) fun u v =>
        (VarGroup.unary f).truth ν [u, v] = true := by
  obtain ⟨hlaid, rfl⟩ := create_laidOut (BipartiteGraph.wellFormed_of_reachable hgraph) h
  refine ⟨fun u v => evaluate_eq_ok_iff hlaid, (expresses_property hlaid property).stated ?_⟩
  intro request hmem
  exact Mapping.stateable_of_mem_requests (f := .unary f) hmem

/-- Left vertex 2 has no edges. -/
def isolated : BipartiteGraph :=
  ((BipartiteGraph.empty 3 2).addEdges [(1, 1), (1, 2), (3, 1), (3, 2)]).2

theorem requests_state_property_isolated : ∃ f, create 5 isolated none = .ok f ∧
    f.requests .nondecreasing = [.ok (.clause [.negative 6, .negative 7])] ∧
    ∀ ν : Valuation, (ν 6 = false ∨ ν 7 = false) ↔
      MappingProperty.nondecreasing.Holds [1, 2, 3] [1, 2] fun u v =>
        (VarGroup.unary f).truth ν [u, v] = true := by
  obtain ⟨f, hf, hrequests⟩ : ∃ f, create 5 isolated none = .ok f ∧
      f.requests .nondecreasing = [.ok (.clause [.negative 6, .negative 7])] := by
    refine ⟨⟨⟨⟨5, 4⟩, isolated, #[5, 7, 7], #[[5, 7], [6, 8]],
      ⟨[.char 'f', .char '(', .argument 0, .char ')', .char '=', .argument 1]⟩⟩⟩, ?_, ?_⟩
    · decide +kernel
    · decide +kernel
  refine ⟨f, hf, hrequests, fun ν => ?_⟩
  have hgraph : isolated.Reachable := BipartiteGraph.Reachable.addEdges _ (.empty 3 2)
  obtain ⟨-, hstated⟩ := requests_state_property hgraph hf .nondecreasing
  obtain ⟨added, hadded, hholds⟩ := hstated.list []
  rw [hrequests] at hadded
  cases hadded
  refine Iff.trans ?_ (hholds ν)
  show _ ↔ ∀ c ∈ [[Lit.negative 6, Lit.negative 7]], Clause.holds c ν = true
  rw [List.forall_mem_singleton]
  cases h6 : ν 6 <;> cases h7 : ν 7 <;> simp [Clause.holds, Lit.holds, Lit.negative, h6, h7]

end UnaryMapping

end Clausal
