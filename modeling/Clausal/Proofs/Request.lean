import Clausal.Proofs.Store

/-!
# What lists of requests state

A list of requests, each of which may be one that cannot be built, `Expresses` a property of
valuations if all of them can be built and together they state the property. What a list expresses
is put together in the way the list is, by `map` and `flatMap`.

Nothing stops a collector that is given such a list. It keeps what it holds, and what it adds says
what the list expresses, in constraints of its own kind (`Expresses.stated`).
-/

namespace Clausal

namespace Request

/-! ## Requests that can be built -/

theorem mem_of_mem_untilFailure {request : Request} {requests : List (Except Error Request)}
    (h : request ∈ (untilFailure requests).1) : .ok request ∈ requests := by
  induction requests with
  | nil => cases h
  | cons first rest ih =>
    cases first with
    | error e => cases h
    | ok built =>
      rcases List.mem_cons.mp h with rfl | hrest
      · exact List.mem_cons_self
      · exact List.mem_cons_of_mem _ (ih hrest)

/-- Nothing is left out where nothing fails. -/
theorem untilFailure_of_built {requests : List (Except Error Request)}
    (h : ∀ result ∈ requests, ∃ request, result = .ok request) :
    (untilFailure requests).2 = .ok () ∧
      ∀ request, request ∈ (untilFailure requests).1 ↔ .ok request ∈ requests := by
  induction requests with
  | nil => simp [untilFailure]
  | cons first rest ih =>
    obtain ⟨built, rfl⟩ := h first List.mem_cons_self
    have hrest := ih fun result hmem => h result (List.mem_cons_of_mem _ hmem)
    refine ⟨hrest.1, fun request => ?_⟩
    rw [untilFailure, List.mem_cons, List.mem_cons, hrest.2, Except.ok.injEq]

theorem untilFailure_map_ok (requests : List Request) :
    untilFailure (requests.map .ok) = (requests, .ok ()) := by
  induction requests with
  | nil => rfl
  | cons request rest ih => rw [List.map_cons, untilFailure, ih]

theorem clauses_holds_iff {request : Request} (h : request.Stateable) (ν : Valuation) :
    (∀ c ∈ request.clauses, Clause.holds c ν = true) ↔ request.Holds ν := by
  cases request with
  | clause c => exact List.forall_mem_singleton
  | linear lits rel bound => exact Cardinality.clauses_holds_iff_of_stateable h ν

/-! ## Lists of requests -/

/-- All requests of a list can be built, and together they state a property of valuations. -/
structure Expresses (requests : List (Except Error Request)) (meaning : Valuation → Prop) :
    Prop where
  built : ∀ result ∈ requests, ∃ request, result = .ok request
  holds_iff (ν : Valuation) :
    (∀ request, .ok request ∈ requests → request.Holds ν) ↔ meaning ν

namespace Expresses

variable {α : Type} {xs : List α} {P : α → Valuation → Prop}

theorem nil : Expresses [] fun _ => True where
  built := by simp
  holds_iff := by simp

theorem congr {requests : List (Except Error Request)} {meaning meaning' : Valuation → Prop}
    (h : Expresses requests meaning) (hmeaning : ∀ ν, meaning ν ↔ meaning' ν) :
    Expresses requests meaning' where
  built := h.built
  holds_iff ν := (h.holds_iff ν).trans (hmeaning ν)

theorem map {f : α → Except Error Request}
    (h : ∀ x ∈ xs, ∃ request, f x = .ok request ∧ ∀ ν, request.Holds ν ↔ P x ν) :
    Expresses (xs.map f) fun ν => ∀ x ∈ xs, P x ν where
  built := by
    intro result hresult
    obtain ⟨x, hx, rfl⟩ := List.mem_map.mp hresult
    obtain ⟨request, hrequest, -⟩ := h x hx
    exact ⟨request, hrequest⟩
  holds_iff := by
    intro ν
    constructor
    · intro hall x hx
      obtain ⟨request, hrequest, hholds⟩ := h x hx
      apply (hholds ν).mp
      apply hall
      exact List.mem_map.mpr ⟨x, hx, hrequest⟩
    · intro hall request hmem
      obtain ⟨x, hx, hrequest⟩ := List.mem_map.mp hmem
      obtain ⟨built, hbuilt, hholds⟩ := h x hx
      cases hrequest.symm.trans hbuilt
      exact (hholds ν).mpr (hall x hx)

theorem flatMap {f : α → List (Except Error Request)} (h : ∀ x ∈ xs, Expresses (f x) (P x)) :
    Expresses (xs.flatMap f) fun ν => ∀ x ∈ xs, P x ν where
  built := by
    intro result hresult
    obtain ⟨x, hx, hmem⟩ := List.mem_flatMap.mp hresult
    exact (h x hx).built result hmem
  holds_iff := by
    intro ν
    constructor
    · intro hall x hx
      apply ((h x hx).holds_iff ν).mp
      intro request hmem
      exact hall request (List.mem_flatMap.mpr ⟨x, hx, hmem⟩)
    · intro hall request hmem
      obtain ⟨x, hx, hmem⟩ := List.mem_flatMap.mp hmem
      exact ((h x hx).holds_iff ν).mpr (hall x hx) request hmem

end Expresses

end Request

/-! ## Collectors -/

namespace Collector

/-- Every collector can add all of a list of requests. It keeps what it holds in front, and what it
adds is satisfied exactly by the valuations with a property. -/
structure Stated (requests : List (Except Error Request)) (meaning : Valuation → Prop) : Prop where
  list (before : List Clause) : ∃ added, addAll before requests = (.ok (), before ++ added) ∧
    ∀ ν, (∀ c ∈ added, Clause.holds c ν = true) ↔ meaning ν
  cnf (before : Cnf) : ∃ added after, addAll before requests = (.ok (), after) ∧
    after.constraints = before.constraints ++ added ∧
    ∀ ν, (∀ c ∈ added, Clause.holds c ν = true) ↔ meaning ν
  opb (before : Opb) : ∃ added after, addAll before requests = (.ok (), after) ∧
    after.constraints = before.constraints ++ added ∧
    ∀ ν, (∀ c ∈ added, PbConstraint.Holds c ν) ↔ meaning ν

/-- Every collector can add all of a list of requests. It keeps what it holds in front, and adds one
constraint for each of some clauses. -/
structure Adds (requests : List (Except Error Request)) (clauses : List Clause) : Prop where
  list (before : List Clause) : addAll before requests = (.ok (), before ++ clauses)
  cnf (before : Cnf) : ∃ after, addAll before requests = (.ok (), after) ∧
    after.constraints = before.constraints ++ clauses
  opb (before : Opb) : ∃ after, addAll before requests = (.ok (), after) ∧
    after.constraints = before.constraints ++ clauses.map PbConstraint.ofClause

theorem adds_clauses (clauses : List Clause) :
    Adds ((clauses.map Request.clause).map .ok) clauses := by
  have hadd : ∀ {C : Type} [Collector C] (before : C),
      addAll before ((clauses.map Request.clause).map .ok) =
        (.ok (), addClauses before clauses) := by
    intro C _ before
    rw [addAll, Request.untilFailure_map_ok]
    rfl
  constructor
  · intro before
    rw [hadd, addClauses_list]
  · intro before
    exact ⟨_, hadd before, constraints_addClauses_cnf clauses before⟩
  · intro before
    exact ⟨_, hadd before, constraints_addClauses_opb clauses before⟩

end Collector

namespace Request.Expresses

variable {requests : List (Except Error Request)} {meaning : Valuation → Prop}

theorem forall_built (h : Expresses requests meaning) (ν : Valuation) :
    (∀ request ∈ (untilFailure requests).1, request.Holds ν) ↔ meaning ν := by
  rw [← h.holds_iff ν]
  exact forall_congr' fun request => imp_congr_left ((untilFailure_of_built h.built).2 request)

theorem addAll_eq {C : Type} [Collector C] (h : Expresses requests meaning) (before : C) :
    Collector.addAll before requests =
      (.ok (), Collector.add before (untilFailure requests).1) := by
  show ((untilFailure requests).2, _) = _
  rw [(untilFailure_of_built h.built).1]

variable (h : Expresses requests meaning)
  (hstateable : ∀ request, .ok request ∈ requests → request.Stateable)

include h hstateable

theorem forall_clauses (ν : Valuation) :
    (∀ c ∈ (untilFailure requests).1.flatMap Request.clauses, Clause.holds c ν = true) ↔
      meaning ν := by
  rw [← h.forall_built ν, List.forall_mem_flatMap]
  refine forall₂_congr fun request hmem => clauses_holds_iff ?_ ν
  exact hstateable request (mem_of_mem_untilFailure hmem)

theorem stated : Collector.Stated requests meaning where
  list before := ⟨_, h.addAll_eq before, h.forall_clauses hstateable⟩
  cnf before := by
    refine ⟨_, _, h.addAll_eq before, ?_, h.forall_clauses hstateable⟩
    have hclauses := Collector.constraints_addClauses_cnf
      ((untilFailure requests).1.flatMap Request.clauses) before
    rw [← hclauses, Collector.addClauses]
    show (before.collect _).constraints = (before.collect _).constraints
    rw [flatMap_clauses]
  opb before := by
    refine ⟨_, _, h.addAll_eq before, Store.constraints_collect before _, fun ν => ?_⟩
    rw [← h.forall_built ν, List.forall_mem_flatMap]
    refine forall₂_congr fun request hmem => Constraint.holds_ofRequest ?_ ν
    exact hstateable request (mem_of_mem_untilFailure hmem)

theorem store_holds_iff {K : Type} [Constraint K] [LawfulConstraint K] (s : Store K)
    (ν : Valuation) : (s.collect (untilFailure requests).1).Holds ν ↔ s.Holds ν ∧ meaning ν := by
  rw [Store.holds_collect, h.forall_built]
  intro request hmem
  exact hstateable request (mem_of_mem_untilFailure hmem)

end Request.Expresses

end Clausal
