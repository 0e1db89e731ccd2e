import Clausal.Graph.Adjacency
import Clausal.Proofs.Outcome
import Mathlib.Data.List.Basic
import Mathlib.Data.List.TakeWhile
import Mathlib.Data.Prod.Lex

/-!
# Graphs that are built edge by edge

What graphs of all kinds have in common. A call adds the edges that it lists up to the first pair
that no edge can join, so a graph after any calls is the one at the start with these pairs inserted
one after the other (`GraphKind.runAll_eq_insertAll`). An invariant of a single insertion therefore
holds after all calls (`GraphKind.Invariant.kept`).
-/

namespace Clausal

/-- What graphs of a kind offer. Edges are added after a check that does not look at other edges,
and several edges are added up to the first one that is refused. -/
class GraphKind (G : Type) where
  /-- The vertices that edges from a vertex lead to. -/
  forward : G → Nat → List Nat
  /-- The vertices that edges to a vertex come from. -/
  backward : G → Nat → List Nat
  hasEdge : G → Nat → Nat → Bool
  edges : G → List (Nat × Nat)
  edgeCount : G → Nat
  /-- Whether an edge can join the two. -/
  joinable : G → Nat × Nat → Bool
  /-- Whether two pairs are the same edge. -/
  Same : Nat × Nat → Nat × Nat → Prop
  checkEdge : G → Nat → Nat → Except Error Unit
  insertEdge : G → Nat → Nat → G
  addEdge : G → Nat → Nat → Except Error (Bool × G)
  addEdges : G → List (Nat × Nat) → Except Error Unit × G
  checkEdge_eq_ok_iff {g : G} {u v : Nat} : checkEdge g u v = .ok () ↔ joinable g (u, v) = true
  joinable_insertEdge (g : G) (u v : Nat) : joinable (insertEdge g u v) = joinable g
  addEdge_eq (g : G) (u v : Nat) :
    addEdge g u v = (checkEdge g u v).map fun _ => (!hasEdge g u v, insertEdge g u v)
  addEdges_eq (g : G) (es : List (Nat × Nat)) : addEdges g es =
    changeEach (fun g e => checkEdge g e.1 e.2) (fun g e => insertEdge g e.1 e.2) g es

/-- A call that adds one edge, or several. -/
inductive EdgeCall
  | one (u v : Nat)
  | many (edges : List (Nat × Nat))

/-- The edges that a call asks for. -/
def EdgeCall.edges : EdgeCall → List (Nat × Nat)
  | one u v => [(u, v)]
  | many edges => edges

namespace GraphKind

variable {G : Type} [GraphKind G] {g start : G} {u v : Nat} {e : Nat × Nat} {es : List (Nat × Nat)}

/-- Increasing neighbors that edges can lead to, the same edges forward and backward, and every edge
listed and counted once. -/
structure WellFormed (g : G) : Prop where
  forward_sorted (u : Nat) : (forward g u).Pairwise (· < ·)
  backward_sorted (v : Nat) : (backward g v).Pairwise (· < ·)
  joinable_of_mem {u v : Nat} : v ∈ forward g u → joinable g (u, v) = true
  mem_iff (u v : Nat) : v ∈ forward g u ↔ u ∈ backward g v
  hasEdge_iff_mem (u v : Nat) : hasEdge g u v = true ↔ v ∈ forward g u
  hasEdge_iff_edges (u v : Nat) : hasEdge g u v = true ↔ ∃ e ∈ edges g, Same G e (u, v)
  edges_sorted : (edges g).Pairwise (Prod.Lex (· < ·) (· < ·))
  edgeCount_eq : edgeCount g = (edges g).length

/-! ## Calls -/

/-- The graph after a call. A call for one edge that fails makes no graph. -/
def run (g : G) : EdgeCall → G
  | .one u v =>
    match addEdge g u v with
    | .ok (_, g') => g'
    | .error _ => g
  | .many es => (addEdges g es).2

def runAll (g : G) (calls : List EdgeCall) : G := calls.foldl run g

theorem runAll_append (g : G) (calls calls' : List EdgeCall) :
    runAll g (calls ++ calls') = runAll (runAll g calls) calls' := List.foldl_append

theorem runAll_concat (g : G) (calls : List EdgeCall) (call : EdgeCall) :
    runAll g (calls ++ [call]) = run (runAll g calls) call := runAll_append g calls [call]

/-- The edges of a call before the first one that is refused. -/
def accepted (g : G) (call : EdgeCall) : List (Nat × Nat) := call.edges.takeWhile (joinable g)

/-- The graph after all pairs have been inserted, one after the other. -/
def insertAll (g : G) (es : List (Nat × Nat)) : G := es.foldl (fun g e => insertEdge g e.1 e.2) g

theorem insertAll_append (g : G) (es es' : List (Nat × Nat)) :
    insertAll g (es ++ es') = insertAll (insertAll g es) es' := List.foldl_append

theorem joinable_insertAll (g : G) (es : List (Nat × Nat)) :
    joinable (insertAll g es) = joinable g := by
  induction es generalizing g with
  | nil => rfl
  | cons e es ih => exact (ih _).trans (joinable_insertEdge g e.1 e.2)

theorem addEdge_of_joinable (h : joinable g (u, v) = true) :
    addEdge g u v = .ok (!hasEdge g u v, insertEdge g u v) := by
  rw [addEdge_eq, checkEdge_eq_ok_iff.mpr h, Except.map_ok]

theorem addEdges_cons_of_joinable (h : joinable g e = true) :
    addEdges g (e :: es) = addEdges (insertEdge g e.1 e.2) es := by
  rw [addEdges_eq, addEdges_eq, changeEach, checkEdge_eq_ok_iff.mpr h]

theorem exists_error (h : joinable g (u, v) = false) : ∃ err, addEdge g u v = .error err ∧
    ∀ es, addEdges g ((u, v) :: es) = (.error err, g) := by
  cases hcheck : checkEdge g u v with
  | ok _ =>
    rw [checkEdge_eq_ok_iff.mp hcheck] at h
    cases h
  | error err =>
    refine ⟨err, by rw [addEdge_eq, hcheck, Except.map_error], fun es => ?_⟩
    rw [addEdges_eq, changeEach, hcheck]

theorem addEdges_snd (g : G) (es : List (Nat × Nat)) :
    (addEdges g es).2 = insertAll g (es.takeWhile (joinable g)) := by
  induction es generalizing g with
  | nil => rw [addEdges_eq]; rfl
  | cons e es ih =>
    cases h : joinable g e with
    | true =>
      rw [addEdges_cons_of_joinable h, ih, joinable_insertEdge, List.takeWhile_cons_of_pos h]
      rfl
    | false =>
      obtain ⟨err, -, herr⟩ := exists_error h
      rw [herr, List.takeWhile_cons_of_neg (by simp [h])]
      rfl

theorem addEdges_fst_eq_ok_iff :
    (addEdges g es).1 = .ok () ↔ ∀ e ∈ es, joinable g e = true := by
  induction es generalizing g with
  | nil => simp [addEdges_eq, changeEach]
  | cons e es ih =>
    cases h : joinable g e with
    | true => simp [addEdges_cons_of_joinable h, ih, joinable_insertEdge, h]
    | false =>
      obtain ⟨err, -, herr⟩ := exists_error h
      simp [herr, h]

theorem run_eq_insertAll (g : G) (call : EdgeCall) :
    run g call = insertAll g (accepted g call) := by
  cases call with
  | one u v =>
    rw [run, accepted, EdgeCall.edges]
    cases h : joinable g (u, v) with
    | true =>
      rw [addEdge_of_joinable h, List.takeWhile_cons_of_pos h]
      rfl
    | false =>
      obtain ⟨err, herr, -⟩ := exists_error h
      rw [herr, List.takeWhile_cons_of_neg (by simp [h])]
      rfl
  | many es => exact addEdges_snd g es

theorem runAll_eq_insertAll (g : G) (calls : List EdgeCall) :
    runAll g calls = insertAll g (calls.flatMap (accepted g)) := by
  induction calls generalizing g with
  | nil => rfl
  | cons call calls ih =>
    -- What later calls can add does not depend on what the first one adds.
    have hjoinable : accepted (run g call) = accepted g := by
      funext c
      rw [accepted, run_eq_insertAll, joinable_insertAll, accepted]
    rw [List.flatMap_cons, insertAll_append, ← run_eq_insertAll, ← hjoinable, ← ih]
    rfl

/-- Edges that are all accepted can as well be added one by one. -/
theorem runAll_one (h : ∀ e ∈ es, joinable g e = true) :
    runAll g (es.map fun e => .one e.1 e.2) = insertAll g es := by
  have hall : (es.map fun e => EdgeCall.one e.1 e.2).flatMap (accepted g) = es := by
    rw [List.flatMap_map]
    refine (List.flatMap_congr fun e he => ?_).trans (List.flatMap_singleton' es)
    rw [accepted, EdgeCall.edges]
    exact List.takeWhile_cons_of_pos (h e he)
  rw [runAll_eq_insertAll, hall]

/-! ## Invariants -/

/-- A property of graphs that insertion keeps, with what it says about them. -/
structure Invariant (P : G → Prop) : Prop where
  wellFormed {g : G} : P g → WellFormed g
  insertEdge {g : G} {u v : Nat} : P g → joinable g (u, v) = true → P (insertEdge g u v)
  hasEdge_insertEdge {g : G} {u v : Nat} : P g → joinable g (u, v) = true → ∀ x y,
    hasEdge (GraphKind.insertEdge g u v) x y = true ↔ hasEdge g x y = true ∨ Same G (u, v) (x, y)

theorem Invariant.insertAll {P : G → Prop} (h : Invariant P) (hg : P g)
    (hes : ∀ e ∈ es, joinable g e = true) : P (insertAll g es) ∧ ∀ x y,
      hasEdge (GraphKind.insertAll g es) x y = true ↔
        hasEdge g x y = true ∨ ∃ e ∈ es, Same G e (x, y) := by
  induction es generalizing g with
  | nil => exact ⟨hg, fun x y => by simp [GraphKind.insertAll]⟩
  | cons e es ih =>
    obtain ⟨he, hes⟩ := List.forall_mem_cons.mp hes
    obtain ⟨hP, hedges⟩ := ih (h.insertEdge hg he) fun e' he' => by
      rw [joinable_insertEdge]
      exact hes e' he'
    refine ⟨hP, fun x y => (hedges x y).trans ?_⟩
    rw [h.hasEdge_insertEdge hg he, List.exists_mem_cons_iff, or_assoc]

/-- What calls keep and what the next one does, from a graph with the edges `initial`. -/
structure Kept (initial : Nat × Nat → Prop) (start : G) (calls : List EdgeCall) : Prop where
  wellFormed : WellFormed (runAll start calls)
  /-- The vertices stay the same. -/
  joinable_eq : joinable (runAll start calls) = joinable start
  /-- The edges are the initial ones and those added before the first refusal of a call. -/
  hasEdge_iff (u v : Nat) : hasEdge (runAll start calls) u v = true ↔
    initial (u, v) ∨ ∃ e ∈ calls.flatMap (accepted start), Same G e (u, v)
  /-- An edge that can join the two is added, and it is said whether it is new. -/
  addEdge_accepted {u v : Nat} : joinable start (u, v) = true →
    addEdge (runAll start calls) u v =
      .ok (!hasEdge (runAll start calls) u v, runAll start (calls ++ [.one u v]))
  /-- Another one is refused, and nothing is added. -/
  addEdge_refused {u v : Nat} : joinable start (u, v) = false → ∃ err,
    addEdge (runAll start calls) u v = .error err ∧
      ∀ es, addEdges (runAll start calls) ((u, v) :: es) = (.error err, runAll start calls)
  addEdges_eq_ok_iff (es : List (Nat × Nat)) :
    (addEdges (runAll start calls) es).1 = .ok () ↔ ∀ e ∈ es, joinable start e = true
  /-- Several edges are added as if one by one, up to the first one that is refused. -/
  addEdges_snd (es : List (Nat × Nat)) : (addEdges (runAll start calls) es).2 =
    runAll start (calls ++ (es.takeWhile (joinable start)).map fun e => .one e.1 e.2)

theorem Invariant.kept {P : G → Prop} (h : Invariant P) (hstart : P start)
    {initial : Nat × Nat → Prop} (hinitial : ∀ u v, hasEdge start u v = true ↔ initial (u, v))
    (calls : List EdgeCall) : Kept initial start calls := by
  have hrun : runAll start calls = GraphKind.insertAll start (calls.flatMap (accepted start)) :=
    runAll_eq_insertAll start calls
  have hjoinable : joinable (runAll start calls) = joinable start := by
    rw [hrun, joinable_insertAll]
  have haccepted : ∀ e ∈ calls.flatMap (accepted start), joinable start e = true := by
    intro e he
    obtain ⟨call, -, he⟩ := List.mem_flatMap.mp he
    exact List.mem_takeWhile_imp he
  obtain ⟨hP, hedges⟩ := h.insertAll hstart haccepted
  rw [← hrun] at hP hedges
  refine
    { wellFormed := h.wellFormed hP
      joinable_eq := hjoinable
      hasEdge_iff := fun u v => by rw [hedges, hinitial]
      addEdge_accepted := fun {u v} huv => ?_
      addEdge_refused := fun huv => exists_error (hjoinable ▸ huv)
      addEdges_eq_ok_iff := fun es => by rw [addEdges_fst_eq_ok_iff, hjoinable]
      addEdges_snd := fun es => ?_ }
  · rw [← hjoinable] at huv
    rw [runAll_concat, run, addEdge_of_joinable huv]
  · rw [GraphKind.addEdges_snd, hjoinable, runAll_append, runAll_one]
    intro e he
    rw [hjoinable]
    exact List.mem_takeWhile_imp he

end GraphKind

end Clausal
