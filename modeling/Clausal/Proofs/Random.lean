import Clausal.Random

/-!
# What random choices can come out as

Whatever words are drawn, a shuffled list holds the same elements as before. Choices that are made
for each element of a list are as many as the list has elements.
-/

namespace Clausal.Draw

variable {α : Type}

theorem swapIfInBounds_perm (xs : Array α) (i j : Nat) :
    (xs.swapIfInBounds i j).toList.Perm xs.toList := by
  unfold Array.swapIfInBounds
  split
  · split
    · exact (Array.swap_perm _ _).toList
    · exact List.Perm.refl _
  · exact List.Perm.refl _

theorem shuffleFrom_perm (count i : Nat) (chooser : Chooser) (xs : Array α) (source : WordSource) :
    ((shuffleFrom count i chooser xs).run source).1.toList.Perm xs.toList := by
  induction count generalizing i chooser xs source with
  | zero => exact List.Perm.refl _
  | succ count ih =>
    -- the rest of the computation starts from the array after one swap
    exact (ih (i + 1) _ _ _).trans (swapIfInBounds_perm xs i _)

theorem shuffle_perm (xs : List α) (source : WordSource) :
    ((shuffle xs).run source).1.Perm xs := by
  rw [shuffle]
  split
  · exact List.Perm.refl _
  · exact shuffleFrom_perm xs.length 0 .start xs.toArray source

/-- The elements in random order, or as they are. -/
def shuffleIf (enabled : Bool) (xs : List α) : Draw (List α) :=
  if enabled then shuffle xs else pure xs

theorem shuffleIf_perm (enabled : Bool) (xs : List α) (source : WordSource) :
    ((shuffleIf enabled xs).run source).1.Perm xs := by
  cases enabled with
  | true => exact shuffle_perm xs source
  | false => exact List.Perm.refl _

theorem shuffleIf_of_false {enabled : Bool} (h : enabled = false) (xs : List α)
    (source : WordSource) : ((shuffleIf enabled xs).run source).1 = xs := by
  rw [h]
  rfl

theorem mapM_fits {β : Type} {choose : α → Draw β} {P : β → Prop}
    (h : ∀ x source, P ((choose x).run source).1) (xs : List α) (source : WordSource) :
    ((xs.mapM choose).run source).1.length = xs.length ∧
      ∀ y ∈ ((xs.mapM choose).run source).1, P y := by
  induction xs generalizing source with
  | nil => exact ⟨rfl, nofun⟩
  | cons x xs ih =>
    obtain ⟨hlength, hall⟩ := ih ((choose x).run source).2
    rw [List.mapM_cons]
    exact ⟨congrArg (· + 1) hlength, List.forall_mem_cons.mpr ⟨h x source, hall⟩⟩

end Clausal.Draw
