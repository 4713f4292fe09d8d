import Mathlib

/-!
Units handed out by an allocator. Each place of some structure holds the number of a unit,
or zero. `Owned` says that no unit stands at two places, and that the allocator's marks are
exactly the units below the range it serves and those that stand somewhere.
-/

namespace Xv6.Lib.Ownership

open Function

variable {Place : Type} {unit : Place → Nat} {marked : Nat → Bool}
variable {low high cap : Nat}

structure Owned (unit : Place → Nat) (marked : Nat → Bool) (low high cap : Nat) : Prop where
  distinct : ∀ place other, unit place ≠ 0 → unit place = unit other → place = other
  range : ∀ place, unit place ≠ 0 → low ≤ unit place ∧ unit place < high
  exact : ∀ b < cap, marked b = true ↔ b < low ∨ ∃ place, unit place = b ∧ b ≠ 0

variable (owned : Owned unit marked low high cap)
include owned

theorem Owned.fresh {b : Nat} (free : marked b = false) (bound : b < cap) :
    low ≤ b ∧ ∀ place, unit place = b → b = 0 := by
  have unmarked : ¬ (b < low ∨ ∃ place, unit place = b ∧ b ≠ 0) := by
    rw [← owned.exact b bound, free]
    exact Bool.false_ne_true
  refine ⟨by omega, fun place there => ?_⟩
  by_contra nonzero
  exact unmarked (.inr ⟨place, there, nonzero⟩)

theorem Owned.take [DecidableEq Place] {b : Nat} {place : Place} (free : marked b = false) (inside : b < high)
    (covers : high ≤ cap) (positive : 0 < low) (empty : unit place = 0) :
    Owned (update unit place b) (update marked b true) low high cap := by
  obtain ⟨above, nowhere⟩ := owned.fresh free (by omega)
  refine ⟨fun first second held same => ?_, fun other held => ?_, fun c bound => ?_⟩
  · by_cases here : first = place
    · by_cases there : second = place
      · rw [here, there]
      · rw [here, update_self, update_of_ne there] at same
        have zero := nowhere second same.symm
        omega
    rw [update_of_ne here] at held same
    by_cases there : second = place
    · rw [there, update_self] at same
      have zero := nowhere first same
      omega
    · rw [update_of_ne there] at same
      exact owned.distinct first second held same
  · by_cases here : other = place
    · rw [here, update_self]
      exact ⟨above, inside⟩
    · rw [update_of_ne here] at held ⊢
      exact owned.range other held
  · obtain rfl | new := eq_or_ne c b
    · rw [update_self]
      exact iff_of_true rfl (.inr ⟨place, update_self .., by omega⟩)
    rw [update_of_ne new, owned.exact c bound]
    refine or_congr_right ⟨fun ⟨other, there, nonzero⟩ => ⟨other, ?_, nonzero⟩,
      fun ⟨other, there, nonzero⟩ => ⟨other, ?_, nonzero⟩⟩
    · rw [update_of_ne]
      · exact there
      · rintro rfl
        exact nonzero (there.symm.trans empty)
    rw [update_of_ne] at there
    · exact there
    · rintro rfl
      rw [update_self] at there
      exact new there.symm

theorem Owned.held {place : Place} (nonzero : unit place ≠ 0) (covers : high ≤ cap) :
    marked (unit place) = true := by
  have inside := (owned.range place nonzero).2
  exact (owned.exact _ (by omega)).mpr (.inr ⟨place, rfl, nonzero⟩)

theorem Owned.give [DecidableEq Place] {place : Place} (nonzero : unit place ≠ 0) :
    Owned (update unit place 0) (update marked (unit place) false) low high cap := by
  have inside := owned.range place nonzero
  refine ⟨fun first second held same => ?_, fun other held => ?_, fun c bound => ?_⟩
  · by_cases here : first = place
    · rw [here, update_self] at held
      exact absurd rfl held
    rw [update_of_ne here] at held same
    by_cases there : second = place
    · rw [there, update_self] at same
      exact absurd same held
    · rw [update_of_ne there] at same
      exact owned.distinct first second held same
  · by_cases here : other = place
    · rw [here, update_self] at held
      exact absurd rfl held
    · rw [update_of_ne here] at held ⊢
      exact owned.range other held
  · obtain rfl | gone := eq_or_ne c (unit place)
    · rw [update_self]
      refine iff_of_false Bool.false_ne_true ?_
      rintro (below | ⟨other, there, _⟩)
      · omega
      by_cases here : other = place
      · rw [here, update_self] at there
        exact nonzero there.symm
      · rw [update_of_ne here] at there
        exact here (owned.distinct other place (there ▸ nonzero) there)
    · rw [update_of_ne gone, owned.exact c bound]
      refine or_congr_right ⟨fun ⟨other, there, held⟩ => ⟨other, ?_, held⟩,
        fun ⟨other, there, held⟩ => ⟨other, ?_, held⟩⟩
      · rw [update_of_ne]
        · exact there
        · rintro rfl
          exact gone there.symm
      rw [update_of_ne] at there
      · exact there
      · rintro rfl
        rw [update_self] at there
        exact held there.symm

theorem Owned.congr {unit' : Place → Nat} {marked' : Nat → Bool} (units : ∀ place, unit' place = unit place)
    (marks : ∀ b < cap, marked' b = marked b) : Owned unit' marked' low high cap := by
  refine ⟨fun first second => ?_, fun place => ?_, fun b bound => ?_⟩
  · rw [units, units]
    exact owned.distinct first second
  · rw [units]
    exact owned.range place
  · rw [marks b bound]
    simp only [units]
    exact owned.exact b bound

end Xv6.Lib.Ownership
