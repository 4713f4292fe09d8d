import Mathlib

/-!
Totals of a count over the first numbers, and what becomes of them when one of the counts
changes.
-/

namespace Xv6.Lib

open Finset

def total (n : Nat) (count : Nat → Nat) : Nat := ∑ x ∈ Finset.range n, count x

variable {n x : Nat} {count other : Nat → Nat}

theorem total_eq_sum (n : Nat) (count : Nat → Nat) : total n count = ∑ x ∈ Finset.range n, count x := rfl

theorem le_total (count : Nat → Nat) (inside : x < n) : count x ≤ total n count :=
  single_le_sum (fun _ _ => Nat.zero_le _) (mem_range.mpr inside)

theorem exists_of_total_ne_zero (some : total n count ≠ 0) : ∃ y < n, count y ≠ 0 := by
  obtain ⟨y, member, found⟩ := exists_ne_zero_of_sum_ne_zero some
  exact ⟨y, mem_range.mp member, found⟩

theorem total_eq_zero (none : ∀ y < n, count y = 0) : total n count = 0 :=
  sum_eq_zero fun y member => none y (mem_range.mp member)

theorem total_change (count other : Nat → Nat) (inside : x < n) (same : ∀ y < n, y ≠ x → other y = count y) :
    total n other + count x = total n count + other x := by
  have member := mem_range.mpr inside
  have rest : ∑ y ∈ (Finset.range n).erase x, other y = ∑ y ∈ (Finset.range n).erase x, count y := by
    apply sum_congr rfl
    intro y within
    obtain ⟨different, low⟩ := mem_erase.mp within
    exact same y (mem_range.mp low) different
  have left := add_sum_erase (Finset.range n) other member
  have right := add_sum_erase (Finset.range n) count member
  rw [total, total]
  omega

theorem total_single (inside : x < n) (none : ∀ y < n, y ≠ x → count y = 0) : total n count = count x :=
  sum_eq_single_of_mem x (mem_range.mpr inside) fun y member => none y (mem_range.mp member)

theorem two_le_total (count : Nat → Nat) {y : Nat} (inside : x < n) (also : y < n) (different : y ≠ x) :
    count x + count y ≤ total n count := by
  have rest : count y ≤ ∑ z ∈ (Finset.range n).erase x, count z :=
    single_le_sum (fun _ _ => Nat.zero_le _)
      (mem_erase.mpr ⟨different, mem_range.mpr also⟩)
  have sum := add_sum_erase (Finset.range n) count (mem_range.mpr inside)
  rw [total]
  omega

-- a total is rewritten by the lemmas above and never computed in a proof
attribute [irreducible] total

end Xv6.Lib
