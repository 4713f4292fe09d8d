import Mathlib

/-!
Ring buffers indexed by free-running counters of a fixed width. A counter is
reduced modulo the ring size only when it is used as an index, so the ring size
has to divide the range of the counters for a wrap to go unnoticed.
-/

namespace Xv6.Lib.Ring

open Function List

variable {α : Type*} {width size : Nat}

def index (size : Nat) (counter : BitVec width) : Nat :=
  counter.toNat % size

def count (first last : BitVec width) : Nat :=
  (last - first).toNat

/-- The values of the cells from `first` up to `last`, oldest first. -/
def contents (size : Nat) (cells : Nat → α) (first last : BitVec width) : List α :=
  (List.range (count first last)).map fun offset => cells ((first.toNat + offset) % size)

@[simp] theorem count_self (counter : BitVec width) : count counter counter = 0 := by
  simp [count]

@[simp] theorem contents_self (cells : Nat → α) (counter : BitVec width) :
    contents size cells counter counter = [] := by
  simp [contents]

@[simp] theorem length_contents (cells : Nat → α) (first last : BitVec width) :
    (contents size cells first last).length = count first last := by
  simp [contents]

theorem count_eq_zero (first last : BitVec width) : count first last = 0 ↔ first = last := by
  constructor
  · intro none
    have zero : last - first = BitVec.ofNat width 0 := BitVec.eq_of_toNat_eq (by simpa [count] using none)
    exact (sub_eq_zero.mp zero).symm
  · rintro rfl
    exact count_self first

theorem count_eq_iff (first last : BitVec width) (length : Nat) (fits : length < 2 ^ width) :
    count first last = length ↔ last = first + BitVec.ofNat width length := by
  constructor
  · intro counted
    have gap : last - first = BitVec.ofNat width length :=
      BitVec.eq_of_toNat_eq (by rw [BitVec.toNat_ofNat, Nat.mod_eq_of_lt fits]; exact counted)
    rw [← gap, add_sub_cancel]
  · rintro rfl
    simp [count, Nat.mod_eq_of_lt fits]

theorem count_push (first last : BitVec width) (room : count first last + 1 < 2 ^ width) :
    count first (last + BitVec.ofNat width 1) = count first last + 1 := by
  have one : 1 < 2 ^ width := by omega
  have shifted : last + BitVec.ofNat width 1 - first = (last - first) + BitVec.ofNat width 1 := BitVec.add_sub_comm
  simp only [count, shifted, BitVec.toNat_add, BitVec.toNat_ofNat] at room ⊢
  rw [Nat.mod_eq_of_lt one, Nat.mod_eq_of_lt room]

theorem count_pop (first last : BitVec width) (some : first ≠ last) :
    count (first + BitVec.ofNat width 1) last + 1 = count first last := by
  have positive : count first last ≠ 0 := fun zero => some ((count_eq_zero _ _).mp zero)
  have bound : count first last < 2 ^ width := (last - first).isLt
  have shifted : last - (first + BitVec.ofNat width 1) = (last - first) - BitVec.ofNat width 1 :=
    (BitVec.sub_sub last first (BitVec.ofNat width 1)).symm
  have one : (BitVec.ofNat width 1).toNat ≤ (last - first).toNat := by
    have small : (BitVec.ofNat width 1).toNat ≤ 1 := by simpa using Nat.mod_le 1 (2 ^ width)
    change (BitVec.ofNat width 1).toNat ≤ count first last
    omega
  have unit : (BitVec.ofNat width 1).toNat = 1 := by simpa using Nat.mod_eq_of_lt (show 1 < 2 ^ width by omega)
  simp only [count, shifted, BitVec.toNat_sub_of_le (BitVec.le_def.mpr one), unit] at positive ⊢
  omega

theorem index_last (divides : size ∣ 2 ^ width) (first last : BitVec width) :
    index size last = (first.toNat + count first last) % size := by
  have value : (first + (last - first)).toNat = last.toNat := by rw [add_sub_cancel]
  rw [index, ← value, BitVec.toNat_add, Nat.mod_mod_of_dvd _ divides, count]

theorem add_mod_injective {base left right : Nat} (leftBound : left < size)
    (rightBound : right < size) (same : (base + left) % size = (base + right) % size) :
    left = right := by
  have reduced : left % size = right % size := Nat.ModEq.add_left_cancel' base same
  rwa [Nat.mod_eq_of_lt leftBound, Nat.mod_eq_of_lt rightBound] at reduced

theorem contents_extend (divides : size ∣ 2 ^ width) (cells : Nat → α) (first last : BitVec width)
    (fits : count first last + 1 < 2 ^ width) :
    contents size cells first (last + BitVec.ofNat width 1) =
      contents size cells first last ++ [cells (index size last)] := by
  rw [contents, count_push first last fits, range_succ, map_append, contents, index_last divides first last]
  rfl

theorem contents_push (divides : size ∣ 2 ^ width) (cells : Nat → α) (first last : BitVec width)
    (value : α) (room : count first last < size) (fits : count first last + 1 < 2 ^ width) :
    contents size (update cells (index size last) value) first (last + BitVec.ofNat width 1) =
      contents size cells first last ++ [value] := by
  rw [contents, count_push first last fits, range_succ, map_append, contents]
  congr 1
  · apply map_congr_left
    intro offset member
    have below : offset < count first last := mem_range.mp member
    rw [index_last divides first last, update_of_ne]
    intro same
    have equal := add_mod_injective (by omega) room same
    omega
  · rw [index_last divides first last]
    simp

theorem contents_pop (divides : size ∣ 2 ^ width) (cells : Nat → α) (first last : BitVec width)
    (some : first ≠ last) :
    contents size cells first last =
      cells (index size first) :: contents size cells (first + BitVec.ofNat width 1) last := by
  have counted := count_pop first last some
  rw [contents, ← counted, range_succ_eq_map, map_cons, map_map, contents]
  congr 1
  apply map_congr_left
  intro offset _
  have next : (first + BitVec.ofNat width 1).toNat ≡ first.toNat + 1 [MOD size] := by
    rw [BitVec.toNat_add, BitVec.toNat_ofNat]
    exact ((Nat.mod_modEq _ _).of_dvd divides).trans
      (((Nat.mod_modEq _ _).of_dvd divides).add_left first.toNat)
  have moved : ((first + BitVec.ofNat width 1).toNat + offset) % size = (first.toNat + 1 + offset) % size :=
    next.add_right offset
  simp only [comp_apply, moved]
  congr 2
  omega

variable {first middle last : BitVec width}

theorem count_add (inside : count first middle ≤ count first last) :
    count first middle + count middle last = count first last := by
  have apart : last - middle = (last - first) - (middle - first) := by abel
  have below : (middle - first).toNat ≤ (last - first).toNat := inside
  rw [count, count, count, apart, BitVec.toNat_sub_of_le (BitVec.le_def.mpr below)]
  omega

theorem contents_append (divides : size ∣ 2 ^ width) (cells : Nat → α)
    (inside : count first middle ≤ count first last) :
    contents size cells first last = contents size cells first middle ++ contents size cells middle last := by
  have start := index_last divides first middle
  rw [contents, ← count_add inside, range_add, map_append, map_map, contents, contents]
  congr 1
  refine map_congr_left fun offset _ => ?_
  rw [comp_apply, ← add_assoc, Nat.add_mod, ← start, index, ← Nat.add_mod]

theorem contents_update (divides : size ∣ 2 ^ width) (cells : Nat → α) (value : α)
    (inside : count first middle ≤ count first last) (room : count first last < size) :
    contents size (update cells (index size last) value) first middle = contents size cells first middle := by
  refine map_congr_left fun offset member => ?_
  have below : offset < count first middle := mem_range.mp member
  rw [index_last divides first last, update_of_ne]
  intro same
  have equal := add_mod_injective (by omega) room same
  omega

theorem count_erase (some : first ≠ last) : count first (last - BitVec.ofNat width 1) + 1 = count first last := by
  have counted := count_pop first last some
  have shifted : last - BitVec.ofNat width 1 - first = last - (first + BitVec.ofNat width 1) := by abel
  rwa [count, ← shifted] at counted

theorem contents_erase (cells : Nat → α) (some : first ≠ last) :
    contents size cells first (last - BitVec.ofNat width 1) = (contents size cells first last).dropLast := by
  rw [contents, contents, ← count_erase some, range_succ, map_append, map_singleton, dropLast_concat]

theorem cell_erase_mem (divides : size ∣ 2 ^ width) (cells : Nat → α) (some : first ≠ last) :
    cells (index size (last - BitVec.ofNat width 1)) ∈ contents size cells first last := by
  rw [index_last divides first, contents]
  refine mem_map.mpr ⟨count first (last - BitVec.ofNat width 1), mem_range.mpr ?_, rfl⟩
  have erased := count_erase some
  omega

end Xv6.Lib.Ring
