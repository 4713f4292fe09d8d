import Mathlib

/-!
A redo log on a block device: a header and a run of slots; the rest of the device holds the
home locations. `Recoverable` says that copying the logged blocks to their home locations
turns the device into a given goal.
-/

namespace Xv6.Lib.RedoLog

open Function

structure Area where
  start : Nat
  slots : Nat

def Area.Owns (area : Area) (addr : Nat) : Prop :=
  area.start ≤ addr ∧ addr ≤ area.start + area.slots

instance (area : Area) (addr : Nat) : Decidable (area.Owns addr) :=
  inferInstanceAs (Decidable (_ ∧ _))

def Area.slot (area : Area) (index : Nat) : Nat := area.start + index + 1

def applyUpdates {Data : Type*} (updates : List (Nat × Data)) (disk : Nat → Data) : Nat → Data :=
  updates.foldl (fun disk update => Function.update disk update.1 update.2) disk

variable {Data : Type*} {area : Area} {entries : List Nat} {disk goal : Nat → Data}
  {addr index : Nat} {data : Data}

theorem applyUpdates_append (first second : List (Nat × Data)) :
    applyUpdates (first ++ second) disk = applyUpdates second (applyUpdates first disk) :=
  List.foldl_append

theorem applyUpdates_of_not_mem {updates : List (Nat × Data)}
    (absent : ∀ update ∈ updates, update.1 ≠ addr) : applyUpdates updates disk addr = disk addr := by
  induction updates generalizing disk with
  | nil => rfl
  | cons update updates ih =>
    refine Eq.trans (ih fun other found => absent other (List.mem_cons_of_mem _ found)) ?_
    exact update_of_ne (absent update (by simp)).symm _ _

theorem Area.owns_start : area.Owns area.start := ⟨Nat.le_refl _, Nat.le_add_right _ _⟩

theorem Area.owns_slot (bound : index < area.slots) : area.Owns (area.slot index) := by
  simp only [Area.Owns, Area.slot]
  omega

theorem Area.slot_ne_start : area.slot index ≠ area.start := by
  simp only [Area.slot]
  omega

structure Recoverable (area : Area) (entries : List Nat) (disk goal : Nat → Data) : Prop where
  home : ∀ addr ∈ entries, ¬ area.Owns addr
  fits : entries.length ≤ area.slots
  logged : ∀ index addr, entries[index]? = some addr → disk (area.slot index) = goal addr
  rest : ∀ addr, ¬ area.Owns addr → addr ∉ entries → disk addr = goal addr

def Installed (entries : List Nat) (count : Nat) (disk goal : Nat → Data) : Prop :=
  ∀ index < count, ∀ addr, entries[index]? = some addr → disk addr = goal addr

theorem Recoverable.write_header (recoverable : Recoverable area entries disk goal) :
    Recoverable area entries (Function.update disk area.start data) goal := by
  refine ⟨recoverable.home, recoverable.fits, ?_, ?_⟩
  · intro index addr entry
    rw [update_of_ne Area.slot_ne_start]
    exact recoverable.logged index addr entry
  intro addr outside absent
  have different : addr ≠ area.start := by
    rintro rfl
    exact outside Area.owns_start
  rw [update_of_ne different]
  exact recoverable.rest addr outside absent

theorem Recoverable.write_slot (recoverable : Recoverable area [] disk goal)
    (bound : index < area.slots) :
    Recoverable area [] (Function.update disk (area.slot index) data) goal := by
  refine ⟨recoverable.home, recoverable.fits, ?_, ?_⟩
  · intro index addr entry
    simp at entry
  intro addr outside absent
  have different : addr ≠ area.slot index := by
    rintro rfl
    exact outside (Area.owns_slot bound)
  rw [update_of_ne different]
  exact recoverable.rest addr outside absent

theorem Recoverable.commit {after : Nat → Data} (recoverable : Recoverable area [] disk goal)
    (home : ∀ addr ∈ entries, ¬ area.Owns addr) (fits : entries.length ≤ area.slots)
    (logged : ∀ index addr, entries[index]? = some addr → disk (area.slot index) = after addr)
    (same : ∀ addr, ¬ area.Owns addr → addr ∉ entries → after addr = goal addr) :
    Recoverable area entries disk after := by
  refine ⟨home, fits, logged, fun addr outside absent => ?_⟩
  rw [same addr outside absent]
  exact recoverable.rest addr outside (by simp)

theorem Recoverable.install (recoverable : Recoverable area entries disk goal)
    (entry : entries[index]? = some addr) :
    Recoverable area entries (Function.update disk addr (disk (area.slot index))) goal := by
  have outside := recoverable.home addr (List.mem_of_getElem? entry)
  refine ⟨recoverable.home, recoverable.fits, ?_, ?_⟩
  · intro other place found
    have bound : other < area.slots :=
      Nat.lt_of_lt_of_le (List.getElem?_eq_some_iff.mp found).1 recoverable.fits
    have different : area.slot other ≠ addr := by
      rintro rfl
      exact outside (Area.owns_slot bound)
    rw [update_of_ne different]
    exact recoverable.logged other place found
  · intro place home absent
    have different : place ≠ addr := by
      rintro rfl
      exact absent (List.mem_of_getElem? entry)
    rw [update_of_ne different]
    exact recoverable.rest place home absent

theorem Installed.step {count : Nat} (installed : Installed entries count disk goal)
    (recoverable : Recoverable area entries disk goal) (entry : entries[count]? = some addr) :
    Installed entries (count + 1) (Function.update disk addr (disk (area.slot count))) goal := by
  intro index bound place found
  obtain rfl | same := eq_or_ne place addr
  · rw [update_self]
    exact recoverable.logged count place entry
  rw [update_of_ne same]
  obtain rfl | last := eq_or_ne index count
  · exact absurd (Option.some.inj (found.symm.trans entry)) same
  · exact installed index (by omega) place found

theorem Recoverable.clear {count : Nat} (recoverable : Recoverable area entries disk goal)
    (installed : Installed entries count disk goal) (all : entries.length ≤ count) :
    Recoverable area [] disk goal := by
  refine ⟨by simp, Nat.zero_le _, by simp, fun addr outside _ => ?_⟩
  by_cases logged : addr ∈ entries
  · obtain ⟨index, found⟩ := List.mem_iff_getElem?.mp logged
    have bound := (List.getElem?_eq_some_iff.mp found).1
    exact installed index (by omega) addr found
  · exact recoverable.rest addr outside logged

theorem Recoverable.home_eq (recoverable : Recoverable area [] disk goal)
    (outside : ¬ area.Owns addr) : disk addr = goal addr :=
  recoverable.rest addr outside (by simp)

end Xv6.Lib.RedoLog
