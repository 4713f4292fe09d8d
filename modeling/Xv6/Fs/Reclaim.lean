import Xv6.Fs.Ownership

/-!
`ireclaim`: after a crash, inodes that were unlinked while in use have a type and no links.
The boot looks through all inodes and frees these with `iget`, `ilock` and `iput`. Only
block ownership is assumed of the disk: files may have holes, and sizes may be anything.
-/

namespace Xv6.Fs

open Function Superblock
open Lib Lib.Bytes Lib.Hoare Lib.Ownership

section Model

variable (sb : Superblock)

/-- An inode in use that no directory names. -/
def Superblock.Orphan (disk : Disk) (inum : Nat) : Prop :=
  (sb.dinodeOf disk inum).type ≠ 0 ∧ (sb.dinodeOf disk inum).nlink = 0

instance (disk : Disk) (inum : Nat) : Decidable (sb.Orphan disk inum) := inferInstanceAs (Decidable (_ ∧ _))

end Model

variable {sb : Superblock} {st : State} {stop : Stop → Prop} {inum : Nat}

def Idle (st : State) : Prop := ∀ ip, (st.itable ip).ref = 0 ∧ (st.itable ip).locked = false

structure Swept (sb : Superblock) (image : Disk) (next : Nat) (st : State) : Prop where
  idle : Idle st
  gone : ∀ i < sb.ninodes, 1 ≤ i → i < next → sb.Orphan image i → (sb.dinodeOf st.disk i).type = 0
  others : ∀ i < sb.ninodes, ¬ (1 ≤ i ∧ i < next ∧ sb.Orphan image i) → sb.dinodeOf st.disk i = sb.dinodeOf image i
  holds : Holds sb (refs (sb.nodeOf st.disk) st.disk) st.disk
  data : ∀ place, sb.dataStart ≤ place → st.disk place = image place

theorem Swept.skip {image : Disk} (swept : Swept sb image inum st) (keeps : ¬ sb.Orphan image inum) :
    Swept sb image (inum + 1) st := by
  refine ⟨swept.idle, fun i bound positive low orphan => ?_, fun i bound outside => ?_, swept.holds, swept.data⟩
  · refine swept.gone i bound positive (Nat.lt_of_le_of_ne (Nat.le_of_lt_succ low) ?_) orphan
    rintro rfl
    exact keeps orphan
  · refine swept.others i bound fun early => ?_
    exact outside ⟨early.1, Nat.lt_succ_of_lt early.2.1, early.2.2⟩

theorem Swept.all {image : Disk} (swept : Swept sb image inum st) (past : sb.ninodes ≤ inum) :
    Swept sb image sb.ninodes st where
  idle := swept.idle
  gone i bound low _ := swept.gone i bound low (by omega)
  others i bound outside := swept.others i bound fun early => outside ⟨early.1, bound, early.2.2⟩
  holds := swept.holds
  data := swept.data

namespace Swept

variable {image : Disk} (swept : Swept sb image sb.ninodes st)
include swept

end Swept

def fileUnlocked : State := leaves tiny fileWritten (.iunlock 1)

theorem fileUnlocked_facts : ((Call.iunlock 1).step tiny fileWritten).isSome = true ∧ 0 < (fileWritten.itable 1).ref ∧
    0 < (fileUnlocked.itable 1).ref ∧ (fileUnlocked.itable 1).valid = true ∧ (fileUnlocked.itable 1).locked = false ∧
    (fileUnlocked.itable 1).d.size = 3 := by
  decide +kernel

theorem fileUnlocked_good : Good tiny fileUnlocked := by
  obtain ⟨unlocks, live, _⟩ := fileUnlocked_facts
  exact (run_inv (formatted_consistent tiny) (formatted_noHoles tiny)
    (fileWritten_reached.tail (.iunlock 1) live (step_leaves unlocks))).good

end Xv6.Fs
