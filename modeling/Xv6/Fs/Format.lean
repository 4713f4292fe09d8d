import Xv6.Fs.Table

/-!
A new file system: one inode in use, an empty root directory, and a bit map that marks the
blocks before the data area.
-/

namespace Xv6.Fs

open Function Superblock
open Lib.Bytes Lib.Bitmap

def fullBits (count : Nat) : UInt8 := UInt8.ofNat (2 ^ min count 8 - 1)

def rootDinode : Dinode := ⟨tDir, 0, 0, 1, 0, fun _ => 0⟩

def Superblock.formatted (sb : Superblock) : Disk := fun b =>
  if b = sb.iblock rootIno then storeDinode (fun _ => 0) (rootIno % ipb * dinodeSize) rootDinode
  else if sb.bmapstart ≤ b then fun off => fullBits (sb.dataStart - ((b - sb.bmapstart) * bpb + 8 * off))
  else fun _ => 0

def closedSlot : Slot := ⟨0, 0, false, false, ⟨0, 0, 0, 0, 0, fun _ => 0⟩⟩

def State.booted (disk : Disk) : State := ⟨disk, fun _ => closedSlot, []⟩

variable {sb : Superblock}

theorem isSet_fullBits {mem : Nat → UInt8} {n count : Nat} (byte : mem (n / 8) = fullBits count) :
    isSet mem n = decide (n % 8 < count) := by
  have bits : ∀ c : Fin 9, ∀ i : Fin 8,
      (UInt8.ofNat (2 ^ (c : Nat) - 1)).toBitVec.getLsbD i = decide ((i : Nat) < c) := by decide
  have small := Nat.mod_lt n (show 0 < 8 by omega)
  have value := bits ⟨min count 8, by omega⟩ ⟨n % 8, small⟩
  rw [isSet_eq, byte, fullBits]
  refine value.trans (decide_eq_decide.mpr ?_)
  dsimp only
  omega

theorem loadDinode_blank (off : Nat) : (loadDinode (fun _ => 0) off).type = 0 := load_zero

theorem rootDinode_fits : rootDinode.Fits where
  type := by decide
  major := by decide
  minor := by decide
  nlink := by decide
  size := by decide
  addrs _ := by simp [rootDinode]

theorem bitOf_formatted (b : Nat) : sb.bitOf sb.formatted b = decide (b < sb.dataStart) := by
  have root : sb.iblock rootIno ≠ sb.bblock b := iblock_ne_bblock sb.root
  have low : sb.bmapstart ≤ sb.bblock b := Nat.le_add_left ..
  have byte : sb.formatted (sb.bblock b) (b % bpb / 8) =
      fullBits (sb.dataStart - ((sb.bblock b - sb.bmapstart) * bpb + 8 * (b % bpb / 8))) := by
    rw [formatted, if_neg root.symm, if_pos low]
  rw [bitOf, isSet_fullBits byte]
  refine decide_eq_decide.mpr ?_
  simp only [bblock, bpb]
  omega

theorem dinodeOf_formatted (inum : Nat) (bound : inum < sb.ninodes) :
    (inum = rootIno ∧ sb.dinodeOf sb.formatted inum = rootDinode) ∨
      (inum ≠ rootIno ∧ (sb.dinodeOf sb.formatted inum).type = 0) := by
  have start := iblock_lt bound
  by_cases root : inum = rootIno
  · refine .inl ⟨root, ?_⟩
    rw [root, dinodeOf, formatted, if_pos rfl, loadDinode_storeDinode rootDinode_fits]
  refine .inr ⟨root, ?_⟩
  rw [dinodeOf, formatted]
  by_cases block : sb.iblock inum = sb.iblock rootIno
  · rw [if_pos block]
    refine Eq.trans (congrArg Dinode.type (loadDinode_congr fun x low high =>
      storeDinode_outside ?_)) (loadDinode_blank _)
    simp only [iblock, ipb, dinodeSize, rootIno] at block low high root ⊢
    omega
  · rw [if_neg block, if_neg (by omega)]
    exact loadDinode_blank _

theorem nodeOf_formatted :
    sb.nodeOf sb.formatted = update (fun _ => none) rootIno (some rootDinode) := by
  funext inum
  by_cases bound : inum < sb.ninodes
  · rcases dinodeOf_formatted inum bound with ⟨rfl, dinode⟩ | ⟨other, free⟩
    · rw [update_self, nodeOf, dinode, if_pos ⟨bound, by decide⟩]
    · rw [update_of_ne other, nodeOf, if_neg fun both => both.2 free]
  · have root := sb.root
    rw [nodeOf, if_neg fun both => bound both.1, update_of_ne (by omega)]

theorem refs_formatted (disk : Disk) (site : Nat × Place) :
    refs (update (fun _ => none) rootIno (some rootDinode)) disk site = 0 := by
  obtain ⟨inum, place⟩ := site
  by_cases root : inum = rootIno
  · rw [root, refs_some (update_self ..)]
    exact rootDinode.ref_empty place
  · simp [refs, update_of_ne root]

theorem only_root {i : Nat} {d : Dinode} (found : sb.nodeOf sb.formatted i = some d) :
    d = rootDinode := by
  rw [nodeOf_formatted] at found
  by_cases root : i = rootIno
  · rw [root, update_self] at found
    exact (Option.some.inj found).symm
  · rw [update_of_ne root] at found
    exact absurd found (by simp)

theorem formatted_sound (sb : Superblock) : sb.Sound (sb.nodeOf sb.formatted) sb.formatted := by
  refine ⟨⟨fun site other held => ?_, fun site held => ?_, fun b _ => ?_⟩, fun i d found bn low => ?_,
    fun i d found => ?_⟩
  · rw [nodeOf_formatted, refs_formatted] at held
    exact absurd rfl held
  · rw [nodeOf_formatted, refs_formatted] at held
    exact absurd rfl held
  · simp only [bitOf_formatted, decide_eq_true_eq, nodeOf_formatted, refs_formatted]
    refine ⟨.inl, fun either => either.resolve_right ?_⟩
    rintro ⟨_, zero, nonzero⟩
    exact nonzero zero.symm
  · rw [only_root found] at low
    exact absurd low (Nat.not_lt_zero _)
  · rw [only_root found]
    exact Nat.zero_le _

theorem booted_good {disk : Disk} (sound : sb.Sound (sb.nodeOf disk) disk) : Good sb (.booted disk) := by
  have closed : ∀ ip, ¬ 0 < ((State.booted disk).itable ip).ref := fun _ => lt_irrefl 0
  exact ⟨sound, fun ip live => absurd live (closed ip), fun ip live => absurd live (closed ip),
    fun ip _ live => absurd live (closed ip), fun ip live => absurd live (closed ip)⟩

def tiny : Superblock where
  size := 16
  nblocks := 12
  ninodes := 16
  inodestart := 2
  bmapstart := 3
  root := by decide
  inodes := by decide
  bitmap := by decide
  small := by decide

theorem balloc_first_free_formatted :
    ∃ after, (balloc tiny).run (.booted tiny.formatted) = .ok (4, after) ∧
      Marked tiny (.booted tiny.formatted) after 4 := by
  have bits := @bitOf_formatted tiny
  have least := balloc_first_free tiny (.booted tiny.formatted) (bits 0)
  obtain ⟨after, ran, marked⟩ := least.2 4 (by decide) (bits 4) fun c low =>
    (bits c).trans (decide_eq_true low)
  refine ⟨after, ran, marked fun c low => ?_⟩
  simp only [bblock, tiny, bpb] at low ⊢
  omega

def ownBlockFree : State := .booted fun _ _ => 7

/-- `balloc` then returns the bitmap block and erases it, so that its bit is not set and
`bfree` panics. -/
theorem balloc_own_block :
    tiny.bitOf ownBlockFree.disk 0 = true ∧ tiny.bblock 0 = 3 ∧
    (∃ after, (balloc tiny).run ownBlockFree = .ok (3, after) ∧ tiny.bitOf after.disk 3 = false ∧
      ∃ reason, (bfree tiny 3).run after = .error reason) := by
  refine ⟨by decide, by decide, _, rfl, by decide, _, rfl⟩

end Xv6.Fs
