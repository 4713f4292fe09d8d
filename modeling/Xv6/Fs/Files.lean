import Xv6.Fs.Alloc

/-!
The files of a disk. A file is what the inode and its blocks show to the rest of the kernel:
the fields of the inode and the bytes below the size.
-/

namespace Xv6.Fs

open Function Superblock
open Lib.Bytes Lib.Hoare

structure File where
  type : Nat
  major : Nat
  minor : Nat
  nlink : Nat
  size : Nat
  data : Nat → UInt8

def Dinode.file (d : Dinode) (disk : Disk) : File where
  type := d.type
  major := d.major
  minor := d.minor
  nlink := d.nlink
  size := d.size
  data off := if off < d.size then d.byte disk off else 0

@[simp] theorem file_type {d : Dinode} {disk : Disk} : (d.file disk).type = d.type := rfl

@[simp] theorem file_nlink {d : Dinode} {disk : Disk} : (d.file disk).nlink = d.nlink := rfl

@[simp] theorem file_size {d : Dinode} {disk : Disk} : (d.file disk).size = d.size := rfl

theorem file_data {d : Dinode} {disk : Disk} {off : Nat} (below : off < d.size) :
    (d.file disk).data off = d.byte disk off := if_pos below

def Superblock.fileOf (sb : Superblock) (disk : Disk) (i : Nat) : Option File :=
  (sb.nodeOf disk i).map fun d => d.file disk

variable {sb : Superblock} {nodes nodes' : Nodes} {disk disk' : Disk} {i : Nat} {d d' : Dinode}

theorem Dinode.file_congr (bytes : ∀ off < d.size, d.byte disk' off = d.byte disk off) :
    d.file disk' = d.file disk := by
  simp only [Dinode.file, File.mk.injEq, true_and]
  funext off
  by_cases below : off < d.size
  · rw [if_pos below, if_pos below, bytes off below]
  · rw [if_neg below, if_neg below]

theorem Superblock.Sound.filled_byte (sound : sb.Sound nodes disk) (found : nodes i = some d) {off : Nat}
    (below : off < d.size) : d.ref disk (placeOf (off / bsize)) ≠ 0 :=
  sound.filled i d found _ ((Nat.div_mul_le_self off bsize).trans_lt below)

theorem Superblock.Sound.file_data (sound : sb.Sound nodes disk)
    (data : ∀ place, sb.dataStart ≤ place → disk' place = disk place) (found : nodes i = some d) :
    d.file disk' = d.file disk := by
  refine Dinode.file_congr fun off below => ?_
  have filled := sound.filled_byte found below
  have range := sound.owned.range (i, placeOf (off / bsize)) (by rwa [refs_some found])
  rw [refs_some found] at range
  have ref := d.ref_congr (fun some => data _ (sound.ind_data found some).1) (placeOf (off / bsize))
  rw [Dinode.byte, Dinode.byte, ref, data _ range.1]

theorem Superblock.Sound.file_keeps (sound : sb.Sound nodes disk) (keeps : Keeps nodes disk nodes' disk')
    (found : nodes i = some d) {addrs : Fin (ndirect + 1) → Nat}
    (found' : nodes' i = some { d with addrs := addrs }) :
    Dinode.file { d with addrs := addrs } disk' = d.file disk := by
  simp only [Dinode.file, File.mk.injEq, true_and]
  funext off
  by_cases below : off < d.size
  · rw [if_pos below, if_pos below, keeps.byte found found' (sound.filled_byte found below)]
  · rw [if_neg below, if_neg below]

theorem fileOf_some (found : sb.nodeOf disk i = some d) : sb.fileOf disk i = some (d.file disk) := by
  rw [fileOf, found, Option.map_some]

theorem fileOf_update {node : Option Dinode}
    (nodes : sb.nodeOf disk' = update (sb.nodeOf disk) i node)
    (others : ∀ j e, j ≠ i → sb.nodeOf disk j = some e → e.file disk' = e.file disk) :
    sb.fileOf disk' = update (sb.fileOf disk) i (node.map fun d => d.file disk') := by
  funext j
  obtain rfl | same := eq_or_ne j i
  · rw [update_self, fileOf, nodes, update_self]
  rw [update_of_ne same, fileOf, fileOf, nodes,
    update_of_ne same]
  cases found : sb.nodeOf disk j with
  | none => rfl
  | some e => simp only [Option.map_some, others j e same found]

end Xv6.Fs
