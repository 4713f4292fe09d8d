import Xv6.Lib.Bitmap
import Xv6.Lib.Bytes

/-!
The disk of `kernel/fs.h`: blocks of bytes, with the inodes and the free bit map at the
places the superblock gives. `dinodeOf` and `bitOf` read through the block and the offset
that `IBLOCK` and `BBLOCK` compute.
-/

namespace Xv6.Fs

open Function
open Lib.Bytes Lib.Bitmap

abbrev Block := Nat → UInt8

abbrev Disk := Nat → Block

def bsize : Nat := 1024

def ndirect : Nat := 12

def nindirect : Nat := 256

def maxFile : Nat := ndirect + nindirect

def ipb : Nat := 16

def bpb : Nat := 8192

def dinodeSize : Nat := 64

def rootIno : Nat := 1

/-- The fields of the superblock that the code below `log.c` reads, for a disk on which
the inodes, the bit map and the data blocks follow each other. -/
structure Superblock where
  size : Nat
  nblocks : Nat
  ninodes : Nat
  inodestart : Nat
  bmapstart : Nat
  root : rootIno < ninodes
  inodes : (ninodes - 1) / ipb + inodestart < bmapstart
  bitmap : (size - 1) / bpb + bmapstart < size - nblocks
  small : size + bpb < 2 ^ 31

structure Dinode where
  type : Nat
  major : Nat
  minor : Nat
  nlink : Nat
  size : Nat
  addrs : Fin (ndirect + 1) → Nat

structure Dinode.Fits (d : Dinode) : Prop where
  type : d.type < 2 ^ 16
  major : d.major < 2 ^ 16
  minor : d.minor < 2 ^ 16
  nlink : d.nlink < 2 ^ 16
  size : d.size < 2 ^ 32
  addrs : ∀ k, d.addrs k < 2 ^ 32

def loadDinode (block : Block) (off : Nat) : Dinode where
  type := load block off 2
  major := load block (off + 2) 2
  minor := load block (off + 4) 2
  nlink := load block (off + 6) 2
  size := load block (off + 8) 4
  addrs k := load block (off + 12 + 4 * k) 4

def storeDinode (block : Block) (off : Nat) (d : Dinode) : Block :=
  let block := store block off d.type 2
  let block := store block (off + 2) d.major 2
  let block := store block (off + 4) d.minor 2
  let block := store block (off + 6) d.nlink 2
  let block := store block (off + 8) d.size 4
  storeWords block (off + 12) 4 (List.ofFn d.addrs)

theorem loadDinode_fits (block : Block) (off : Nat) : (loadDinode block off).Fits where
  type := load_lt
  major := load_lt
  minor := load_lt
  nlink := load_lt
  size := load_lt
  addrs _ := load_lt

theorem storeDinode_outside {block : Block} {off x : Nat} {d : Dinode}
    (out : x < off ∨ off + dinodeSize ≤ x) : storeDinode block off d x = block x := by
  rw [dinodeSize] at out
  have count : (List.ofFn d.addrs).length = 13 := List.length_ofFn
  rw [storeDinode, storeWords_outside, store_outside, store_outside, store_outside, store_outside,
    store_outside]
  all_goals omega

theorem loadDinode_congr {block other : Block} {off : Nat}
    (same : ∀ x, off ≤ x → x < off + dinodeSize → block x = other x) :
    loadDinode block off = loadDinode other off := by
  simp only [dinodeSize] at same
  simp only [loadDinode, Dinode.mk.injEq]
  refine ⟨?_, ?_, ?_, ?_, ?_, ?_⟩
  · exact load_congr fun x low high => same x (by omega) (by omega)
  · exact load_congr fun x low high => same x (by omega) (by omega)
  · exact load_congr fun x low high => same x (by omega) (by omega)
  · exact load_congr fun x low high => same x (by omega) (by omega)
  · exact load_congr fun x low high => same x (by omega) (by omega)
  · funext k
    have bound := k.isLt
    simp only [ndirect] at bound
    exact load_congr fun x low high => same x (by omega) (by omega)

theorem loadDinode_storeDinode {block : Block} {off : Nat} {d : Dinode} (fits : d.Fits) :
    loadDinode (storeDinode block off d) off = d := by
  have count : (List.ofFn d.addrs).length = 13 := List.length_ofFn
  obtain ⟨type, major, minor, nlink, size, addrs⟩ := d
  simp only [loadDinode, storeDinode, Dinode.mk.injEq]
  dsimp only at count
  refine ⟨?_, ?_, ?_, ?_, ?_, ?_⟩
  · rw [load_storeWords_disjoint (by omega), load_store_disjoint (by omega),
      load_store_disjoint (by omega), load_store_disjoint (by omega),
      load_store_disjoint (by omega), load_store_of_lt fits.type]
  · rw [load_storeWords_disjoint (by omega), load_store_disjoint (by omega),
      load_store_disjoint (by omega), load_store_disjoint (by omega), load_store_of_lt fits.major]
  · rw [load_storeWords_disjoint (by omega), load_store_disjoint (by omega),
      load_store_disjoint (by omega), load_store_of_lt fits.minor]
  · rw [load_storeWords_disjoint (by omega), load_store_disjoint (by omega),
      load_store_of_lt fits.nlink]
  · rw [load_storeWords_disjoint (by omega), load_store_of_lt fits.size]
  · funext k
    refine load_storeWords ?_ ?_
    · rw [List.getElem?_ofFn, dif_pos k.isLt]
    · intro value found
      obtain ⟨k, rfl⟩ := List.mem_ofFn.mp found
      exact fits.addrs k

namespace Superblock

variable (sb : Superblock)

def dataStart : Nat := sb.size - sb.nblocks

def mapBits : Nat := (sb.dataStart - sb.bmapstart) * bpb

def iblock (inum : Nat) : Nat := inum / ipb + sb.inodestart

def bblock (b : Nat) : Nat := b / bpb + sb.bmapstart

def bitOf (disk : Disk) (b : Nat) : Bool := isSet (disk (sb.bblock b)) (b % bpb)

def dinodeOf (disk : Disk) (inum : Nat) : Dinode :=
  loadDinode (disk (sb.iblock inum)) (inum % ipb * dinodeSize)

def putDinode (disk : Disk) (inum : Nat) (d : Dinode) : Disk :=
  update disk (sb.iblock inum)
    (storeDinode (disk (sb.iblock inum)) (inum % ipb * dinodeSize) d)

def markBlock (disk : Disk) (b : Nat) : Disk :=
  update disk (sb.bblock b) (setBit (disk (sb.bblock b)) (b % bpb))

def unmarkBlock (disk : Disk) (b : Nat) : Disk :=
  update disk (sb.bblock b) (clearBit (disk (sb.bblock b)) (b % bpb))

variable {sb} {disk : Disk} {inum other b c : Nat} {d : Dinode} {block : Block}

theorem dataStart_pos : 0 < sb.dataStart := Nat.lt_of_le_of_lt (Nat.zero_le _) sb.bitmap

theorem dataStart_le : sb.dataStart ≤ sb.size := Nat.sub_le _ _

theorem size_le_mapBits : sb.size ≤ sb.mapBits := by
  have bitmap := sb.bitmap
  have whole := Nat.div_add_mod (sb.size - 1) bpb
  have part := Nat.mod_lt (sb.size - 1) (show 0 < bpb by decide)
  have blocks : (sb.size - 1) / bpb + 1 ≤ sb.dataStart - sb.bmapstart := by
    rw [dataStart]
    omega
  have covered := Nat.mul_le_mul_right bpb blocks
  rw [mapBits]
  rw [Nat.succ_mul, mul_comm] at covered
  omega

theorem iblock_lt (bound : inum < sb.ninodes) : sb.iblock inum < sb.bmapstart := by
  have inodes := sb.inodes
  have mono : inum / ipb ≤ (sb.ninodes - 1) / ipb := Nat.div_le_div_right (by omega)
  rw [iblock]
  omega

theorem bmapstart_lt : sb.bmapstart < sb.dataStart :=
  Nat.lt_of_le_of_lt (Nat.le_add_left _ _) sb.bitmap

theorem bblock_lt (bound : b < sb.mapBits) : sb.bblock b < sb.dataStart := by
  have inside : b / bpb < sb.dataStart - sb.bmapstart := Nat.div_lt_of_lt_mul (by
    rw [mul_comm]
    exact bound)
  have low : sb.bmapstart < sb.dataStart := bmapstart_lt
  simp only [bblock, bpb] at inside ⊢
  omega

theorem iblock_ne_bblock (bound : inum < sb.ninodes) : sb.iblock inum ≠ sb.bblock b := by
  have low := iblock_lt bound
  simp only [bblock, bpb]
  omega

theorem dinodeOf_fits (sb : Superblock) (disk : Disk) (inum : Nat) : (sb.dinodeOf disk inum).Fits :=
  loadDinode_fits _ _

theorem dinodeOf_putDinode (fits : d.Fits) :
    sb.dinodeOf (sb.putDinode disk inum d) = update (sb.dinodeOf disk) inum d := by
  funext other
  obtain rfl | same := eq_or_ne other inum
  · rw [update_self, dinodeOf, putDinode, update_self, loadDinode_storeDinode fits]
  rw [update_of_ne same, dinodeOf, dinodeOf, putDinode]
  by_cases block : sb.iblock other = sb.iblock inum
  · rw [block, update_self]
    refine loadDinode_congr fun x low high => storeDinode_outside ?_
    simp only [iblock, ipb, dinodeSize] at block low high ⊢
    omega
  · rw [update_of_ne block]

theorem bitOf_putDinode (bound : inum < sb.ninodes) :
    sb.bitOf (sb.putDinode disk inum d) = sb.bitOf disk := by
  funext b
  rw [bitOf, bitOf, putDinode, update_of_ne (iblock_ne_bblock bound).symm]

theorem putDinode_data (bound : inum < sb.ninodes) (data : sb.dataStart ≤ b) :
    sb.putDinode disk inum d b = disk b := by
  have low := iblock_lt bound
  have high : sb.bmapstart < sb.dataStart := bmapstart_lt
  rw [putDinode, update_of_ne (by omega)]

theorem bblock_inj (blocks : sb.bblock b = sb.bblock c) (bits : b % bpb = c % bpb) : b = c := by
  simp only [bblock, bpb] at blocks bits
  omega

theorem bitOf_markBlock : sb.bitOf (sb.markBlock disk b) = update (sb.bitOf disk) b true := by
  funext c
  obtain rfl | same := eq_or_ne c b
  · rw [update_self, bitOf, markBlock, update_self, isSet_setBit]
    simp
  rw [update_of_ne same, bitOf, bitOf, markBlock]
  by_cases block : sb.bblock c = sb.bblock b
  · rw [block, update_self, isSet_setBit, decide_eq_false, Bool.false_or]
    exact fun bits => same (bblock_inj block bits)
  · rw [update_of_ne block]

theorem bitOf_unmarkBlock :
    sb.bitOf (sb.unmarkBlock disk b) = update (sb.bitOf disk) b false := by
  funext c
  obtain rfl | same := eq_or_ne c b
  · rw [update_self, bitOf, unmarkBlock, update_self, isSet_clearBit]
    simp
  rw [update_of_ne same, bitOf, bitOf, unmarkBlock]
  by_cases block : sb.bblock c = sb.bblock b
  · rw [block, update_self, isSet_clearBit, decide_eq_true, Bool.true_and]
    exact fun bits => same (bblock_inj block bits)
  · rw [update_of_ne block]

variable {place : Nat}

theorem dinodeOf_outside (bound : inum < sb.ninodes) (other : place ≠ sb.iblock inum) :
    sb.dinodeOf (update disk place block) inum = sb.dinodeOf disk inum := by
  rw [dinodeOf, dinodeOf, update_of_ne other.symm]

theorem bitOf_data (data : sb.dataStart ≤ place) (bound : b < sb.mapBits) :
    sb.bitOf (update disk place block) b = sb.bitOf disk b := by
  have low := bblock_lt bound
  rw [bitOf, bitOf, update_of_ne (by omega)]

theorem iblock_ne_data (data : sb.dataStart ≤ place) (bound : inum < sb.ninodes) : place ≠ sb.iblock inum := by
  have low := iblock_lt bound
  have high : sb.bmapstart < sb.dataStart := bmapstart_lt
  omega

theorem markBlock_data (data : sb.dataStart ≤ place) (bound : b < sb.mapBits) :
    sb.markBlock disk b place = disk place := by
  have low := bblock_lt bound
  rw [markBlock, update_of_ne (by omega)]

theorem unmarkBlock_data (data : sb.dataStart ≤ place) (bound : b < sb.mapBits) :
    sb.unmarkBlock disk b place = disk place := by
  have low := bblock_lt bound
  rw [unmarkBlock, update_of_ne (by omega)]

end Superblock

end Xv6.Fs
