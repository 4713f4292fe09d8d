import Xv6.Fs.Inode
import Xv6.Lib.Ownership

/-!
Which blocks belong to which inode: those of its direct slots, of its indirect slot and of
the entries of the indirect block. `Sound` says that the bit map and these references agree,
that a file has no holes below its size, and that no size is beyond `MAXFILE` blocks.
-/

namespace Xv6.Fs

open Function
open Lib.Bytes Lib.Bitmap Lib.Ownership

inductive Place where
  | direct (k : Fin ndirect)
  | indirect
  | entry (j : Fin nindirect)
deriving DecidableEq

def Dinode.ind (d : Dinode) : Nat := d.addrs (Fin.last ndirect)

def Dinode.ref (d : Dinode) (disk : Disk) : Place → Nat
  | .direct k => d.addrs k.castSucc
  | .indirect => d.ind
  | .entry j => if d.ind = 0 then 0 else load (disk d.ind) (4 * j) 4

def placeOf (bn : Nat) : Place :=
  if small : bn < ndirect then .direct ⟨bn, small⟩
  else .entry ⟨(bn - ndirect) % nindirect, Nat.mod_lt _ (by decide)⟩

def Dinode.byte (d : Dinode) (disk : Disk) (off : Nat) : UInt8 :=
  disk (d.ref disk (placeOf (off / bsize))) (off % bsize)

abbrev Nodes := Nat → Option Dinode

def refs (nodes : Nodes) (disk : Disk) (site : Nat × Place) : Nat :=
  match nodes site.1 with
  | none => 0
  | some d => d.ref disk site.2

namespace Superblock

variable (sb : Superblock)

def nodeOf (disk : Disk) (inum : Nat) : Option Dinode :=
  if inum < sb.ninodes ∧ (sb.dinodeOf disk inum).type ≠ 0 then some (sb.dinodeOf disk inum) else none

structure Sound (nodes : Nodes) (disk : Disk) : Prop where
  owned : Owned (refs nodes disk) (sb.bitOf disk) sb.dataStart sb.size sb.mapBits
  filled : ∀ i d, nodes i = some d → ∀ bn, bn * bsize < d.size → d.ref disk (placeOf bn) ≠ 0
  sized : ∀ i d, nodes i = some d → d.size ≤ maxFile * bsize

end Superblock

variable {sb : Superblock} {nodes : Nodes} {disk disk' : Disk} {i b : Nat} {d : Dinode}

theorem placeOf_ne_indirect (bn : Nat) : placeOf bn ≠ .indirect := by
  rw [placeOf]
  split <;> simp

theorem placeOf_inj {bn other : Nat} (bound : bn < maxFile) (also : other < maxFile)
    (same : placeOf bn = placeOf other) : bn = other := by
  simp only [maxFile, ndirect, nindirect] at bound also
  by_cases first : bn < ndirect
  · by_cases second : other < ndirect
    · rw [placeOf, placeOf, dif_pos first, dif_pos second] at same
      exact Fin.val_eq_of_eq (Place.direct.inj same)
    · rw [placeOf, placeOf, dif_pos first, dif_neg second] at same
      exact absurd same (by simp)
  by_cases second : other < ndirect
  · rw [placeOf, placeOf, dif_neg first, dif_pos second] at same
    exact absurd same (by simp)
  rw [placeOf, placeOf, dif_neg first, dif_neg second] at same
  have values := Fin.val_eq_of_eq (Place.entry.inj same)
  simp only [ndirect, nindirect] at first second values
  omega

theorem refs_some (found : nodes i = some d) (place : Place) :
    refs nodes disk (i, place) = d.ref disk place := by
  simp [refs, found]

theorem refs_update_ne {j : Nat} {node : Option Dinode} (other : j ≠ i) (place : Place) :
    refs (update nodes i node) disk (j, place) = refs nodes disk (j, place) := by
  simp [refs, update_of_ne other]

theorem Dinode.ref_congr (same : d.ind ≠ 0 → disk' d.ind = disk d.ind) (place : Place) :
    d.ref disk' place = d.ref disk place := by
  cases place with
  | direct _ | indirect => rfl
  | entry j =>
    simp only [Dinode.ref]
    by_cases none : d.ind = 0
    · simp [none]
    · simp [none, same none]

theorem refs_congr (same : ∀ j e, nodes j = some e → e.ind ≠ 0 → disk' e.ind = disk e.ind) :
    refs nodes disk' = refs nodes disk := by
  funext ⟨j, place⟩
  simp only [refs]
  cases found : nodes j with
  | none => rfl
  | some e => exact e.ref_congr (same j e found) place

namespace Superblock

theorem nodeOf_congr (same : ∀ inum < sb.ninodes, sb.dinodeOf disk' inum = sb.dinodeOf disk inum) :
    sb.nodeOf disk' = sb.nodeOf disk := by
  funext inum
  by_cases bound : inum < sb.ninodes
  · simp only [nodeOf, same inum bound]
  · simp [nodeOf, bound]

theorem nodeOf_data {place : Nat} {block : Block} (data : sb.dataStart ≤ place) :
    sb.nodeOf (update disk place block) = sb.nodeOf disk :=
  nodeOf_congr fun _ bound => dinodeOf_outside bound (iblock_ne_data data bound)

theorem nodeOf_markBlock : sb.nodeOf (sb.markBlock disk b) = sb.nodeOf disk :=
  nodeOf_congr fun _ bound => dinodeOf_outside bound (iblock_ne_bblock bound).symm

theorem nodeOf_putDinode (bound : i < sb.ninodes) (fits : d.Fits) :
    sb.nodeOf (sb.putDinode disk i d) =
      update (sb.nodeOf disk) i (if d.type ≠ 0 then some d else none) := by
  funext j
  rw [nodeOf, dinodeOf_putDinode fits]
  obtain rfl | same := eq_or_ne j i
  · simp [bound]
  · simp [update_of_ne same, nodeOf]

theorem nodeOf_eq_some (found : sb.nodeOf disk i = some d) :
    i < sb.ninodes ∧ d.type ≠ 0 ∧ sb.dinodeOf disk i = d := by
  rw [nodeOf] at found
  split at found
  · next both =>
    cases found
    exact ⟨both.1, both.2, rfl⟩
  · exact absurd found (by simp)

theorem Sound.ind_data (sound : sb.Sound nodes disk) (found : nodes i = some d) (some : d.ind ≠ 0) :
    sb.dataStart ≤ d.ind ∧ d.ind < sb.size := by
  have range := sound.owned.range (i, .indirect)
  rw [refs_some found] at range
  exact range some

theorem Sound.congr (sound : sb.Sound nodes disk)
    (data : ∀ place, sb.dataStart ≤ place → disk' place = disk place)
    (bits : ∀ c < sb.mapBits, sb.bitOf disk' c = sb.bitOf disk c) : sb.Sound nodes disk' := by
  have blocks : ∀ j e, nodes j = some e → e.ind ≠ 0 → disk' e.ind = disk e.ind :=
    fun j e found some => data _ (sound.ind_data found some).1
  refine ⟨sound.owned.congr (fun site => by rw [refs_congr blocks]) bits, fun j e found bn low => ?_,
    sound.sized⟩
  rw [e.ref_congr (blocks j e found)]
  exact sound.filled j e found bn low

/-! A block taken from the map, zeroed, and put into an empty place. -/

def allocated (sb : Superblock) (disk : Disk) (b : Nat) : Disk :=
  update (sb.markBlock disk b) b fun _ => 0

theorem allocated_data {place : Nat} (inside : b < sb.size) (data : sb.dataStart ≤ place)
    (other : place ≠ b) : sb.allocated disk b place = disk place := by
  have covered : sb.size ≤ sb.mapBits := size_le_mapBits
  rw [allocated, update_of_ne other, markBlock_data data (by omega)]

section Allocated

variable (sound : sb.Sound nodes disk) (free : sb.bitOf disk b = false) (inside : b < sb.size)
include sound free inside

theorem Sound.fresh : sb.dataStart ≤ b ∧ ∀ site, refs nodes disk site ≠ b := by
  have covered : sb.size ≤ sb.mapBits := size_le_mapBits
  have positive : 0 < sb.dataStart := dataStart_pos
  obtain ⟨low, nowhere⟩ := sound.owned.fresh free (by omega)
  refine ⟨low, fun site there => ?_⟩
  have zero := nowhere site there
  omega

theorem Sound.bitOf_allocated {c : Nat} (bound : c < sb.mapBits) :
    sb.bitOf (sb.allocated disk b) c = update (sb.bitOf disk) b true c := by
  rw [allocated, bitOf_data (sound.fresh free inside).1 bound, bitOf_markBlock]

theorem Sound.nodeOf_allocated : sb.nodeOf (sb.allocated disk b) = sb.nodeOf disk := by
  rw [allocated, nodeOf_data (sound.fresh free inside).1, nodeOf_markBlock]

theorem Sound.ind_allocated {j : Nat} {e : Dinode} (found : nodes j = some e) (some : e.ind ≠ 0) :
    sb.allocated disk b e.ind = disk e.ind := by
  have apart := (sound.fresh free inside).2 (j, .indirect)
  rw [refs_some found] at apart
  exact allocated_data inside (sound.ind_data found some).1 apart

theorem Sound.refs_allocated : refs nodes (sb.allocated disk b) = refs nodes disk :=
  refs_congr fun _ _ found some => sound.ind_allocated free inside found some

theorem Sound.attach {d' : Dinode} {place : Place} (found : nodes i = some d)
    (empty : d.ref disk place = 0)
    (units : refs (update nodes i (some d')) disk' =
      update (refs nodes disk) (i, place) b)
    (bits : ∀ c < sb.mapBits, sb.bitOf disk' c = update (sb.bitOf disk) b true c)
    (size : d'.size = d.size) : sb.Sound (update nodes i (some d')) disk' := by
  have covered : sb.size ≤ sb.mapBits := size_le_mapBits
  have start := (sound.fresh free inside).1
  have positive : 0 < sb.dataStart := dataStart_pos
  have hole : refs nodes disk (i, place) = 0 := by rw [refs_some found, empty]
  have keeps : ∀ site, refs nodes disk site ≠ 0 →
      refs (update nodes i (some d')) disk' site ≠ 0 := by
    intro site some
    rw [units]
    by_cases here : site = (i, place)
    · rw [here, update_self]
      omega
    · rwa [update_of_ne here]
  refine ⟨?_, fun j e there bn low => ?_, fun j e there => ?_⟩
  · exact (sound.owned.take free inside covered positive hole).congr (fun site => by rw [units]) bits
  · obtain rfl | same := eq_or_ne j i
    · rw [update_self] at there
      cases there
      have before := sound.filled j d found bn (size ▸ low)
      have after := keeps (j, placeOf bn) (by rwa [refs_some found])
      rwa [refs_some (update_self ..)] at after
    · rw [update_of_ne same] at there
      have after := keeps (j, placeOf bn) (by rw [refs_some there]; exact sound.filled j e there bn low)
      rwa [refs_update_ne same, refs_some there] at after
  · obtain rfl | same := eq_or_ne j i
    · rw [update_self] at there
      cases there
      rw [size]
      exact sound.sized j d found
    · rw [update_of_ne same] at there
      exact sound.sized j e there

end Allocated

end Superblock

/-! What allocation does not touch: the blocks of file contents already in place. -/

def Keeps (nodes : Nodes) (disk : Disk) (nodes' : Nodes) (disk' : Disk) : Prop :=
  ∀ i place, place ≠ Place.indirect → refs nodes disk (i, place) ≠ 0 →
    refs nodes' disk' (i, place) = refs nodes disk (i, place) ∧
      disk' (refs nodes disk (i, place)) = disk (refs nodes disk (i, place))

theorem Keeps.refl (nodes : Nodes) (disk : Disk) : Keeps nodes disk nodes disk :=
  fun _ _ _ _ => ⟨rfl, rfl⟩

theorem Keeps.trans {nodes' nodes'' : Nodes} {disk'' : Disk} (first : Keeps nodes disk nodes' disk')
    (second : Keeps nodes' disk' nodes'' disk'') : Keeps nodes disk nodes'' disk'' := by
  intro i place data some
  obtain ⟨ref, block⟩ := first i place data some
  obtain ⟨ref', block'⟩ := second i place data (by rwa [ref])
  rw [ref] at ref' block'
  exact ⟨ref', block'.trans block⟩

theorem Keeps.byte {nodes' : Nodes} {d' : Dinode} {off : Nat} (keeps : Keeps nodes disk nodes' disk')
    (found : nodes i = some d) (found' : nodes' i = some d')
    (some : d.ref disk (placeOf (off / bsize)) ≠ 0) : d'.byte disk' off = d.byte disk off := by
  have kept := keeps i (placeOf (off / bsize)) (placeOf_ne_indirect _) (by rwa [refs_some found])
  rw [refs_some found, refs_some found'] at kept
  rw [Dinode.byte, Dinode.byte, kept.1, kept.2]

def Dinode.withAddr (d : Dinode) (k : Fin (ndirect + 1)) (addr : Nat) : Dinode :=
  { d with addrs := update d.addrs k addr }

theorem Dinode.ref_withAddr_direct (k : Fin ndirect) (addr : Nat) :
    (d.withAddr k.castSucc addr).ref disk = update (d.ref disk) (.direct k) addr := by
  have ind : (d.withAddr k.castSucc addr).ind = d.ind :=
    update_of_ne (Fin.castSucc_ne_last k).symm _ _
  funext place
  cases place with
  | direct other =>
    obtain rfl | same := eq_or_ne other k
    · simp [Dinode.ref, Dinode.withAddr]
    · rw [update_of_ne (by simpa using same)]
      simp only [Dinode.ref, Dinode.withAddr]
      rw [update_of_ne fun equal => same (Fin.castSucc_injective _ equal)]
  | indirect => simpa [Dinode.ref] using ind
  | entry j => simp [Dinode.ref, ind]

theorem Dinode.ref_withAddr_indirect {addr : Nat} (none : d.ind = 0) (zeroed : disk addr = fun _ => 0) :
    (d.withAddr (Fin.last ndirect) addr).ref disk = update (d.ref disk) .indirect addr := by
  have ind : (d.withAddr (Fin.last ndirect) addr).ind = addr := by
    simp [Dinode.ind, Dinode.withAddr]
  funext place
  cases place with
  | direct k =>
    rw [update_of_ne (by simp)]
    simp only [Dinode.ref, Dinode.withAddr]
    rw [update_of_ne (Fin.castSucc_ne_last k)]
  | indirect => simpa [Dinode.ref] using ind
  | entry j => simp [Dinode.ref, ind, none, zeroed, load_zero]

theorem Dinode.ref_store {addr : Nat} (j : Fin nindirect) (some : d.ind ≠ 0) (fits : addr < 2 ^ 32) :
    d.ref (update disk d.ind (store (disk d.ind) (4 * j) addr 4)) =
      update (d.ref disk) (.entry j) addr := by
  funext place
  cases place with
  | direct _ | indirect => rfl
  | entry other =>
    simp only [Dinode.ref, some, if_false, update_self]
    obtain rfl | same := eq_or_ne other j
    · rw [update_self, load_store_of_lt fits]
    · have apart : (other : Nat) ≠ j := Fin.val_ne_of_ne same
      rw [update_of_ne (by simpa using same), load_store_disjoint (by omega)]
      simp [Dinode.ref, some]

theorem refs_update {d' : Dinode} {place : Place} (found : nodes i = some d)
    (others : ∀ j ≠ i, ∀ q, refs nodes disk' (j, q) = refs nodes disk (j, q))
    (mine : d'.ref disk' = update (d.ref disk) place b) :
    refs (update nodes i (some d')) disk' =
      update (refs nodes disk) (i, place) b := by
  funext ⟨j, q⟩
  obtain rfl | same := eq_or_ne j i
  · rw [refs_some (update_self ..), mine]
    by_cases here : q = place
    · rw [here, update_self, update_self]
    · rw [update_of_ne here, update_of_ne (by simpa using here), refs_some found]
  · rw [refs_update_ne same, others j same q, update_of_ne (by simp [same])]

namespace Superblock

theorem keeps_of_units {d' : Dinode} {place : Place} (found : nodes i = some d) (empty : d.ref disk place = 0)
    (units : refs (update nodes i (some d')) disk' =
      update (refs nodes disk) (i, place) b)
    (blocks : ∀ site, site.2 ≠ Place.indirect → refs nodes disk site ≠ 0 →
      disk' (refs nodes disk site) = disk (refs nodes disk site)) :
    Keeps nodes disk (update nodes i (some d')) disk' := by
  intro j q data some
  refine ⟨?_, blocks (j, q) data some⟩
  rw [units, update_of_ne]
  intro here
  obtain ⟨rfl, rfl⟩ := Prod.mk.inj here
  rw [refs_some found] at some
  exact some empty

theorem Sound.block_allocated (sound : sb.Sound nodes disk) (free : sb.bitOf disk b = false)
    (inside : b < sb.size) (site : Nat × Place) (some : refs nodes disk site ≠ 0) :
    sb.allocated disk b (refs nodes disk site) = disk (refs nodes disk site) :=
  allocated_data inside (sound.owned.range site some).1 ((sound.fresh free inside).2 site)

section Attach

variable (sound : sb.Sound nodes disk) (free : sb.bitOf disk b = false) (inside : b < sb.size)
variable (found : nodes i = some d)
include sound free inside found

theorem Sound.attach_addr {k : Fin (ndirect + 1)} (place : Place) (hole : d.ref disk place = 0)
    (ref : (d.withAddr k b).ref (sb.allocated disk b) = update (d.ref (sb.allocated disk b)) place b) :
    sb.Sound (update nodes i (some (d.withAddr k b))) (sb.allocated disk b) ∧
      Keeps nodes disk (update nodes i (some (d.withAddr k b))) (sb.allocated disk b) ∧
      refs (update nodes i (some (d.withAddr k b))) (sb.allocated disk b) = update (refs nodes disk) (i, place) b := by
  have units : refs (update nodes i (some (d.withAddr k b))) (sb.allocated disk b) = update (refs nodes disk) (i, place) b := by
    refine refs_update found (fun j _ q => by rw [sound.refs_allocated free inside]) ?_
    rw [ref]
    congr 1
    funext q
    exact d.ref_congr (sound.ind_allocated free inside found) q
  exact ⟨sound.attach free inside found hole units
      (fun c bound => sound.bitOf_allocated free inside bound) rfl,
    keeps_of_units found hole units
      (fun site _ some => sound.block_allocated free inside site some), units⟩

def withEntry (sb : Superblock) (disk : Disk) (ind j b : Nat) : Disk :=
  update (sb.allocated disk b) ind (store (disk ind) (4 * j) b 4)

theorem Sound.attach_entry (j : Fin nindirect) (some : d.ind ≠ 0) (empty : d.ref disk (.entry j) = 0) :
    sb.Sound nodes (sb.withEntry disk d.ind j b) ∧
      Keeps nodes disk nodes (sb.withEntry disk d.ind j b) ∧
      refs nodes (sb.withEntry disk d.ind j b) = update (refs nodes disk) (i, .entry j) b := by
  have small := sb.small
  have same : update nodes i (Option.some d) = nodes := by
    rw [← found, update_eq_self]
  have data := (sound.ind_data found some).1
  have units : refs (update nodes i (Option.some d)) (sb.withEntry disk d.ind j b) =
      update (refs nodes disk) (i, .entry j) b := by
    refine refs_update found (fun j' other q => ?_) ?_
    · cases there : nodes j' with
      | none => simp [refs, there]
      | some e =>
        rw [refs_some there, refs_some there]
        refine e.ref_congr (fun some' => ?_) q
        have apart : e.ind ≠ d.ind := by
          intro equal
          have clash := sound.owned.distinct (j', .indirect) (i, .indirect)
            (by rw [refs_some there]; exact some') (by rw [refs_some there, refs_some found]; exact equal)
          exact other (Prod.mk.inj clash).1
        rw [withEntry, update_of_ne apart, sound.ind_allocated free inside there some']
    · have block := sound.ind_allocated free inside found some
      rw [withEntry, ← block, Dinode.ref_store j some (by omega)]
      congr 1
      funext q
      exact d.ref_congr (fun _ => block) q
  have bits : ∀ c < sb.mapBits, sb.bitOf (sb.withEntry disk d.ind j b) c =
      update (sb.bitOf disk) b true c := by
    intro c bound
    rw [withEntry, bitOf_data data bound, sound.bitOf_allocated free inside bound]
  have blocks : ∀ site, site.2 ≠ Place.indirect → refs nodes disk site ≠ 0 →
      sb.withEntry disk d.ind j b (refs nodes disk site) = disk (refs nodes disk site) := by
    intro site notInd some'
    have apart : refs nodes disk site ≠ d.ind := by
      intro equal
      have clash := sound.owned.distinct site (i, .indirect) some'
        (by rw [refs_some found]; exact equal)
      exact notInd (by rw [clash])
    rw [withEntry, update_of_ne apart, sound.block_allocated free inside site some']
  have attached := sound.attach free inside found empty units bits rfl
  have keeps := keeps_of_units found empty units blocks
  rw [same] at attached keeps units
  exact ⟨attached, keeps, units⟩

end Attach

end Superblock

end Xv6.Fs
