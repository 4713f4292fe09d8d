import Xv6.Fs.Content
import Xv6.Fs.Syscall

/-!
The inode table against the disk. A slot with references stands for one inode number, no
other slot with references stands for the same one, and a valid copy is what the disk has.
-/

namespace Xv6.Fs

open Function Superblock
open Lib.Bytes Lib.Hoare

structure Coherent (sb : Superblock) (nodes : Nodes) (itable : Nat → Slot) : Prop where
  inside : ∀ ip, 0 < (itable ip).ref → ip < ninode
  inum : ∀ ip, 0 < (itable ip).ref → (itable ip).inum < sb.ninodes
  unique : ∀ ip jp, 0 < (itable ip).ref → 0 < (itable jp).ref →
    (itable ip).inum = (itable jp).inum → ip = jp
  synced : ∀ ip, 0 < (itable ip).ref → (itable ip).valid = true →
    nodes (itable ip).inum = some (itable ip).d

structure Good (sb : Superblock) (st : State) : Prop where
  sound : sb.Sound (sb.nodeOf st.disk) st.disk
  table : Coherent sb (sb.nodeOf st.disk) st.itable

variable {sb : Superblock} {st : State} {stop : Stop → Prop} {ip : Nat}

variable {nodes : Nodes} {itable : Nat → Slot} {disk : Disk}

theorem Coherent.set {nodes' : Nodes} (coherent : Coherent sb nodes itable)
    {value : Slot} (inside : 0 < value.ref → ip < ninode)
    (inum : 0 < value.ref → value.inum < sb.ninodes)
    (alone : 0 < value.ref → ∀ jp, jp ≠ ip → 0 < (itable jp).ref → (itable jp).inum ≠ value.inum)
    (synced : 0 < value.ref → value.valid = true → nodes' value.inum = some value.d)
    (others : ∀ jp, jp ≠ ip → 0 < (itable jp).ref → (itable jp).valid = true →
      nodes' (itable jp).inum = nodes (itable jp).inum) :
    Coherent sb nodes' (update itable ip value) := by
  refine ⟨fun jp => ?_, fun jp => ?_, fun jp kp => ?_, fun jp => ?_⟩
  · obtain rfl | same := eq_or_ne jp ip
    · rw [update_self]
      exact inside
    · rw [update_of_ne same]
      exact coherent.inside jp
  · obtain rfl | same := eq_or_ne jp ip
    · rw [update_self]
      exact inum
    · rw [update_of_ne same]
      exact coherent.inum jp
  · obtain rfl | same := eq_or_ne jp ip
    · by_cases also : kp = jp
      · exact fun _ _ _ => also.symm
      · rw [update_self, update_of_ne also]
        exact fun live live' equal => absurd equal.symm (alone live kp also live')
    rw [update_of_ne same]
    obtain rfl | also := eq_or_ne kp ip
    · rw [update_self]
      exact fun live live' equal => absurd equal (alone live' jp same live)
    · rw [update_of_ne also]
      exact coherent.unique jp kp
  · obtain rfl | same := eq_or_ne jp ip
    · rw [update_self]
      exact synced
    rw [update_of_ne same]
    intro live valid
    rw [others jp same live valid]
    exact coherent.synced jp live valid

theorem Coherent.keep {nodes' : Nodes} (coherent : Coherent sb nodes itable)
    (live : 0 < (itable ip).ref) {value : Slot} (inum : value.inum = (itable ip).inum)
    (synced : 0 < value.ref → value.valid = true → nodes' value.inum = some value.d)
    (others : ∀ j, j ≠ (itable ip).inum → nodes' j = nodes j) :
    Coherent sb nodes' (update itable ip value) := by
  have alone : ∀ jp, jp ≠ ip → 0 < (itable jp).ref → (itable jp).inum ≠ (itable ip).inum :=
    fun jp other live' equal => other (coherent.unique jp ip live' live equal)
  refine coherent.set (fun _ => coherent.inside ip live) (fun _ => ?_) (fun _ jp other live' => ?_)
    synced fun jp other live' _ => others _ (alone jp other live')
  · rw [inum]
    exact coherent.inum ip live
  · rw [inum]
    exact alone jp other live'

structure Opened (sb : Superblock) (st : State) (ip i : Nat) (f : File) : Prop where
  live : 0 < (st.itable ip).ref
  valid : (st.itable ip).valid = true
  inum : (st.itable ip).inum = i
  file : sb.fileOf st.disk i = some f

section Opened

variable {i : Nat} {f : File} (good : Good sb st) (opened : Opened sb st ip i f)
include good opened

theorem Opened.synced : Synced sb st ip := good.table.synced ip opened.live opened.valid

theorem Opened.copy : (st.itable ip).d.file st.disk = f := by
  have file := opened.file
  rw [← opened.inum, fileOf_some (opened.synced good)] at file
  exact Option.some.inj file

theorem Opened.type : (st.itable ip).d.type = f.type := by rw [← opened.copy good, file_type]

theorem Opened.nlink : (st.itable ip).d.nlink = f.nlink := by rw [← opened.copy good, file_nlink]

theorem Opened.size : (st.itable ip).d.size = f.size := by rw [← opened.copy good, file_size]

end Opened

theorem Renewed.good {d : Dinode} {after : State} (good : Good sb st) (live : 0 < (st.itable ip).ref)
    (renewed : Renewed sb st ip d after) : Good sb after := by
  refine ⟨renewed.sound, ?_⟩
  rw [renewed.table, renewed.nodes]
  exact good.table.keep live (copy_inum) (fun _ _ => update_self ..)
    fun j other => update_of_ne other ..

/-- The stops that block ownership does not rule out. -/
def Safe (stop : Stop) : Prop := stop ≠ .panic .freeingFreeBlock

def Slot.got (node : Slot) (inum : Nat) : Slot :=
  { node with inum := inum, ref := node.ref + 1, valid := node.valid && decide (0 < node.ref) }

theorem iget_ends (good : Good sb st) {inum : Nat} (bound : inum < sb.ninodes) :
    Ends (iget inum) st Safe fun r after => after = st.put r ((st.itable r).got inum) ∧
      (0 < (st.itable r).ref → (st.itable r).inum = inum) ∧ Good sb after := by
  have coherent := good.table
  simp only [iget, ends_bind, ends_get]
  split
  · next r found =>
    have hit := List.find?_some found
    simp only [decide_eq_true_eq] at hit
    obtain ⟨live, same⟩ := hit
    have value : { st.itable r with ref := (st.itable r).ref + 1 } = (st.itable r).got inum := by
      simp [Slot.got, live, same]
    simp only [ends_setSlot, ends_bind, ends_pure]
    rw [value]
    refine ⟨rfl, fun _ => same, good.sound, coherent.keep live same.symm (fun _ valid => ?_) fun _ _ => rfl⟩
    simp only [Slot.got, live, decide_true, Bool.and_true] at valid ⊢
    rw [← same]
    exact coherent.synced r live valid
  · next missing =>
    have nowhere : ∀ jp, 0 < (st.itable jp).ref → (st.itable jp).inum ≠ inum := by
      intro jp live same
      have miss := List.find?_eq_none.mp missing jp (List.mem_range.mpr (coherent.inside jp live))
      exact miss (by simp [live, same])
    split
    · next r found =>
      have empty := List.find?_some found
      simp only [decide_eq_true_eq] at empty
      have inside := List.mem_range.mp (List.mem_of_find?_eq_some found)
      have value : { st.itable r with inum := inum, ref := 1, valid := false } =
          (st.itable r).got inum := by
        simp [Slot.got, empty]
      simp only [ends_setSlot, ends_bind, ends_pure]
      rw [value]
      refine ⟨rfl, fun live => absurd empty (by omega), good.sound, coherent.set (fun _ => inside)
        (fun _ => bound) (fun _ jp _ live => nowhere jp live) (fun _ valid => ?_) fun _ _ _ _ => rfl⟩
      simp [Slot.got, empty] at valid
    · rw [ends_throw]
      simp [Safe]

section Held

variable (good : Good sb st) (live : 0 < (st.itable ip).ref)
include good live

theorem Good.put {value : Slot} (inum : value.inum = (st.itable ip).inum)
    (valid : value.valid = (st.itable ip).valid) (copy : value.d = (st.itable ip).d) :
    Good sb (st.put ip value) := by
  refine ⟨good.sound, good.table.keep live inum (fun _ now => ?_) fun _ _ => rfl⟩
  rw [inum, copy]
  exact good.table.synced ip live (valid ▸ now)

theorem idup_ends : Ends (idup ip) st stop fun r after => r = ip ∧
    after = st.put ip { st.itable ip with ref := (st.itable ip).ref + 1 } ∧ Good sb after := by
  simp only [idup, ends_bind, ends_slot, ends_setSlot, ends_pure, true_and]
  exact good.put live rfl rfl rfl

theorem iunlock_ends : Ends (iunlock ip) st Safe fun _ after =>
    after = st.put ip { st.itable ip with locked := false } ∧ Good sb after := by
  simp only [iunlock, ends_bind, ends_slot]
  split
  · rw [ends_throw]
    simp [Safe]
  · rw [ends_setSlot]
    exact ⟨rfl, good.put live rfl rfl rfl⟩

theorem ilock_ends : Ends (ilock sb ip) st Safe fun _ after => ∃ d,
    after = st.put ip { st.itable ip with locked := true, valid := true, d := d } ∧
      sb.nodeOf st.disk (st.itable ip).inum = some d ∧ (st.itable ip).locked = false ∧ Good sb after := by
  have bound := good.table.inum ip live
  simp only [ilock, ends_bind, ends_slot]
  split
  · rw [ends_throw]
    simp [Safe]
  split
  · rw [ends_throw]
    simp [Safe]
  next unlocked =>
    have free : (st.itable ip).locked = false := by simpa using unlocked
    split
    · next valid =>
      have synced := good.table.synced ip live valid
      rw [ends_setSlot]
      refine ⟨_, ?_, synced, free, good.put live rfl rfl rfl⟩
      rw [← valid]
    simp only [ends_bind, ends_bread, ends_setSlot]
    split
    · rw [ends_throw]
      simp [Safe]
    next used =>
    have loaded : sb.nodeOf st.disk (st.itable ip).inum =
        some (sb.dinodeOf st.disk (st.itable ip).inum) := if_pos ⟨bound, used⟩
    rw [ends_pure]
    exact ⟨_, rfl, loaded, free, good.sound,
      good.table.keep live rfl (fun _ _ => loaded) fun _ _ => rfl⟩

end Held

theorem ilock_valid (live : 0 < (st.itable ip).ref) (valid : (st.itable ip).valid = true)
    (unlocked : (st.itable ip).locked = false) :
    Ends (ilock sb ip) st stop fun _ after => after = st.put ip { st.itable ip with locked := true } := by
  rw [ilock, ends_bind, ends_slot, if_neg (by omega), unlocked, if_neg Bool.false_ne_true, valid, if_pos rfl, ends_setSlot,
    ← valid]

theorem Superblock.Sound.blank {i : Nat} {node : Option Dinode}
    (sound : sb.Sound nodes disk) (none : ∀ place, refs nodes disk (i, place) = 0)
    (blank : ∀ d, node = some d → d.size = 0 ∧ ∀ place, d.ref disk place = 0) :
    sb.Sound (update nodes i node) disk := by
  refine ⟨sound.owned.congr (fun ⟨j, place⟩ => ?_) fun _ _ => rfl, fun j e found bn low => ?_,
    fun j e found => ?_⟩
  · obtain rfl | same := eq_or_ne j i
    · rw [none place]
      cases value : node with
      | none => simp [refs]
      | some d => rw [refs_some (update_self ..), (blank d value).2 place]
    · exact refs_update_ne same place
  · obtain rfl | same := eq_or_ne j i
    · rw [update_self] at found
      rw [(blank e found).1] at low
      exact absurd low (Nat.not_lt_zero _)
    · rw [update_of_ne same] at found
      exact sound.filled j e found bn low
  · obtain rfl | same := eq_or_ne j i
    · rw [update_self] at found
      rw [(blank e found).1]
      exact Nat.zero_le _
    · rw [update_of_ne same] at found
      exact sound.sized j e found

def Superblock.freed (sb : Superblock) (disk : Disk) (i : Nat) : Disk :=
  update disk (sb.iblock i) (store (disk (sb.iblock i)) (i % ipb * dinodeSize) 0 2)

theorem Superblock.type_freed (disk : Disk) (i : Nat) : (sb.dinodeOf (sb.freed disk i) i).type = 0 := by
  rw [dinodeOf, freed, update_self]
  exact load_store_of_lt (by decide)

theorem Superblock.dinodeOf_freed {i j : Nat} (other : j ≠ i) :
    sb.dinodeOf (sb.freed disk i) j = sb.dinodeOf disk j := by
  rw [dinodeOf, dinodeOf, freed]
  by_cases block : sb.iblock j = sb.iblock i
  · rw [block, update_self]
    refine loadDinode_congr fun x low high => store_outside ?_
    simp only [iblock, ipb, dinodeSize] at block low high ⊢
    omega
  · rw [update_of_ne block]

theorem Superblock.nodeOf_freed (disk : Disk) (i : Nat) :
    sb.nodeOf (sb.freed disk i) = update (sb.nodeOf disk) i none := by
  funext j
  obtain rfl | same := eq_or_ne j i
  · rw [update_self, nodeOf, if_neg fun both => both.2 (type_freed disk j)]
  · rw [update_of_ne same, nodeOf, nodeOf, dinodeOf_freed same]

theorem Superblock.freed_data {i place : Nat} (bound : i < sb.ninodes) (low : sb.dataStart ≤ place) :
    sb.freed disk i place = disk place :=
  update_of_ne (iblock_ne_data low bound) ..

theorem Superblock.bitOf_freed {i : Nat} (bound : i < sb.ninodes) (c : Nat) :
    sb.bitOf (sb.freed disk i) c = sb.bitOf disk c := by
  rw [bitOf, bitOf, freed,
    update_of_ne (iblock_ne_bblock bound).symm]

@[simp] theorem ends_ifree {i : Nat} {post : Unit → State → Prop} :
    Ends (ifree sb i) st stop post ↔
      post () { st with disk := sb.freed st.disk i, logged := sb.iblock i :: st.logged } := Iff.rfl

theorem itrunc_renews (good : Good sb st) (live : 0 < (st.itable ip).ref)
    (valid : (st.itable ip).valid = true) :
    Ends (itrunc sb ip) st stop fun _ after => Renewed sb st ip (st.itable ip).d.empty after := by
  have synced := good.table.synced ip live valid
  obtain ⟨bound, used, stored⟩ := nodeOf_eq_some synced
  have fits : (st.itable ip).d.Fits := stored ▸ sb.dinodeOf_fits st.disk _
  have working : Working sb st ip = sb.nodeOf st.disk := update_eq_self_iff.mpr synced.symm
  refine (itrunc_ends (working ▸ good.sound) bound fits used).mono fun _ after facts => ?_
  obtain ⟨table, nodes, sound, data⟩ := facts
  exact ⟨table, nodes, sound, fileOf_update nodes fun j e _ found => good.sound.file_data data found⟩

/-- What became of slot `ip` and its inode when `iput` dropped the last reference to an
inode without links. -/
structure Freed (sb : Superblock) (st : State) (ip : Nat) (after : State) : Prop where
  last : (st.itable ip).ref = 1 ∧ (st.itable ip).valid = true ∧ (st.itable ip).d.nlink = 0
  slot : (after.itable ip).ref = 0 ∧ (after.itable ip).inum = (st.itable ip).inum ∧
    (after.itable ip).locked = (st.itable ip).locked
  others : ∀ jp, jp ≠ ip → after.itable jp = st.itable jp
  files : sb.fileOf after.disk = update (sb.fileOf st.disk) (st.itable ip).inum none

theorem iput_frees (good : Good sb st) (live : 0 < (st.itable ip).ref)
    (last : (st.itable ip).ref = 1 ∧ (st.itable ip).valid = true ∧ (st.itable ip).d.nlink = 0) :
    Ends (iput sb ip) st Safe fun _ after => Good sb after ∧ Freed sb st ip after := by
  rw [iput, ends_bind, ends_slot, if_pos last]
  split
  · rw [ends_throw]
    simp [Safe]
  refine (itrunc_renews good live last.2.1).seq fun _ middle renewed => ?_
  have good' := renewed.good good live
  have mine : middle.itable ip = (st.itable ip).copy (st.itable ip).d.empty := by
    rw [renewed.table, update_self]
  have bound : (middle.itable ip).inum < sb.ninodes := by
    rw [mine]
    exact good.table.inum ip live
  simp only [ends_bind, ends_slot, ends_setSlot, ends_ifree, put_disk]
  have nodes : sb.nodeOf (sb.freed middle.disk (middle.itable ip).inum) =
      update (sb.nodeOf middle.disk) (middle.itable ip).inum none :=
    nodeOf_freed _ _
  have data : ∀ place, sb.dataStart ≤ place →
      sb.freed middle.disk (middle.itable ip).inum place = middle.disk place :=
    fun place low => freed_data bound low
  have there : sb.nodeOf middle.disk (middle.itable ip).inum = some (st.itable ip).d.empty := by
    rw [renewed.nodes, mine]
    exact update_self ..
  refine ⟨⟨?_, ?_⟩, last, ⟨?_, ?_, ?_⟩, fun jp other => ?_, ?_⟩
  · rw [nodes]
    refine (good'.sound.congr data fun c _ => bitOf_freed bound c).blank (fun place => ?_) (by simp)
    rw [refs_some there, Dinode.ref_empty]
  · rw [nodes]
    refine good'.table.keep (by rw [mine]; exact live) rfl (fun _ valid => absurd valid (by simp))
      fun j other => update_of_ne other ..
  · rw [put_self, mine]
    exact Nat.sub_eq_zero_of_le last.1.le
  · rw [put_self, mine]
    rfl
  · rw [put_self, mine]
    rfl
  · rw [put_other other, renewed.table, update_of_ne other]
  · have files := fileOf_update nodes fun j e _ found => good'.sound.file_data data found
    rw [files, renewed.files, mine, Option.map_none]
    exact update_idem ..

theorem iput_drops
    (kept : ¬ ((st.itable ip).ref = 1 ∧ (st.itable ip).valid = true ∧ (st.itable ip).d.nlink = 0)) :
    Ends (iput sb ip) st stop fun _ after => after = st.put ip { st.itable ip with ref := (st.itable ip).ref - 1 } := by
  rw [iput, ends_bind, ends_slot, if_neg kept, ends_setSlot]

theorem iput_ends (good : Good sb st) (live : 0 < (st.itable ip).ref) :
    Ends (iput sb ip) st Safe fun _ after => Good sb after ∧
      (after = st.put ip { st.itable ip with ref := (st.itable ip).ref - 1 } ∨ Freed sb st ip after) := by
  by_cases last : (st.itable ip).ref = 1 ∧ (st.itable ip).valid = true ∧ (st.itable ip).d.nlink = 0
  · exact (iput_frees good live last).mono fun _ _ facts => ⟨facts.1, .inr facts.2⟩
  · refine (iput_drops last).mono fun _ after same => ?_
    rw [same]
    exact ⟨good.put live rfl rfl rfl, .inl rfl⟩

def newFile (type : Nat) : File := ⟨type, 0, 0, 0, 0, fun _ => 0⟩

structure Allocated (sb : Superblock) (st : State) (type i r : Nat) (after : State) : Prop where
  bound : i < sb.ninodes
  free : sb.fileOf st.disk i = none
  slot : after.itable = update st.itable r ((st.itable r).got i)
  hit : 0 < (st.itable r).ref → (st.itable r).inum = i
  files : sb.fileOf after.disk =
    update (sb.fileOf st.disk) i (if type ≠ 0 then some (newFile type) else none)

theorem Coherent.extend (coherent : Coherent sb nodes itable)
    {i : Nat} (free : nodes i = none) (node : Option Dinode) :
    Coherent sb (update nodes i node) itable := by
  refine ⟨coherent.inside, coherent.inum, coherent.unique, fun ip live valid => ?_⟩
  have synced := coherent.synced ip live valid
  rw [update_of_ne, synced]
  rintro rfl
  rw [free] at synced
  exact absurd synced (by simp)

def newDinode (type : Nat) : Dinode := ⟨type, 0, 0, 0, 0, fun _ => 0⟩

theorem newDinode_fits {type : Nat} (narrow : type < 2 ^ 16) : (newDinode type).Fits :=
  ⟨narrow, Nat.two_pow_pos 16, Nat.two_pow_pos 16, Nat.two_pow_pos 16, Nat.two_pow_pos 32,
    fun _ => Nat.two_pow_pos 32⟩

theorem newDinode_file (type : Nat) (disk : Disk) : (newDinode type).file disk = newFile type := by
  simp [Dinode.file, newDinode, newFile]

def State.created (sb : Superblock) (st : State) (type inum : Nat) : State :=
  { st with disk := sb.putDinode st.disk inum (newDinode type), logged := sb.iblock inum :: st.logged }

section Created

variable {type inum : Nat} (good : Good sb st) (narrow : type < 2 ^ 16) (bound : inum < sb.ninodes)
variable (free : sb.nodeOf st.disk inum = none)
include good narrow bound free

theorem created_nodes : sb.nodeOf (st.created sb type inum).disk = update (sb.nodeOf st.disk) inum
    (if type ≠ 0 then some (newDinode type) else none) :=
  nodeOf_putDinode bound (newDinode_fits narrow)

theorem created_good : Good sb (st.created sb type inum) := by
  have nodes := created_nodes good narrow bound free
  constructor
  · rw [nodes]
    refine (good.sound.congr (fun place low => putDinode_data bound low) fun c _ => ?_).blank
      (fun place => by simp [refs, free]) fun d made => ?_
    · exact congrFun (bitOf_putDinode bound) c
    split at made
    · cases made
      exact ⟨rfl, fun place => (newDinode type).ref_empty place⟩
    · exact absurd made (by simp)
  · rw [nodes]
    exact good.table.extend free _

theorem created_files : sb.fileOf (st.created sb type inum).disk =
    update (sb.fileOf st.disk) inum (if type ≠ 0 then some (newFile type) else none) := by
  rw [fileOf_update (created_nodes good narrow bound free) fun j e _ found =>
    good.sound.file_data (fun place low => putDinode_data bound low) found]
  congr 1
  split
  · rw [Option.map_some, newDinode_file]
  · rfl

end Created

theorem iallocFrom_ends (good : Good sb st) {type : Nat} (narrow : type < 2 ^ 16) (fuel inum : Nat) :
    Ends (iallocFrom sb type fuel inum) st Safe fun result after => Good sb after ∧
      ((result = none ∧ after = st) ∨ ∃ i r, result = some r ∧ Allocated sb st type i r after) := by
  induction fuel generalizing inum with
  | zero => exact ⟨good, .inl ⟨rfl, rfl⟩⟩
  | succ fuel ih =>
    rw [iallocFrom]
    split
    · next bound =>
      simp only [ends_bind, ends_bread]
      split
      · next unused =>
        have free : sb.nodeOf st.disk inum = none := if_neg fun both => both.2 unused
        rw [ends_bind, ends_logWrite]
        refine (iget_ends (created_good good narrow bound free) bound).seq fun r after facts => ?_
        obtain ⟨rfl, hit, good'⟩ := facts
        rw [ends_pure]
        refine ⟨good', .inr ⟨inum, r, rfl, bound, ?_, rfl, hit, created_files good narrow bound free⟩⟩
        rw [fileOf, free, Option.map_none]
      · exact ih (inum + 1)
    · exact ⟨good, .inl ⟨rfl, rfl⟩⟩

theorem ialloc_ends (good : Good sb st) {type : Nat} (narrow : type < 2 ^ 16) :
    Ends (ialloc sb type) st Safe fun result after => Good sb after ∧
      ((result = none ∧ after = st) ∨ ∃ i r, result = some r ∧ Allocated sb st type i r after) :=
  iallocFrom_ends good narrow _ _

@[simp] theorem ends_setDinode {change : Dinode → Dinode} {post : Unit → State → Prop} :
    Ends (setDinode ip change) st stop post ↔
      post () (st.put ip ((st.itable ip).copy (change (st.itable ip).d))) := Iff.rfl

theorem update_ends (good : Good sb st) {i : Nat} {f : File} (opened : Opened sb st ip i f)
    {change : Dinode → Dinode} (addrs : (change (st.itable ip).d).addrs = (st.itable ip).d.addrs)
    (size : (change (st.itable ip).d).size = (st.itable ip).d.size)
    (used : (change (st.itable ip).d).type ≠ 0) (fits : (change (st.itable ip).d).Fits) :
    Ends (setDinode ip change >>= fun _ => iupdate sb ip) st stop fun _ after =>
      Renewed sb st ip (change (st.itable ip).d) after ∧
        (change (st.itable ip).d).file after.disk = { f with
          type := (change (st.itable ip).d).type, major := (change (st.itable ip).d).major,
          minor := (change (st.itable ip).d).minor, nlink := (change (st.itable ip).d).nlink } := by
  have synced := opened.synced good
  rw [ends_bind, ends_setDinode]
  have sound : sb.Sound (Working sb (st.put ip ((st.itable ip).copy (change (st.itable ip).d))) ip)
      st.disk := by
    rw [Working, put_self]
    refine good.sound.renew synced addrs ?_ fun bn low => ?_
    · rw [copy_d, size]
      exact good.sound.sized _ _ synced
    · rw [copy_d, size] at low
      exact good.sound.filled _ _ synced bn low
  have table : (st.put ip ((st.itable ip).copy (change (st.itable ip).d))).itable =
      update st.itable ip ((st.itable ip).copy (change (st.itable ip).d)) := rfl
  refine (iupdate_renews table rfl sound (fun _ _ _ _ => rfl) (nodeOf_eq_some synced).1 fits
    used).mono fun _ after facts => ⟨facts.1, ?_⟩
  rw [facts.2.1, ← opened.copy good, put_disk]
  simp only [Dinode.file, size, Dinode.byte_renew addrs]

end Xv6.Fs
