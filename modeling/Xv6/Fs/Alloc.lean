import Xv6.Fs.Refs

/-!
What `balloc`, `bfree`, `bmap` and `itrunc` do to the references. Allocation puts a zeroed
block into a place that was empty; `itrunc` gives back the block of every place of one
inode.
-/

namespace Xv6.Fs

open Function List State Superblock Dinode
open Lib.Bytes Lib.Bitmap Lib.Hoare Lib.Ownership

section Rules

variable {st : State} {stop : Stop → Prop}

@[simp] theorem ends_slot {ip : Nat} {post : Slot → State → Prop} :
    Ends (slot ip) st stop post ↔ post (st.itable ip) st := Iff.rfl

variable {post : Unit → State → Prop} {value node : Slot} {d : Dinode}

@[simp] theorem ends_setSlot {ip : Nat} :
    Ends (setSlot ip value) st stop post ↔ post () (st.put ip value) := Iff.rfl

@[simp] theorem put_disk {ip : Nat} : (st.put ip value).disk = st.disk := rfl

@[simp] theorem put_self {ip : Nat} : (st.put ip value).itable ip = value :=
  update_self ..

theorem put_other {ip jp : Nat} (other : jp ≠ ip) : (st.put ip value).itable jp = st.itable jp :=
  update_of_ne other ..

theorem put_itable {ip : Nat} : (st.put ip value).itable = update st.itable ip value := rfl

def Slot.copy (node : Slot) (d : Dinode) : Slot := { node with d := d }

@[simp] theorem copy_d : (node.copy d).d = d := rfl

@[simp] theorem copy_inum : (node.copy d).inum = node.inum := rfl

@[simp] theorem copy_copy {d' : Dinode} : (node.copy d).copy d' = node.copy d' := rfl

@[simp] theorem ends_setAddr {ip addr : Nat} {k : Fin (ndirect + 1)} : Ends (setAddr ip k addr) st stop post ↔
      post () (st.put ip ((st.itable ip).copy { (st.itable ip).d with
        addrs := update (st.itable ip).d.addrs k addr })) := Iff.rfl

@[simp] theorem ends_setSize {ip size : Nat} : Ends (setSize ip size) st stop post ↔
      post () (st.put ip ((st.itable ip).copy { (st.itable ip).d with size := size })) := Iff.rfl

@[simp] theorem ends_bread {b : Nat} {post : Block → State → Prop} :
    Ends (bread b) st stop post ↔ post (st.disk b) st := Iff.rfl

@[simp] theorem ends_logWrite {b : Nat} {data : Block} : Ends (logWrite b data) st stop post ↔
      post () { st with disk := update st.disk b data, logged := b :: st.logged } := Iff.rfl

end Rules

variable {sb : Superblock} {st : State} {stop : Stop → Prop}

theorem freeBit_spec (sb : Superblock) (data : Block) (b fuel bi : Nat) :
    match freeBit sb data b fuel bi with
    | some k => bi ≤ k ∧ k < bi + fuel ∧ b + k < sb.size ∧ isSet data k = false ∧
      ∀ j, bi ≤ j → j < k → isSet data j = true
    | none => ∀ j, bi ≤ j → j < bi + fuel → b + j < sb.size → isSet data j = true := by
  induction fuel generalizing bi with
  | zero =>
    intro j low high
    omega
  | succ fuel ih =>
    by_cases inside : b + bi < sb.size
    · by_cases set : isSet data bi = true
      · have rest := ih (bi + 1)
        rw [freeBit, if_pos inside, if_pos set]
        cases found : freeBit sb data b fuel (bi + 1) with
        | none =>
          rw [found] at rest
          intro j low high within
          obtain rfl | later := eq_or_ne j bi
          · exact set
          · exact rest j (by omega) (by omega) within
        | some k =>
          rw [found] at rest
          obtain ⟨low, high, within, clear, earlier⟩ := rest
          refine ⟨by omega, by omega, within, clear, fun j above below => ?_⟩
          obtain rfl | later := eq_or_ne j bi
          · exact set
          · exact earlier j (by omega) below
      · rw [freeBit, if_pos inside, if_neg set]
        exact ⟨le_rfl, by omega, inside, by simpa using set, fun j low high => by omega⟩
    · rw [freeBit, if_neg inside]
      intro j low high within
      omega

def State.allocated (sb : Superblock) (st : State) (b : Nat) : State :=
  { st with disk := sb.allocated st.disk b, logged := b :: sb.bblock b :: st.logged }

def Balloced (sb : Superblock) (st : State) (r : Nat) (after : State) : Prop :=
  (r = 0 ∧ after = st ∧ ∀ c < sb.size, sb.bitOf st.disk c = true) ∨
    (r ≠ 0 ∧ r < sb.size ∧ sb.bitOf st.disk r = false ∧ (∀ c < r, sb.bitOf st.disk c = true) ∧
      after = st.allocated sb r)

theorem ballocFrom_ends (boot : sb.bitOf st.disk 0 = true) (fuel b : Nat) (aligned : b % bpb = 0)
    (earlier : ∀ c < b, c < sb.size → sb.bitOf st.disk c = true) (enough : sb.size ≤ b + fuel * bpb) :
    Ends (ballocFrom sb fuel b) st stop (Balloced sb st) := by
  induction fuel generalizing b with
  | zero => exact .inl ⟨rfl, rfl, fun c inside => earlier c (by omega) inside⟩
  | succ fuel ih =>
    rw [ballocFrom]
    split
    · have bits : ∀ k < bpb, sb.bblock (b + k) = sb.bblock b ∧ (b + k) % bpb = k := by
        intro k high
        simp only [bblock, bpb] at aligned high ⊢
        omega
      have before : ∀ k ≤ bpb, (∀ j < k, b + j < sb.size → isSet (st.disk (sb.bblock b)) j = true) →
          ∀ c < b + k, c < sb.size → sb.bitOf st.disk c = true := by
        intro k high set c below inside
        by_cases first : c < b
        · exact earlier c first inside
        obtain ⟨j, rfl⟩ := Nat.exists_eq_add_of_le (Nat.le_of_not_lt first)
        obtain ⟨block, bit⟩ := bits j (by omega)
        rw [bitOf, block, bit]
        exact set j (by omega) inside
      have scanned := freeBit_spec sb (st.disk (sb.bblock b)) b bpb 0
      simp only [ends_bind, ends_bread]
      cases found : freeBit sb (st.disk (sb.bblock b)) b bpb 0 with
      | none =>
        rw [found] at scanned
        rw [Nat.succ_mul] at enough
        refine ih (b + bpb) (by simp [aligned]) (before bpb le_rfl fun j high => ?_) (by omega)
        exact scanned j (Nat.zero_le j) (by omega)
      | some bi =>
        rw [found] at scanned
        obtain ⟨_, high, inside, clear, set⟩ := scanned
        obtain ⟨block, bit⟩ := bits bi (by omega)
        have free : sb.bitOf st.disk (b + bi) = false := by
          rw [bitOf, block, bit, clear]
        have nonzero : b + bi ≠ 0 := by
          intro zero
          rw [zero, boot] at free
          exact Bool.noConfusion free
        have least := before bi (by omega) fun j low _ => set j (Nat.zero_le j) low
        simp only [bzero, ends_bind, ends_logWrite, ends_pure]
        refine .inr ⟨nonzero, inside, free, fun c below => least c below (by omega), ?_⟩
        simp only [State.allocated, Superblock.allocated, markBlock, block, bit]
    · exact .inl ⟨rfl, rfl, fun c inside => earlier c (by omega) inside⟩

theorem balloc_least (boot : sb.bitOf st.disk 0 = true) : Ends (balloc sb) st stop (Balloced sb st) :=
  ballocFrom_ends boot _ 0 rfl (by omega) (by simp only [bpb]; omega)

theorem balloc_ends (boot : sb.bitOf st.disk 0 = true) :
    Ends (balloc sb) st stop fun r after =>
      (r = 0 ∧ after = st) ∨
        (r ≠ 0 ∧ r < sb.size ∧ sb.bitOf st.disk r = false ∧ after = st.allocated sb r) := by
  refine (balloc_least boot).mono fun r after outcome => ?_
  obtain ⟨zero, same, _⟩ | ⟨nonzero, inside, free, _, same⟩ := outcome
  · exact .inl ⟨zero, same⟩
  · exact .inr ⟨nonzero, inside, free, same⟩

theorem bfree_ends {b : Nat} (marked : sb.bitOf st.disk b = true) :
    Ends (bfree sb b) st stop fun _ after =>
      after = { st with disk := sb.unmarkBlock st.disk b, logged := sb.bblock b :: st.logged } := by
  rw [bitOf] at marked
  simp only [bfree, ends_bind, ends_bread, marked, if_true, ends_logWrite]
  rfl

/-- What allocating block `b` did to the disk, and that `bfree` takes it back. -/
structure Marked (sb : Superblock) (st after : State) (b : Nat) : Prop where
  bits : ∀ c < sb.size, sb.bitOf after.disk c = update (sb.bitOf st.disk) b true c
  zeroed : after.disk b = fun _ => 0
  others : ∀ block, block ≠ b → block ≠ sb.bblock b → after.disk block = st.disk block
  restored : ∃ freed, (bfree sb b).run after = .ok ((), freed) ∧
    ∀ c < sb.size, freed.disk (sb.bblock c) = st.disk (sb.bblock c)

theorem marked_allocated {b : Nat} (inside : b < sb.size) (clear : sb.bitOf st.disk b = false)
    (apart : ∀ c < sb.size, sb.bblock c ≠ b) : Marked sb st (st.allocated sb b) b := by
  have map : ∀ c < sb.size, (st.allocated sb b).disk (sb.bblock c) = sb.markBlock st.disk b (sb.bblock c) :=
    fun c low => update_of_ne (apart c low) _ _
  have bits : ∀ c < sb.size, sb.bitOf (st.allocated sb b).disk c = update (sb.bitOf st.disk) b true c := by
    intro c low
    rw [← bitOf_markBlock, bitOf, map c low, bitOf]
  refine ⟨bits, update_self _ _ _, fun block other place => ?_, ?_⟩
  · exact (update_of_ne other _ _).trans (update_of_ne place _ _)
  have marked : sb.bitOf (st.allocated sb b).disk b = true := by rw [bits b inside, update_self]
  refine ⟨_, (bfree_ends marked).run_eq fun _ _ same => ⟨rfl, same⟩, fun c low => ?_⟩
  simp only [unmarkBlock]
  obtain same | other := eq_or_ne (sb.bblock c) (sb.bblock b)
  · rw [same, update_self, map b inside, markBlock, update_self]
    exact clearBit_setBit clear
  · rw [update_of_ne other, map c low, markBlock, update_of_ne other]

/-- `balloc` returns the first block whose bit is clear, or 0 when there is none; unless
the bitmap offers one of its own blocks, only that bit and that block change. -/
theorem balloc_first_free (sb : Superblock) (st : State) (boot : sb.bitOf st.disk 0 = true) :
    ((∀ c < sb.size, sb.bitOf st.disk c = true) → (balloc sb).run st = .ok (0, st)) ∧
    ∀ b < sb.size, sb.bitOf st.disk b = false → (∀ c < b, sb.bitOf st.disk c = true) →
      ∃ after, (balloc sb).run st = .ok (b, after) ∧
        ((∀ c < sb.size, sb.bblock c ≠ b) → Marked sb st after b) := by
  constructor
  · intro full
    refine (balloc_least boot).run_eq fun r after outcome => ?_
    obtain ⟨zero, same, _⟩ | ⟨_, inside, free, _⟩ := outcome
    · exact ⟨zero, same⟩
    · simp [full r inside] at free
  intro b inside clear least
  refine ⟨st.allocated sb b, (balloc_least boot).run_eq fun r after outcome => ?_,
    marked_allocated inside clear⟩
  obtain ⟨_, _, full⟩ | ⟨_, _, free, earlier, same⟩ := outcome
  · simp [full b inside] at clear
  obtain before | rfl | after := Nat.lt_trichotomy r b
  · simp [least r before] at free
  · exact ⟨rfl, same⟩
  · simp [earlier b after] at clear

variable {disk disk' : Disk} {d : Dinode}

theorem Superblock.Sound.boot {nodes : Nodes} (sound : sb.Sound nodes disk) : sb.bitOf disk 0 = true := by
  have positive : 0 < sb.dataStart := dataStart_pos
  have covered : sb.size ≤ sb.mapBits := size_le_mapBits
  have below : sb.dataStart ≤ sb.size := dataStart_le
  exact (sound.owned.exact 0 (by omega)).mpr (.inl positive)

def Working (sb : Superblock) (st : State) (ip : Nat) : Nodes :=
  update (sb.nodeOf st.disk) (st.itable ip).inum (some (st.itable ip).d)

def State.withAddrs (st : State) (ip : Nat) (addrs : Fin (ndirect + 1) → Nat) : Nat → Slot :=
  update st.itable ip ((st.itable ip).copy { (st.itable ip).d with addrs := addrs })

structure Mapped (sb : Superblock) (st : State) (ip bn addr : Nat) (after : State) : Prop where
  table : ∃ addrs, after.itable = st.withAddrs ip addrs
  nodes : sb.nodeOf after.disk = sb.nodeOf st.disk
  sound : sb.Sound (Working sb after ip) after.disk
  keeps : Keeps (Working sb st ip) st.disk (Working sb after ip) after.disk
  value : addr = (after.itable ip).d.ref after.disk (placeOf bn)
  same : (st.itable ip).d.ref st.disk (placeOf bn) ≠ 0 → after = st

section Map

variable {ip bn : Nat}

theorem working_self : Working sb st ip (st.itable ip).inum = some (st.itable ip).d :=
  update_self ..

theorem withAddrs_self : st.withAddrs ip (st.itable ip).d.addrs = st.itable :=
  update_eq_self ..

theorem working_withAddrs {after : State} {addrs : Fin (ndirect + 1) → Nat}
    (table : after.itable = st.withAddrs ip addrs) (nodes : sb.nodeOf after.disk = sb.nodeOf st.disk) :
    Working sb after ip = update (Working sb st ip) (st.itable ip).inum
      (some { (st.itable ip).d with addrs := addrs }) := by
  have mine : after.itable ip = (st.itable ip).copy { (st.itable ip).d with addrs := addrs } := by
    rw [table, withAddrs, update_self]
  rw [Working, Working, mine, nodes, update_idem]
  rfl

theorem Mapped.refl (sound : sb.Sound (Working sb st ip) st.disk) :
    Mapped sb st ip bn ((st.itable ip).d.ref st.disk (placeOf bn)) st where
  table := ⟨_, withAddrs_self.symm⟩
  nodes := rfl
  sound := sound
  keeps := .refl _ _
  value := rfl
  same _ := rfl

theorem Mapped.after {middle after : State} {addr : Nat} {addrs : Fin (ndirect + 1) → Nat}
    (mapped : Mapped sb middle ip bn addr after) (table : middle.itable = st.withAddrs ip addrs)
    (nodes : sb.nodeOf middle.disk = sb.nodeOf st.disk)
    (keeps : Keeps (Working sb st ip) st.disk (Working sb middle ip) middle.disk)
    (none : (st.itable ip).d.ref st.disk (placeOf bn) = 0) : Mapped sb st ip bn addr after where
  table := by
    obtain ⟨addrs', table'⟩ := mapped.table
    refine ⟨addrs', ?_⟩
    rw [table', withAddrs, withAddrs, table, withAddrs, update_self,
      update_idem]
    rfl
  nodes := mapped.nodes.trans nodes
  sound := mapped.sound
  keeps := keeps.trans mapped.keeps
  value := mapped.value
  same some := absurd none some

theorem placeOf_direct (small : bn < ndirect) : placeOf bn = .direct ⟨bn, small⟩ := dif_pos small

theorem placeOf_entry (large : ¬ bn < ndirect) (small : bn - ndirect < nindirect) :
    placeOf bn = .entry ⟨bn - ndirect, small⟩ := by
  rw [placeOf, dif_neg large]
  congr 1
  exact Fin.ext (Nat.mod_eq_of_lt small)

theorem bmapEntry_ends (bn : Nat) (sound : sb.Sound (Working sb st ip) st.disk)
    (some : (st.itable ip).d.ind ≠ 0) (large : ¬ bn < ndirect) (small : bn - ndirect < nindirect) :
    Ends (bmapEntry sb (st.itable ip).d.ind (bn - ndirect)) st stop fun addr after =>
      Mapped sb st ip bn addr after := by
  have place := placeOf_entry large small
  have value : (st.itable ip).d.ref st.disk (placeOf bn) =
      load (st.disk (st.itable ip).d.ind) (4 * (bn - ndirect)) 4 := by
    rw [place]
    simp [ref, some]
  simp only [bmapEntry, ends_bind, ends_bread]
  split
  · next empty =>
    refine (balloc_ends sound.boot).seq fun r middle outcome => ?_
    rcases outcome with ⟨rfl, rfl⟩ | ⟨nonzero, inside, free, rfl⟩
    · rw [if_pos rfl, ends_pure, ← empty, ← value]
      exact .refl sound
    rw [if_neg nonzero]
    simp only [ends_bind, ends_logWrite, ends_pure]
    obtain ⟨sound', keeps, units⟩ := sound.attach_entry free inside working_self
      ⟨bn - ndirect, small⟩ some (by rw [← place, value, empty])
    have data := (sound.ind_data working_self some).1
    have nodes : sb.nodeOf (sb.withEntry st.disk (st.itable ip).d.ind (bn - ndirect) r) =
        sb.nodeOf st.disk := by
      rw [withEntry, nodeOf_data data, sound.nodeOf_allocated free inside]
    have working : ∀ logged, Working sb ⟨sb.withEntry st.disk (st.itable ip).d.ind (bn - ndirect) r,
        st.itable, logged⟩ ip = Working sb st ip := by
      intro logged
      simp only [Working, nodes]
    have stored := congrFun units ((st.itable ip).inum, .entry ⟨bn - ndirect, small⟩)
    rw [update_self, refs_some working_self, ← place] at stored
    exact {
      table := ⟨_, withAddrs_self.symm⟩
      nodes := nodes
      sound := (working _).symm ▸ sound'
      keeps := (working _).symm ▸ keeps
      value := stored.symm
      same := fun filled => absurd (value.trans empty) filled }
  · next there =>
    rw [ends_pure, ← value]
    exact .refl sound

theorem attached_ends (sound : sb.Sound (Working sb st ip) st.disk) {r : Nat}
    {k : Fin (ndirect + 1)} (nonzero : r ≠ 0) (inside : r < sb.size)
    (free : sb.bitOf st.disk r = false)
    (result : sb.Sound (update (Working sb st ip) (st.itable ip).inum
        (some ((st.itable ip).d.withAddr k r))) (sb.allocated st.disk r) ∧
      Keeps (Working sb st ip) st.disk (update (Working sb st ip) (st.itable ip).inum
        (some ((st.itable ip).d.withAddr k r))) (sb.allocated st.disk r)) :
    Ends (setAddr ip k r) (st.allocated sb r) stop fun _ after =>
      after.itable = st.withAddrs ip (update (st.itable ip).d.addrs k r) ∧
        after.disk = sb.allocated st.disk r ∧ sb.nodeOf after.disk = sb.nodeOf st.disk ∧
        sb.Sound (Working sb after ip) after.disk ∧
        Keeps (Working sb st ip) st.disk (Working sb after ip) after.disk := by
  have nodes := sound.nodeOf_allocated free inside
  rw [ends_setAddr]
  have working : Working sb ((st.allocated sb r).put ip ((st.itable ip).copy { (st.itable ip).d with
      addrs := update (st.itable ip).d.addrs k r })) ip =
      update (Working sb st ip) (st.itable ip).inum
        (some ((st.itable ip).d.withAddr k r)) := working_withAddrs rfl nodes
  refine ⟨rfl, rfl, nodes, ?_, ?_⟩
  · exact working.symm ▸ result.1
  · exact working.symm ▸ result.2

theorem bmap_ends (sound : sb.Sound (Working sb st ip) st.disk) (bound : bn < maxFile) :
    Ends (bmap sb ip bn) st stop fun addr after => Mapped sb st ip bn addr after := by
  simp only [bmap, ends_bind, ends_slot]
  split
  · next direct =>
    have place := placeOf_direct direct
    have value : (st.itable ip).d.ref st.disk (placeOf bn) =
        (st.itable ip).d.addrs (Fin.castSucc ⟨bn, direct⟩) := by
      rw [place]
      rfl
    split
    · next empty =>
      have none : (st.itable ip).d.ref st.disk (placeOf bn) = 0 := value.trans empty
      refine (balloc_ends sound.boot).seq fun r middle outcome => ?_
      rcases outcome with ⟨rfl, rfl⟩ | ⟨nonzero, inside, free, rfl⟩
      · rw [if_pos rfl, ends_pure, ← none]
        exact .refl sound
      rw [if_neg nonzero]
      obtain ⟨attached, kept, _⟩ := sound.attach_addr free inside working_self (.direct ⟨bn, direct⟩) empty
        (ref_withAddr_direct ⟨bn, direct⟩ _)
      refine (attached_ends sound nonzero inside free ⟨attached, kept⟩).seq fun _ after facts => ?_
      obtain ⟨table, disk, nodes, sound', keeps⟩ := facts
      rw [ends_pure]
      refine ⟨⟨_, table⟩, nodes, sound', keeps, ?_, fun filled => ?_⟩
      · rw [table, place]
        simp [withAddrs, ref]
      · exact absurd none filled
    · next there =>
      rw [ends_pure]
      have same : (st.itable ip).d.addrs ⟨bn, by omega⟩ =
          (st.itable ip).d.ref st.disk (placeOf bn) := value.symm
      rw [same]
      exact .refl sound
  · next large =>
    have small : bn - ndirect < nindirect := by
      simp only [maxFile] at bound
      omega
    rw [if_pos small]
    split
    · next empty =>
      have none : (st.itable ip).d.ref st.disk (placeOf bn) = 0 := by
        rw [placeOf_entry large small]
        exact if_pos empty
      refine (balloc_ends sound.boot).seq fun r middle outcome => ?_
      rcases outcome with ⟨rfl, rfl⟩ | ⟨nonzero, inside, free, rfl⟩
      · rw [if_pos rfl, ends_pure, ← none]
        exact .refl sound
      rw [if_neg nonzero]
      obtain ⟨attached, kept, _⟩ := sound.attach_addr free inside working_self .indirect empty
        (ref_withAddr_indirect empty (update_self ..))
      refine (attached_ends sound nonzero inside free ⟨attached, kept⟩).seq fun _ middle facts => ?_
      obtain ⟨table, _, nodes, sound', keeps⟩ := facts
      have ind : (middle.itable ip).d.ind = r := by
        rw [table]
        simp [withAddrs, Dinode.ind]
      have entry : Ends (bmapEntry sb (middle.itable ip).d.ind (bn - ndirect)) middle stop _ :=
        bmapEntry_ends bn sound' (by rwa [ind]) large small
      rw [ind] at entry
      exact entry.mono fun addr after mapped => mapped.after table nodes keeps none
    · next there => exact bmapEntry_ends bn sound there large small

end Map

/-! Giving blocks back. While `itrunc` runs, the indirect block still lists what is free
already, so the references are kept as a function of their own. -/

structure MapOnly (sb : Superblock) (disk disk' : Disk) : Prop where
  dinodes : ∀ inum < sb.ninodes, sb.dinodeOf disk' inum = sb.dinodeOf disk inum
  data : ∀ place, sb.dataStart ≤ place → disk' place = disk place

theorem MapOnly.refl (sb : Superblock) (disk : Disk) : MapOnly sb disk disk :=
  ⟨fun _ _ => rfl, fun _ _ => rfl⟩

theorem MapOnly.trans {disk'' : Disk} (first : MapOnly sb disk disk')
    (second : MapOnly sb disk' disk'') : MapOnly sb disk disk'' :=
  ⟨fun inum bound => (second.dinodes inum bound).trans (first.dinodes inum bound),
    fun place data => (second.data place data).trans (first.data place data)⟩

theorem MapOnly.nodes (only : MapOnly sb disk disk') : sb.nodeOf disk' = sb.nodeOf disk :=
  nodeOf_congr only.dinodes

section Give

variable {held : Nat × Place → Nat} {ip : Nat}

def Holds (sb : Superblock) (held : Nat × Place → Nat) (disk : Disk) : Prop :=
  Owned held (sb.bitOf disk) sb.dataStart sb.size sb.mapBits

theorem bfree_holds (holds : Holds sb held st.disk) {site : Nat × Place} (some : held site ≠ 0) :
    Ends (bfree sb (held site)) st stop fun _ after =>
      after.itable = st.itable ∧ Holds sb (update held site 0) after.disk ∧
        MapOnly sb st.disk after.disk := by
  have covered : sb.size ≤ sb.mapBits := size_le_mapBits
  have inside := (holds.range site some).2
  refine (bfree_ends (holds.held some covered)).mono fun _ after same => ?_
  subst same
  refine ⟨rfl, ?_, fun inum bound => ?_, fun place data => ?_⟩
  · rw [Holds, bitOf_unmarkBlock]
    exact holds.give some
  · exact dinodeOf_outside bound (iblock_ne_bblock bound).symm
  · exact unmarkBlock_data data (by omega)

def Dropped (held held' : Nat × Place → Nat) (sites : Nat × Place → Prop) : Prop :=
  (∀ site, sites site → held' site = 0) ∧ ∀ site, ¬ sites site → held' site = held site

theorem Dropped.cons {α : Type} {held' : Nat × Place → Nat} {place : α → Nat × Place} {k : α}
    {ks : List α} (empty : held (place k) = 0)
    (dropped : Dropped held held' fun site => ∃ k ∈ ks, site = place k) :
    Dropped held held' fun site => ∃ k' ∈ k :: ks, site = place k' := by
  refine ⟨fun site ⟨k', inside, here⟩ => ?_, fun site outside => ?_⟩
  · by_cases later : ∃ k ∈ ks, site = place k
    · exact dropped.1 site later
    rw [dropped.2 site later]
    rcases mem_cons.mp inside with rfl | inside
    · rw [here, empty]
    · exact absurd ⟨k', inside, here⟩ later
  · exact dropped.2 site fun ⟨k', inside, here⟩ =>
      outside ⟨k', mem_cons_of_mem _ inside, here⟩

theorem Dropped.update {held' : Nat × Place → Nat} {sites : Nat × Place → Prop} {first : Nat × Place}
    (dropped : Dropped (update held first 0) held' sites) (listed : sites first) :
    Dropped held held' sites := by
  refine ⟨dropped.1, fun site outside => ?_⟩
  rw [dropped.2 site outside, update_of_ne]
  rintro rfl
  exact outside listed

theorem itruncDirect_ends (inum : Nat) (holds : Holds sb held st.disk) (ks : List (Fin ndirect))
    (agrees : ∀ k ∈ ks, held (inum, .direct k) = (st.itable ip).d.addrs k.castSucc) :
    Ends (itruncDirect sb ip ks) st stop fun _ after => ∃ addrs held',
      after.itable = st.withAddrs ip addrs ∧ (∀ k ∈ ks, addrs k.castSucc = 0) ∧
      (∀ a, (∀ k ∈ ks, a ≠ k.castSucc) → addrs a = (st.itable ip).d.addrs a) ∧
      Holds sb held' after.disk ∧
      Dropped held held' (fun site => ∃ k ∈ ks, site = (inum, .direct k)) ∧
      MapOnly sb st.disk after.disk := by
  induction ks generalizing st held with
  | nil =>
    rw [itruncDirect, ends_pure]
    exact ⟨_, held, withAddrs_self.symm, by simp, fun _ _ => rfl, holds,
      ⟨by simp, fun _ _ => rfl⟩, .refl _ _⟩
  | cons k ks ih =>
    have head := agrees k mem_cons_self
    rw [itruncDirect]
    simp only [ends_bind, ends_slot]
    split
    · next empty =>
      refine (ih holds fun k' inside => agrees k' (mem_cons_of_mem _ inside)).mono
        fun _ after facts => ?_
      obtain ⟨addrs, held', table, zero, others, holds', dropped, only⟩ := facts
      refine ⟨addrs, held', table, fun k' inside => ?_, fun a outside => ?_, holds',
        dropped.cons (head.trans empty), only⟩
      · by_cases later : k' ∈ ks
        · exact zero k' later
        obtain rfl : k' = k := (mem_cons.mp inside).resolve_right later
        rw [others _ fun k'' inside' same =>
          later (by rwa [Fin.castSucc_injective _ same])]
        exact empty
      · exact others a fun k' inside => outside k' (mem_cons_of_mem _ inside)
    · next some =>
      rw [← head]
      refine (bfree_holds holds (head ▸ some)).seq fun _ middle facts => ?_
      obtain ⟨same, holds', only⟩ := facts
      simp only [ends_bind, ends_setAddr, same]
      have holds'' : Holds sb (update held (inum, .direct k) 0)
          (middle.put ip ((st.itable ip).copy { (st.itable ip).d with
            addrs := update (st.itable ip).d.addrs k.castSucc 0 })).disk := holds'
      refine (ih holds'' fun k' inside => ?_).mono fun _ after facts => ?_
      · rw [put_self]
        by_cases equal : k' = k
        · rw [equal, update_self]
          simp
        · rw [update_of_ne (by simpa using equal),
            agrees k' (mem_cons_of_mem _ inside)]
          exact (update_of_ne (fun same => equal (Fin.castSucc_injective _ same)) _ _).symm
      · obtain ⟨addrs, held', table, zero, others, last, dropped, only'⟩ := facts
        rw [put_self] at others
        refine ⟨addrs, held', ?_, fun k' inside => ?_, fun a outside => ?_, last, ?_,
          only.trans only'⟩
        · rw [table, withAddrs, withAddrs, put_self, put_itable, same,
            update_idem]
          rfl
        · by_cases later : k' ∈ ks
          · exact zero k' later
          obtain rfl : k' = k := (mem_cons.mp inside).resolve_right later
          rw [others _ fun k'' inside' same =>
          later (by rwa [Fin.castSucc_injective _ same])]
          exact update_self ..
        · rw [others a fun k' inside => outside k' (mem_cons_of_mem _ inside)]
          exact update_of_ne (outside k mem_cons_self) _ _
        · exact (dropped.cons (update_self ..)).update ⟨k, mem_cons_self, rfl⟩

theorem itruncEntries_ends (inum : Nat) (holds : Holds sb held st.disk) {data : Block} (js : List (Fin nindirect))
    (once : js.Nodup) (agrees : ∀ j ∈ js, held (inum, .entry j) = load data (4 * j) 4) :
    Ends (itruncEntries sb data js) st stop fun _ after => ∃ held',
      after.itable = st.itable ∧ Holds sb held' after.disk ∧
      Dropped held held' (fun site => ∃ j ∈ js, site = (inum, .entry j)) ∧
      MapOnly sb st.disk after.disk := by
  induction js generalizing st held with
  | nil =>
    rw [itruncEntries, ends_pure]
    exact ⟨held, rfl, holds, ⟨by simp, fun _ _ => rfl⟩, .refl _ _⟩
  | cons j js ih =>
    have head := agrees j mem_cons_self
    obtain ⟨fresh, once⟩ := nodup_cons.mp once
    rw [itruncEntries]
    split
    · next empty =>
      refine (ih holds once fun j' inside => agrees j' (mem_cons_of_mem _ inside)).mono
        fun _ after facts => ?_
      obtain ⟨held', table, holds', dropped, only⟩ := facts
      exact ⟨held', table, holds', dropped.cons (head.trans empty), only⟩
    next some =>
    rw [← head]
    refine (bfree_holds holds (head ▸ some)).seq fun _ middle facts => ?_
    obtain ⟨same, holds', only⟩ := facts
    refine (ih holds' once fun j' inside => ?_).mono fun _ after facts => ?_
    · rw [update_of_ne, agrees j' (mem_cons_of_mem _ inside)]
      intro equal
      obtain rfl := Place.entry.inj (Prod.mk.inj equal).2
      exact fresh inside
    obtain ⟨held', table, holds'', dropped, only'⟩ := facts
    exact ⟨held', table.trans same, holds'',
      (dropped.cons (update_self ..)).update ⟨j, mem_cons_self, rfl⟩,
      only.trans only'⟩

def OnIndirect (inum : Nat) (site : Nat × Place) : Prop :=
  site = (inum, .indirect) ∨ ∃ j, site = (inum, .entry j)

theorem itruncIndirect_ends (inum : Nat) (holds : Holds sb held st.disk)
    (agrees : ∀ place, (∀ k, place ≠ .direct k) →
      held (inum, place) = (st.itable ip).d.ref st.disk place) :
    Ends (itruncIndirect sb ip) st stop fun _ after => ∃ held',
      after.itable = st.withAddrs ip (update (st.itable ip).d.addrs (Fin.last ndirect) 0) ∧
      Holds sb held' after.disk ∧ Dropped held held' (OnIndirect inum) ∧
      MapOnly sb st.disk after.disk := by
  have slotRef : held (inum, .indirect) = (st.itable ip).d.ind := agrees .indirect (by simp)
  simp only [itruncIndirect, ends_bind, ends_slot]
  split
  · next empty =>
    have entries : ∀ j, held (inum, .entry j) = 0 := by
      intro j
      rw [agrees (.entry j) (by simp)]
      exact if_pos empty
    rw [ends_pure]
    refine ⟨held, ?_, holds, ⟨fun site listed => ?_, fun _ _ => rfl⟩, .refl _ _⟩
    · have already : update (st.itable ip).d.addrs (Fin.last ndirect) 0 =
          (st.itable ip).d.addrs := update_eq_self_iff.mpr empty.symm
      rw [already, withAddrs_self]
    · rcases listed with rfl | ⟨j, rfl⟩
      · exact slotRef.trans empty
      · exact entries j
  · next some =>
    simp only [ends_bind, ends_bread]
    have listed : ∀ j ∈ List.finRange nindirect, held (inum, .entry j) =
        load (st.disk (st.itable ip).d.ind) (4 * j) 4 := by
      intro j _
      rw [agrees (.entry j) (by simp)]
      exact if_neg some
    refine (itruncEntries_ends inum holds _ (nodup_finRange _) listed).mono fun _ middle facts => ?_
    obtain ⟨held', table, holds', dropped, only⟩ := facts
    have kept : held' (inum, .indirect) = (st.itable ip).d.ind := by
      rw [dropped.2 _ (by simp), slotRef]
    have free : Ends (bfree sb (held' (inum, .indirect))) middle stop _ :=
      bfree_holds holds' (by rwa [kept])
    rw [kept] at free
    refine free.mono fun _ after facts => ?_
    obtain ⟨table', holds'', only'⟩ := facts
    rw [ends_setAddr]
    refine ⟨_, ?_, holds'', ⟨fun site listed => ?_, fun site outside => ?_⟩, only.trans only'⟩
    · rw [put_itable, table', table]
      rfl
    · rcases listed with rfl | ⟨j, rfl⟩
      · exact update_self ..
      · rw [update_of_ne (by simp)]
        exact dropped.1 _ ⟨j, mem_finRange j, rfl⟩
    · rw [update_of_ne fun here => outside (.inl here)]
      exact dropped.2 site fun covered => outside (.inr (covered.imp fun _ => And.right))

end Give

section Update

variable {ip : Nat}

def State.updated (sb : Superblock) (st : State) (ip : Nat) : State :=
  { st with disk := sb.putDinode st.disk (st.itable ip).inum (st.itable ip).d,
            logged := sb.iblock (st.itable ip).inum :: st.logged }

theorem iupdate_ends {post : Unit → State → Prop} :
    Ends (iupdate sb ip) st stop post ↔ post () (st.updated sb ip) := Iff.rfl

variable (bound : (st.itable ip).inum < sb.ninodes) (fits : (st.itable ip).d.Fits)
include bound

theorem updated_data {place : Nat} (data : sb.dataStart ≤ place) :
    (st.updated sb ip).disk place = st.disk place :=
  putDinode_data bound data

include fits

theorem updated_nodes (used : (st.itable ip).d.type ≠ 0) :
    sb.nodeOf (st.updated sb ip).disk = Working sb st ip := by
  rw [updated, nodeOf_putDinode bound fits, if_pos used]
  rfl

theorem updated_dinodes {j : Nat} (other : j ≠ (st.itable ip).inum) :
    sb.dinodeOf (st.updated sb ip).disk j = sb.dinodeOf st.disk j := by
  rw [updated, dinodeOf_putDinode fits, update_of_ne other]

omit fits

theorem updated_bits (c : Nat) : sb.bitOf (st.updated sb ip).disk c = sb.bitOf st.disk c := by
  rw [updated, bitOf_putDinode bound]

include fits

theorem updated_sound (used : (st.itable ip).d.type ≠ 0)
    (sound : sb.Sound (Working sb st ip) st.disk) :
    sb.Sound (sb.nodeOf (st.updated sb ip).disk) (st.updated sb ip).disk := by
  rw [updated_nodes bound fits used]
  exact sound.congr (fun place data => updated_data bound data) fun c _ => updated_bits bound c

end Update

def Dinode.empty (d : Dinode) : Dinode := { d with size := 0, addrs := fun _ => 0 }

theorem Dinode.ref_empty (place : Place) : d.empty.ref disk place = 0 := by
  cases place with
  | direct _ | indirect => rfl
  | entry j => simp [ref, Dinode.ind, Dinode.empty]

theorem Holds.ind_data {nodes : Nodes} {i : Nat} (holds : Holds sb (refs nodes disk) disk)
    (found : nodes i = some d) (some : d.ind ≠ 0) : sb.dataStart ≤ d.ind := by
  have range := holds.range (i, .indirect)
  rw [refs_some found] at range
  exact (range some).1

theorem Holds.congr {nodes : Nodes} (holds : Holds sb (refs nodes disk) disk)
    (data : ∀ place, sb.dataStart ≤ place → disk' place = disk place) : refs nodes disk' = refs nodes disk :=
  refs_congr fun _ _ found some => data _ (holds.ind_data found some)

theorem Holds.emptied {nodes : Nodes} {i : Nat}
    {held : Nat × Place → Nat} (before : Holds sb (refs nodes disk) disk) (holds : Holds sb held disk')
    (mine : ∀ place, held (i, place) = 0)
    (others : ∀ j, j ≠ i → ∀ place, held (j, place) = refs nodes disk (j, place))
    (data : ∀ place, sb.dataStart ≤ place → disk' place = disk place) :
    Holds sb (refs (update nodes i (some d.empty)) disk') disk' := by
  refine Owned.congr holds (fun ⟨j, place⟩ => ?_) fun _ _ => rfl
  by_cases same : j = i
  · rw [same, refs_some (update_self ..), ref_empty, mine]
  · rw [refs_update_ne same, before.congr data, others j same]

theorem Superblock.Sound.emptied {nodes : Nodes} {i : Nat} (sound : sb.Sound nodes disk)
    (holds : Holds sb (refs (update nodes i (some d.empty)) disk') disk')
    (data : ∀ place, sb.dataStart ≤ place → disk' place = disk place) :
    sb.Sound (update nodes i (some d.empty)) disk' := by
  have blocks : ∀ j e, nodes j = some e → e.ind ≠ 0 → disk' e.ind = disk e.ind :=
    fun j e found some => data _ (sound.ind_data found some).1
  refine ⟨holds, fun j e found bn low => ?_, fun j e found => ?_⟩
  · obtain rfl | same := eq_or_ne j i
    · rw [update_self] at found
      cases found
      exact absurd low (Nat.not_lt_zero _)
    · rw [update_of_ne same] at found
      rw [e.ref_congr (blocks j e found)]
      exact sound.filled j e found bn low
  · obtain rfl | same := eq_or_ne j i
    · rw [update_self] at found
      cases found
      exact Nat.zero_le _
    · rw [update_of_ne same] at found
      exact sound.sized j e found

theorem Dinode.Fits.empty (fits : d.Fits) : d.empty.Fits :=
  ⟨fits.type, fits.major, fits.minor, fits.nlink, by simp [Dinode.empty],
    fun _ => by simp [Dinode.empty]⟩

structure Emptied (sb : Superblock) (st : State) (ip : Nat) (after : State) : Prop where
  table : after.itable = update st.itable ip ((st.itable ip).copy (st.itable ip).d.empty)
  nodes : sb.nodeOf after.disk = update (sb.nodeOf st.disk) (st.itable ip).inum (some (st.itable ip).d.empty)
  others : ∀ j < sb.ninodes, j ≠ (st.itable ip).inum → sb.dinodeOf after.disk j = sb.dinodeOf st.disk j
  holds : Holds sb (refs (sb.nodeOf after.disk) after.disk) after.disk
  data : ∀ place, sb.dataStart ≤ place → after.disk place = st.disk place

theorem itrunc_empties {ip : Nat} (start : Holds sb (refs (Working sb st ip) st.disk) st.disk)
    (bound : (st.itable ip).inum < sb.ninodes) (fits : (st.itable ip).d.Fits)
    (used : (st.itable ip).d.type ≠ 0) : Ends (itrunc sb ip) st stop fun _ after => Emptied sb st ip after := by
  simp only [itrunc, ends_bind]
  refine (itruncDirect_ends (st.itable ip).inum start (List.finRange ndirect) fun k _ => ?_).mono
    fun _ first facts => ?_
  · exact refs_some working_self (.direct k)
  obtain ⟨addrs, held, table, zero, others, holds, dropped, only⟩ := facts
  have mine : first.itable ip = (st.itable ip).copy { (st.itable ip).d with addrs := addrs } := by
    rw [table, withAddrs, update_self]
  have ind : (first.itable ip).d.ind = (st.itable ip).d.ind := by
    rw [mine]
    exact others _ fun k _ same => Fin.castSucc_ne_last k same.symm
  refine (itruncIndirect_ends (st.itable ip).inum holds fun place notDirect => ?_).mono
    fun _ second facts => ?_
  · -- the direct slots do not matter for the other places
    rw [dropped.2 _ fun covered => covered.elim fun k is => notDirect k (Prod.mk.inj is.2).2, refs_some working_self]
    cases place with
    | direct k => exact absurd rfl (notDirect k)
    | indirect => exact ind.symm
    | entry j =>
      simp only [ref, ind]
      by_cases none : (st.itable ip).d.ind = 0
      · rw [if_pos none, if_pos none]
      · rw [if_neg none, if_neg none, only.data _ (start.ind_data working_self none)]
  obtain ⟨held', table', holds', dropped', only'⟩ := facts
  have both := only.trans only'
  have zeroed : update addrs (Fin.last ndirect) 0 = fun _ => 0 := by
    funext a
    refine Fin.lastCases ?_ (fun k => ?_) a
    · exact update_self ..
    · rw [update_of_ne (Fin.castSucc_ne_last k), zero k (mem_finRange k)]
  have slotNow : second.itable ip =
      (st.itable ip).copy { (st.itable ip).d with addrs := fun _ => 0 } := by
    rw [table', withAddrs, update_self, mine, copy_d, zeroed]
    rfl
  have tableNow : (second.put ip ((st.itable ip).copy (st.itable ip).d.empty)).itable =
      update st.itable ip ((st.itable ip).copy (st.itable ip).d.empty) := by
    rw [put_itable, table', withAddrs, table, withAddrs, update_idem,
      update_idem]
  simp only [ends_setSize, slotNow, iupdate_ends, copy_copy]
  have working : Working sb (second.put ip ((st.itable ip).copy (st.itable ip).d.empty)) ip =
      update (Working sb st ip) (st.itable ip).inum (some (st.itable ip).d.empty) := by
    rw [Working, put_self, put_disk, both.nodes, Working, update_idem]
    rfl
  have emptied : Holds sb (refs (Working sb (second.put ip ((st.itable ip).copy (st.itable ip).d.empty)) ip) second.disk)
      second.disk := by
    rw [working]
    refine start.emptied holds' (fun place => ?_) (fun j other place => ?_) both.data
    · by_cases direct : ∃ k, place = .direct k
      · obtain ⟨k, rfl⟩ := direct
        rw [dropped'.2 _ (by simp [OnIndirect])]
        exact dropped.1 _ ⟨k, mem_finRange k, rfl⟩
      refine dropped'.1 _ ?_
      cases place with
      | direct k => exact absurd ⟨k, rfl⟩ direct
      | indirect => exact .inl rfl
      | entry j => exact .inr ⟨j, rfl⟩
    · rw [dropped'.2 _ (by simp [OnIndirect, other]), dropped.2 _ (by simp [other])]
  have place : ((second.put ip ((st.itable ip).copy (st.itable ip).d.empty)).itable ip).inum <
      sb.ninodes := by rwa [put_self]
  have size : ((second.put ip ((st.itable ip).copy (st.itable ip).d.empty)).itable ip).d.Fits := by
    rw [put_self]
    exact fits.empty
  have type : ((second.put ip ((st.itable ip).copy (st.itable ip).d.empty)).itable ip).d.type ≠ 0 := by
    rwa [put_self]
  have final : Emptied sb st ip ((second.put ip ((st.itable ip).copy (st.itable ip).d.empty)).updated sb ip) := by
    refine ⟨tableNow, ?_, fun j inside other => ?_, ?_, fun b data => ?_⟩
    · rw [updated_nodes place size type, working, Working, update_idem]
    · rw [updated_dinodes place size (by rwa [put_self]), put_disk]
      exact both.dinodes j inside
    · rw [updated_nodes place size type]
      refine Owned.congr emptied (fun site => ?_) fun c _ => updated_bits place c
      rw [emptied.congr fun b data => updated_data place data]
    · exact (updated_data place data).trans (both.data b data)
  exact final

theorem itrunc_ends {ip : Nat} (sound : sb.Sound (Working sb st ip) st.disk)
    (bound : (st.itable ip).inum < sb.ninodes) (fits : (st.itable ip).d.Fits)
    (used : (st.itable ip).d.type ≠ 0) :
    Ends (itrunc sb ip) st stop fun _ after =>
      after.itable = update st.itable ip ((st.itable ip).copy (st.itable ip).d.empty) ∧
      sb.nodeOf after.disk = update (sb.nodeOf st.disk) (st.itable ip).inum
        (some (st.itable ip).d.empty) ∧
      sb.Sound (sb.nodeOf after.disk) after.disk ∧
      ∀ place, sb.dataStart ≤ place → after.disk place = st.disk place := by
  refine (itrunc_empties sound.owned bound fits used).mono fun _ after emptied => ?_
  have working : sb.nodeOf after.disk = update (Working sb st ip) (st.itable ip).inum
      (some (st.itable ip).d.empty) := by
    rw [emptied.nodes, Working, update_idem]
  have holds := emptied.holds
  rw [working] at holds
  refine ⟨emptied.table, emptied.nodes, ?_, emptied.data⟩
  rw [working]
  exact sound.emptied holds emptied.data

end Xv6.Fs
