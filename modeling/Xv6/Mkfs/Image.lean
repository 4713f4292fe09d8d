import Xv6.Fs.Table
import Xv6.Mkfs.Append

/-!
The image as a whole. At every point of the program the view is a sound file system in which
each file has exactly the blocks that its size needs; `iappend` appends to one file and
`ialloc` makes an empty one.
-/

namespace Xv6.Mkfs

open Xv6.Fs Lib.Bytes Lib.Bitmap Lib.Hoare List Superblock
open Function

variable {st st' : Host} {stop : Abort → Prop} {inum : Nat} {d : Dinode}

structure Inv (st : Host) : Prop where
  sound : sb.Sound (sb.nodeOf st.view) st.view
  exact : ∀ i d, sb.nodeOf st.view i = some d → Exact d st.view d.size
  fresh : Fresh st
  inodes : ∀ i, st.freeinode ≤ i → sb.nodeOf st.view i = none

def append (f : File) (p : List UInt8) : File :=
  { f with size := f.size + p.length, data := fun q => if q < f.size then f.data q else p.getD (q - f.size) 0 }

theorem append_append (f : File) (p rest : List UInt8) : append (append f p) rest = append f (p ++ rest) := by
  have size : f.size + p.length + rest.length = f.size + (p ++ rest).length := by rw [length_append, add_assoc]
  have data : (append (append f p) rest).data = (append f (p ++ rest)).data := by
    funext q
    change (if q < f.size + p.length then (if q < f.size then f.data q else p.getD (q - f.size) 0)
      else rest.getD (q - (f.size + p.length)) 0) = if q < f.size then f.data q else (p ++ rest).getD (q - f.size) 0
    by_cases old : q < f.size
    · rw [if_pos old, if_pos old, if_pos (Nat.lt_add_right _ old)]
    rw [if_neg old, if_neg old]
    by_cases early : q < f.size + p.length
    · rw [if_pos early, getD_append _ _ _ _ (by omega)]
    · rw [if_neg early, getD_append_right _ _ _ _ (by omega), Nat.sub_sub]
  have both : File.mk f.type f.major f.minor f.nlink _ _ = File.mk f.type f.major f.minor f.nlink _ _ :=
    congr (congrArg (File.mk f.type f.major f.minor f.nlink) size) data
  exact both

theorem append_nil (f : File) (zero : ∀ q, f.size ≤ q → f.data q = 0) : append f [] = f := by
  have data : (append f []).data = f.data := by
    funext q
    change (if q < f.size then f.data q else _) = f.data q
    by_cases old : q < f.size
    · rw [if_pos old]
    · rw [if_neg old, zero q (not_lt.mp old)]
      rfl
  have both : File.mk f.type f.major f.minor f.nlink _ _ = File.mk f.type f.major f.minor f.nlink _ _ :=
    congr (congrArg (File.mk f.type f.major f.minor f.nlink) (add_zero f.size)) data
  exact both

theorem iblock_bound (bound : inum < ninodes) : sb.iblock inum < sb.bmapstart := Superblock.iblock_lt bound

theorem iblock_low (bound : inum < ninodes) : sb.iblock inum < fssize :=
  (iblock_bound bound).trans (by decide)

theorem dinodeOf_view (bound : inum < ninodes) : sb.dinodeOf st.view inum = sb.dinodeOf st.disk inum := by
  rw [dinodeOf, dinodeOf, view_of_ne (iblock_bound bound).ne]

theorem nodeOf_low (low : ∀ b < nmeta, st'.disk b = st.disk b) : sb.nodeOf st'.view = sb.nodeOf st.view := by
  refine nodeOf_congr fun i bound => ?_
  rw [dinodeOf_view bound, dinodeOf_view bound, dinodeOf, dinodeOf,
    low _ ((iblock_bound bound).trans (by decide))]

theorem ends_rinode {post : Dinode → Host → Prop} (bound : inum < ninodes) :
    Ends (rinode inum) st stop post ↔ post (sb.dinodeOf st.view inum) st := by
  rw [rinode, ends_bind, ends_rsect (iblock_low bound), ends_pure, dinodeOf_view bound]
  rfl

def Host.put (st : Host) (inum : Nat) (d : Dinode) : Host := { st with disk := sb.putDinode st.disk inum d }

theorem ends_winode {post : Unit → Host → Prop} (bound : inum < ninodes) :
    Ends (winode inum d) st stop post ↔ post () (st.put inum d) := by
  rw [winode, ends_bind, ends_rsect (iblock_low bound)]
  rfl

theorem view_put (bound : inum < ninodes) : (st.put inum d).view = sb.putDinode st.view inum d := by
  have apart : sb.iblock inum ≠ sb.bmapstart := (iblock_bound bound).ne
  rw [putDinode, view_of_ne apart]
  exact update_comm apart ..

theorem Fresh.put (fresh : Fresh st) (bound : inum < ninodes) : Fresh (st.put inum d) :=
  fresh.write (((iblock_bound bound).trans (by decide)).trans_le fresh.low)

theorem put_boot {b : Nat} (boot : b < sb.inodestart) : (st.put inum d).disk b = st.disk b := by
  have high : sb.inodestart ≤ sb.iblock inum := Nat.le_add_left ..
  exact update_of_ne (Nat.ne_of_lt (Nat.lt_of_lt_of_le boot high)) ..

variable {e : Dinode} {nodes : Nodes} {p : List UInt8} {f : File}

theorem Exact.data {disk disk' : Disk} {off : Nat} (exact : Exact e disk off)
    (same : ∀ place, e.ref disk' place = e.ref disk place) : Exact e disk' off :=
  ⟨fun bn low => by rw [same]; exact exact.filled bn low, exact.ind⟩

theorem put_sound (sound : sb.Sound (update (sb.nodeOf st.view) inum (some d)) st.view) (fits : d.Fits) (used : d.type ≠ 0)
    (bound : inum < ninodes) : sb.Sound (sb.nodeOf (st.put inum d).view) (st.put inum d).view ∧
      sb.nodeOf (st.put inum d).view = update (sb.nodeOf st.view) inum (some d) := by
  have now : sb.nodeOf (st.put inum d).view = update (sb.nodeOf st.view) inum (some d) := by
    rw [view_put bound, nodeOf_putDinode bound fits, if_pos used]
  refine ⟨?_, now⟩
  rw [now, view_put bound]
  refine sound.congr (fun place low => putDinode_data bound low) fun c _ => ?_
  rw [bitOf_putDinode bound]

theorem ref_put {i : Nat} (sound : sb.Sound nodes st.view) (found : nodes i = some e)
    (bound : inum < ninodes) (place : Place) : e.ref (st.put inum d).view place = e.ref st.view place := by
  rw [view_put bound]
  exact e.ref_congr (fun some => putDinode_data bound (sound.ind_data found some).1) place

theorem file_put {i : Nat} (sound : sb.Sound nodes st.view) (found : nodes i = some e)
    (bound : inum < ninodes) : e.file (st.put inum d).view = e.file st.view := by
  rw [view_put bound]
  exact sound.file_data (fun place low => putDinode_data bound low) found

theorem Wrote.file {din : Dinode} (wrote : Wrote nodes inum st d d.size p st' din) :
    ({ din with size := d.size + p.length } : Dinode).file st'.view = append (d.file st.view) p := by
  have data : (({ din with size := d.size + p.length } : Dinode).file st'.view).data = (append (d.file st.view) p).data := by
    funext q
    change (if q < d.size + p.length then din.byte st'.view q else 0) =
      if q < d.size then (if q < d.size then d.byte st.view q else 0) else p.getD (q - d.size) 0
    by_cases old : q < d.size
    · rw [if_pos old, if_pos old, if_pos (Nat.lt_add_right _ old), wrote.old q old]
    rw [if_neg old]
    by_cases inside : q < d.size + p.length
    · have bound : q - d.size < p.length := by omega
      have place : d.size + (q - d.size) = q := by omega
      have byte := wrote.new (q - d.size) _ (List.getElem?_eq_getElem bound)
      rw [place] at byte
      rw [if_pos inside, byte, getD_eq_getElem _ _ bound]
    · rw [if_neg inside, getD_eq_default _ _ (by omega)]
  have shape : ({ din with size := d.size + p.length } : Dinode).file st'.view =
      File.mk d.type d.major d.minor d.nlink (d.size + p.length)
        (({ din with size := d.size + p.length } : Dinode).file st'.view).data := by
    rw [wrote.shape]
    rfl
  rw [shape, data]
  rfl

structure Changed (st : Host) (inum : Nat) (f : File) (st' : Host) : Prop where
  inv : Inv st'
  files : sb.fileOf st'.view = update (sb.fileOf st.view) inum (some f)
  inode : st'.freeinode = st.freeinode
  boot : ∀ b < sb.inodestart, st'.disk b = st.disk b

theorem iappend_ends (inv : Inv st) (found : sb.nodeOf st.view inum = some d)
    (fits : d.size + p.length ≤ maxFile * bsize) (room : st.freeblock + blocks (d.size + p.length) ≤ fssize + blocks d.size) :
    Ends (iappend inum p) st stop fun _ st' => Changed st inum (append (d.file st.view) p) st' ∧
      st'.freeblock + blocks d.size = st.freeblock + blocks (d.size + p.length) := by
  obtain ⟨bound, used, rfl⟩ := nodeOf_eq_some found
  have same : update (sb.nodeOf st.view) inum (some (sb.dinodeOf st.view inum)) = sb.nodeOf st.view :=
    update_eq_self_iff.mpr found.symm
  rw [iappend, ends_bind, ends_rinode bound]
  refine (iappendFrom_ends p.length le_rfl (same.symm ▸ inv.sound) inv.fresh (inv.exact inum _ found) fits
    room).seq fun r middle facts => ?_
  obtain ⟨off, din⟩ := r
  obtain ⟨ended, wrote⟩ := facts
  dsimp only at ended wrote ⊢
  subst ended
  rw [ends_winode bound]
  generalize old : sb.dinodeOf st.view inum = d at *
  have nodes := nodeOf_low wrote.low
  have fitsOld : d.Fits := old ▸ sb.dinodeOf_fits st.view inum
  have mine : update (sb.nodeOf st.view) inum (some din) inum = some din := update_self ..
  have type : din.type = d.type := by rw [wrote.shape]
  have size : d.size + p.length < 2 ^ 32 := fits.trans_lt (by decide)
  have addrs : ∀ k, din.addrs k < 2 ^ 32 := wrote.sound.addr_fits mine
  have fitsNew : ({ din with size := d.size + p.length } : Dinode).Fits := by
    rw [wrote.shape]
    exact ⟨fitsOld.type, fitsOld.major, fitsOld.minor, fitsOld.nlink, size, addrs⟩
  have filled : ∀ bn, bn * bsize < d.size + p.length → din.ref middle.view (placeOf bn) ≠ 0 := by
    intro bn low
    refine (wrote.exact.filled bn ?_).mpr low
    exact Nat.lt_of_mul_lt_mul_right (low.trans_le fits)
  have renewed : sb.Sound (update (sb.nodeOf middle.view) inum (some { din with size := d.size + p.length })) middle.view := by
    have sound : sb.Sound (update (update (sb.nodeOf st.view) inum (some din)) inum
        (some { din with size := d.size + p.length })) middle.view :=
      wrote.sound.renew mine rfl fits filled
    rwa [update_idem, ← nodes] at sound
  obtain ⟨sound, now⟩ := put_sound renewed fitsNew (by rw [type]; exact used) bound
  have here : update (sb.nodeOf middle.view) inum (some { din with size := d.size + p.length }) inum =
      some { din with size := d.size + p.length } := update_self ..
  have there : ∀ j e, j ≠ inum → sb.nodeOf st.view j = some e →
      update (sb.nodeOf middle.view) inum (some { din with size := d.size + p.length }) j = some e := by
    intro j e other was
    rw [update_of_ne other, nodes, was]
  refine ⟨⟨⟨sound, fun i e is => ?_, wrote.fresh.put bound, fun i free => ?_⟩, ?_, wrote.inode, fun b low => ?_⟩, wrote.count⟩
  · rw [now] at is
    obtain rfl | this := eq_or_ne i inum
    · cases here.symm.trans is
      refine Exact.data ⟨fun bn low => ?_, wrote.exact.ind⟩ (ref_put renewed here bound)
      exact wrote.exact.filled bn low
    rw [update_of_ne this, nodes] at is
    refine (inv.exact i e is).data fun place => ?_
    have kept := wrote.others i this place
    rw [refs_some is, refs_some is] at kept
    rw [ref_put renewed (there i e this is) bound, kept]
  · rw [now, nodes]
    have free' : st.freeinode ≤ i := wrote.inode ▸ free
    have other : i ≠ inum := by
      rintro rfl
      rw [inv.inodes i free'] at found
      cases found
    rw [update_of_ne other]
    exact inv.inodes i free'
  · rw [nodes] at now
    rw [fileOf_update now fun j e other was => ?_]
    · rw [Option.map_some, file_put renewed here bound, wrote.file]
    · rw [file_put renewed (there j e other was) bound]
      exact Dinode.file_congr fun q below => wrote.bytes j e other was q below
  · rw [put_boot low]
    exact wrote.low b (low.trans (by decide))

def emptyFile (type : Nat) : File := ⟨type, 0, 0, 1, 0, fun _ => 0⟩

theorem ialloc_ends {type : Nat} (inv : Inv st) (bound : st.freeinode < ninodes) (used : type ≠ 0) (narrow : type < 2 ^ 16) :
    Ends (ialloc type) st stop fun r st' => r = st.freeinode ∧ Inv st' ∧
      sb.fileOf st'.view = update (sb.fileOf st.view) st.freeinode (some (emptyFile type)) ∧
      st'.freeinode = st.freeinode + 1 ∧ st'.freeblock = st.freeblock ∧ ∀ b < sb.inodestart, st'.disk b = st.disk b := by
  have none := inv.inodes st.freeinode le_rfl
  have no_ref : ∀ (disk : Disk) place, (emptyDinode type).ref disk place = 0 :=
    fun _ => Dinode.ref_empty (d := emptyDinode type)
  have fits : (emptyDinode type).Fits :=
    ⟨narrow, Nat.two_pow_pos 16, Nat.two_pow_pos 16, Nat.one_lt_two_pow (by decide), Nat.two_pow_pos 32,
      fun _ => Nat.two_pow_pos 32⟩
  have blank : sb.Sound (update (sb.nodeOf st.view) st.freeinode (some (emptyDinode type))) st.view := by
    refine inv.sound.blank (fun place => by rw [refs, none]) fun d made => ?_
    cases made
    exact ⟨rfl, no_ref st.view⟩
  rw [ialloc, ends_bind, ends_get, ends_bind, ends_set, ends_bind, ends_winode bound, ends_pure]
  have blank' : sb.Sound (update (sb.nodeOf ({ st with freeinode := st.freeinode + 1 } : Host).view) st.freeinode
      (some (emptyDinode type))) ({ st with freeinode := st.freeinode + 1 } : Host).view := blank
  obtain ⟨sound, now⟩ := put_sound blank' fits used bound
  have there : ∀ i e, i ≠ st.freeinode → sb.nodeOf st.view i = some e →
      update (sb.nodeOf st.view) st.freeinode (some (emptyDinode type)) i = some e :=
    fun i e other was => (update_of_ne other ..).trans was
  have fresh : Fresh { st with freeinode := st.freeinode + 1 } := ⟨inv.fresh.low, inv.fresh.zero⟩
  refine ⟨rfl, ⟨sound, fun i e is => ?_, fresh.put bound, fun i free => ?_⟩, ?_, rfl, rfl, fun b low => put_boot low⟩
  · rw [now] at is
    by_cases this : i = st.freeinode
    · rw [this, update_self] at is
      cases is
      refine ⟨fun bn low => ?_, iff_of_false (fun some => some rfl) (Nat.not_lt_zero _)⟩
      exact iff_of_false (fun some => some (no_ref _ _)) (Nat.not_lt_zero _)
    · rw [update_of_ne this] at is
      exact (inv.exact i e is).data fun place => ref_put blank' (there i e this is) bound place
  · rw [now, update_of_ne (Nat.ne_of_gt free)]
    exact inv.inodes i (Nat.le_of_succ_le free)
  · have files : sb.fileOf (({ st with freeinode := st.freeinode + 1 } : Host).put st.freeinode (emptyDinode type)).view =
        update (sb.fileOf st.view) st.freeinode (some ((emptyDinode type).file
          (({ st with freeinode := st.freeinode + 1 } : Host).put st.freeinode (emptyDinode type)).view)) :=
      fileOf_update now fun j e other was => file_put blank' (there j e other was) bound
    rw [files]
    congr 2

theorem iappend_file (inv : Inv st) (file : sb.fileOf st.view inum = some f)
    (fits : f.size + p.length ≤ maxFile * bsize) (room : st.freeblock + blocks (f.size + p.length) ≤ fssize + blocks f.size) :
    Ends (iappend inum p) st stop fun _ st' => Changed st inum (append f p) st' ∧
      st'.freeblock + blocks f.size = st.freeblock + blocks (f.size + p.length) := by
  obtain ⟨d, found, rfl⟩ := Option.map_eq_some_iff.mp file
  exact iappend_ends inv found fits room

theorem Changed.file (changed : Changed st inum f st') : sb.fileOf st'.view inum = some f := by
  rw [changed.files, update_self]

theorem Changed.trans {middle : Host} {g : File} (first : Changed st inum f middle) (second : Changed middle inum g st') :
    Changed st inum g st' where
  inv := second.inv
  files := by rw [second.files, first.files, update_idem]
  inode := second.inode.trans first.inode
  boot b low := (second.boot b low).trans (first.boot b low)

theorem appendAll_ends (pieces : List (List UInt8)) (inv : Inv st) (file : sb.fileOf st.view inum = some f)
    (fits : f.size + pieces.flatten.length ≤ maxFile * bsize)
    (room : st.freeblock + blocks (f.size + pieces.flatten.length) ≤ fssize + blocks f.size) :
    Ends (appendAll inum pieces) st stop fun _ st' => Changed st inum (append f pieces.flatten) st' ∧
      st'.freeblock + blocks f.size = st.freeblock + blocks (f.size + pieces.flatten.length) := by
  induction pieces generalizing st f with
  | nil =>
    have same : append f [] = f := by
      obtain ⟨d, _, rfl⟩ := Option.map_eq_some_iff.mp file
      exact append_nil _ fun q above => if_neg (not_lt.mpr above)
    rw [appendAll, ends_pure, flatten_nil, same]
    exact ⟨⟨inv, (update_eq_self_iff.mpr file.symm).symm, rfl, fun _ _ => rfl⟩, rfl⟩
  | cons piece rest ih =>
    rw [flatten_cons, length_append] at fits room
    have grows : blocks (f.size + piece.length) ≤ blocks (f.size + (piece.length + rest.flatten.length)) :=
      blocks_mono (by omega)
    rw [appendAll]
    refine (iappend_file inv file (by omega) (by omega)).seq fun _ middle facts => ?_
    obtain ⟨first, spent⟩ := facts
    have size : (append f piece).size = f.size + piece.length := rfl
    have total : f.size + piece.length + rest.flatten.length = f.size + (piece.length + rest.flatten.length) := by omega
    refine (ih first.inv first.file ?_ ?_).mono fun _ after facts => ?_
    · rw [size]
      omega
    · rw [size, total]
      omega
    · obtain ⟨second, more⟩ := facts
      rw [size, total] at more
      rw [append_append] at second
      rw [flatten_cons, length_append]
      exact ⟨first.trans second, by omega⟩

end Xv6.Mkfs
