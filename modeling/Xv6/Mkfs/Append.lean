import Xv6.Mkfs.Core

/-!
`iappend`. While the program runs, the free bit map is not on the disk yet; `view` is the
disk with the map that `balloc` would write now, so that what is known about the references
of a file system holds for the view at any time.
-/

namespace Xv6.Mkfs

open Xv6.Fs Lib.Bytes Lib.Bitmap Lib.Hoare List Superblock
open Function

variable {b sec : Nat} {buf : Block} {place : Place}

theorem usedBits_succ (used : Nat) : usedBits (used + 1) = setBit (usedBits used) used := by
  rw [usedBits, range_succ, foldl_append]
  rfl

theorem isSet_usedBits (used n : Nat) : isSet (usedBits used) n = decide (n < used) := by
  induction used with
  | zero =>
    rw [decide_eq_false (Nat.not_lt_zero n)]
    simp [usedBits, isSet]
  | succ used ih =>
    rw [usedBits_succ, isSet_setBit, ih, ← Bool.decide_or]
    exact decide_eq_decide.mpr (by omega)

/-- The disk with the bit map that would be written now. -/
def Host.view (st : Host) : Disk := update st.disk sb.bmapstart (usedBits st.freeblock)

theorem bblock_small (small : b < bpb) : sb.bblock b = sb.bmapstart := by
  rw [bblock, Nat.div_eq_of_lt small, zero_add]

variable {st st' : Host}

theorem bitOf_view (small : b < bpb) : sb.bitOf st.view b = decide (b < st.freeblock) := by
  rw [bitOf, bblock_small small, Host.view, update_self, Nat.mod_eq_of_lt small, isSet_usedBits]

theorem view_of_ne (other : b ≠ sb.bmapstart) : st.view b = st.disk b := update_of_ne other ..

def Host.write (st : Host) (sec : Nat) (buf : Block) : Host := { st with disk := update st.disk sec buf }

theorem view_write (buf : Block) (other : sec ≠ sb.bmapstart) : (st.write sec buf).view = update st.view sec buf :=
  update_comm other ..

structure Fresh (st : Host) : Prop where
  low : nmeta ≤ st.freeblock
  zero : ∀ b, st.freeblock ≤ b → st.disk b = fun _ => 0

theorem Fresh.view_next (fresh : Fresh st) (room : st.freeblock < fssize) :
    ({ st with freeblock := st.freeblock + 1 } : Host).view = sb.allocated st.view st.freeblock := by
  have low := fresh.low
  have small : st.freeblock < bpb := room.trans (by decide)
  have apart : st.freeblock ≠ sb.bmapstart := by
    have first : sb.bmapstart < nmeta := by decide
    omega
  funext b
  rw [allocated, markBlock, bblock_small small, Nat.mod_eq_of_lt small, Host.view, Host.view,
    update_self, update_idem, ← usedBits_succ]
  by_cases here : b = st.freeblock
  · rw [here, update_self, update_of_ne apart, fresh.zero _ le_rfl]
  · rw [update_of_ne here]

theorem Fresh.next (fresh : Fresh st) : Fresh { st with freeblock := st.freeblock + 1 } :=
  ⟨Nat.le_succ_of_le fresh.low, fun b above => fresh.zero b (Nat.le_of_succ_le above)⟩

theorem Fresh.write (fresh : Fresh st) (below : sec < st.freeblock) : Fresh (st.write sec buf) := by
  refine ⟨fresh.low, fun b above => ?_⟩
  have apart : b ≠ sec := (below.trans_le above).ne'
  exact (update_of_ne apart ..).trans (fresh.zero b above)

section Rules

variable {stop : Abort → Prop}

theorem ends_rsect {post : Block → Host → Prop} (inside : sec < fssize) :
    Ends (rsect sec) st stop post ↔ post (st.disk sec) st := by
  simp only [rsect, ends_bind, ends_get, if_pos inside, ends_pure]

@[simp] theorem ends_wsect {post : Unit → Host → Prop} :
    Ends (wsect sec buf) st stop post ↔ post () (st.write sec buf) := Iff.rfl

@[simp] theorem ends_nextBlock {post : Nat → Host → Prop} :
    Ends nextBlock st stop post ↔ post st.freeblock { st with freeblock := st.freeblock + 1 } := Iff.rfl

end Rules

variable {nodes : Nodes} {inum : Nat} {din din' : Dinode} {stop : Abort → Prop}

structure Grew (nodes : Nodes) (inum : Nat) (st : Host) (din : Dinode) (new : List Place) (st' : Host) (din' : Dinode) :
    Prop where
  sound : sb.Sound (update nodes inum (some din')) st'.view
  keeps : Keeps (update nodes inum (some din)) st.view (update nodes inum (some din')) st'.view
  shape : din' = { din with addrs := din'.addrs }
  old : ∀ place, place ∉ new → din'.ref st'.view place = din.ref st.view place
  filled : ∀ place ∈ new, din'.ref st'.view place ≠ 0
  others : ∀ j, j ≠ inum → ∀ place, refs nodes st'.view (j, place) = refs nodes st.view (j, place)
  low : ∀ b < nmeta, st'.disk b = st.disk b
  fresh : Fresh st'
  count : st'.freeblock = st.freeblock + new.length
  inode : st'.freeinode = st.freeinode

theorem Grew.refl (sound : sb.Sound (update nodes inum (some din)) st.view) (fresh : Fresh st) :
    Grew nodes inum st din [] st din :=
  ⟨sound, .refl _ _, rfl, fun _ _ => rfl, nofun, fun _ _ _ => rfl, fun _ _ => rfl, fresh, rfl, rfl⟩

theorem Grew.trans {middle : Host} {between : Dinode} {new more : List Place}
    (first : Grew nodes inum st din new middle between) (second : Grew nodes inum middle between more st' din') :
    Grew nodes inum st din (new ++ more) st' din' where
  sound := second.sound
  keeps := first.keeps.trans second.keeps
  shape := by rw [second.shape, first.shape]
  old place outside := by
    rw [mem_append, not_or] at outside
    rw [second.old place outside.2, first.old place outside.1]
  filled place member := by
    by_cases late : place ∈ more
    · exact second.filled place late
    · rw [second.old place late]
      exact first.filled place ((mem_append.mp member).resolve_right late)
  others j apart place := (second.others j apart place).trans (first.others j apart place)
  low b below := (second.low b below).trans (first.low b below)
  fresh := second.fresh
  count := by rw [second.count, first.count, length_append, add_assoc]
  inode := second.inode.trans first.inode

theorem Grew.one (sound : sb.Sound (update nodes inum (some din')) st'.view)
    (keeps : Keeps (update nodes inum (some din)) st.view (update nodes inum (some din')) st'.view)
    (units : refs (update nodes inum (some din')) st'.view = update (refs (update nodes inum (some din)) st.view) (inum, place) b)
    (shape : din' = { din with addrs := din'.addrs }) (some : b ≠ 0) (low : ∀ b < nmeta, st'.disk b = st.disk b)
    (fresh : Fresh st') (count : st'.freeblock = st.freeblock + 1) (inode : st'.freeinode = st.freeinode) :
    Grew nodes inum st din [place] st' din' := by
  have mine : ∀ q, din'.ref st'.view q = update (refs (update nodes inum (.some din)) st.view) (inum, place) b (inum, q) := by
    intro q
    rw [← units, refs_some (update_self ..)]
  refine ⟨sound, keeps, shape, fun q outside => ?_, fun q member => ?_, fun j apart q => ?_, low, fresh, count, inode⟩
  · rw [mine, update_of_ne fun same => outside (mem_singleton.mpr (Prod.mk.inj same).2), refs_some (update_self ..)]
  · rw [mine, mem_singleton.mp member, update_self]
    exact some
  · have after : refs (update nodes inum (.some din')) st'.view (j, q) = refs nodes st'.view (j, q) := refs_update_ne apart q
    rw [← after, units, update_of_ne fun same => apart (Prod.mk.inj same).1, refs_update_ne apart]

section Block

variable (sound : sb.Sound (update nodes inum (some din)) st.view) (fresh : Fresh st)
include sound fresh

theorem free_next (room : st.freeblock < fssize) : sb.bitOf st.view st.freeblock = false := by
  rw [bitOf_view (room.trans (by decide)), decide_eq_false (lt_irrefl _)]

omit sound in
theorem Fresh.positive : st.freeblock ≠ 0 := by
  have low := fresh.low
  have some : 0 < nmeta := by decide
  omega

theorem ensureAddr_direct (k : Fin ndirect) (room : din.addrs k.castSucc = 0 → st.freeblock < fssize) :
    Ends (ensureAddr din k.castSucc) st stop fun din' st' =>
      Grew nodes inum st din (if din.addrs k.castSucc = 0 then [.direct k] else []) st' din' := by
  rw [ensureAddr]
  split
  · next empty =>
    obtain ⟨attached, keeps, units⟩ := sound.attach_addr (free_next sound fresh (room empty)) (room empty)
      (update_self ..) (.direct k) empty (Dinode.ref_withAddr_direct k _)
    rw [update_idem] at attached keeps units
    rw [← fresh.view_next (room empty)] at attached keeps units
    simp only [ends_bind, ends_nextBlock, ends_pure]
    exact .one attached keeps units rfl fresh.positive (fun _ _ => rfl) fresh.next rfl rfl
  · rw [ends_pure]
    exact .refl sound fresh

theorem ensureAddr_indirect (room : din.ind = 0 → st.freeblock < fssize) :
    Ends (ensureAddr din (Fin.last ndirect)) st stop fun din' st' =>
      Grew nodes inum st din (if din.ind = 0 then [.indirect] else []) st' din' ∧ din'.ind ≠ 0 := by
  rw [ensureAddr]
  change Ends (if din.ind = 0 then _ else _) _ _ _
  split
  · next empty =>
    obtain ⟨attached, keeps, units⟩ := sound.attach_addr (free_next sound fresh (room empty)) (room empty)
      (update_self ..) .indirect empty (Dinode.ref_withAddr_indirect empty (update_self ..))
    rw [update_idem] at attached keeps units
    rw [← fresh.view_next (room empty)] at attached keeps units
    simp only [ends_bind, ends_nextBlock, ends_pure]
    have grew : Grew nodes inum st din [.indirect] { st with freeblock := st.freeblock + 1 }
        (din.withAddr (Fin.last ndirect) st.freeblock) :=
      .one attached keeps units rfl fresh.positive (fun _ _ => rfl) fresh.next rfl rfl
    exact ⟨grew, grew.filled .indirect (mem_singleton.mpr rfl)⟩
  · next there =>
    rw [ends_pure]
    exact ⟨.refl sound fresh, there⟩

def missing (d : Dinode) (disk : Disk) (fbn : Nat) : List Place :=
  (if ndirect ≤ fbn ∧ d.ind = 0 then [.indirect] else []) ++ if d.ref disk (placeOf fbn) = 0 then [placeOf fbn] else []

omit fresh in
theorem ref_inside (filled : din.ref st.view place ≠ 0) :
    nmeta ≤ din.ref st.view place ∧ din.ref st.view place < fssize := by
  have found : update nodes inum (some din) inum = some din := update_self ..
  have range := sound.owned.range (inum, place) (by rwa [refs_some found])
  rw [refs_some found] at range
  exact range

theorem ref_taken (filled : din.ref st.view place ≠ 0) : din.ref st.view place < st.freeblock := by
  have found : update nodes inum (some din) inum = some din := update_self ..
  have covered : fssize < bpb := by decide
  have bound := (ref_inside sound filled).2
  have marked := sound.owned.held (by rwa [refs_some found]) size_le_mapBits
  rw [refs_some found, bitOf_view (by omega)] at marked
  exact of_decide_eq_true marked

omit fresh in
theorem data_ne (filled : din.ref st.view place ≠ 0) : din.ref st.view place ≠ sb.bmapstart := by
  have first : sb.bmapstart < nmeta := by decide
  have inside := (ref_inside sound filled).1
  omega

theorem iappendBlock_direct {fbn : Nat} (direct : fbn < ndirect)
    (room : st.freeblock + (missing din st.view fbn).length ≤ fssize) :
    Ends (iappendBlock din fbn) st stop fun r st' => Grew nodes inum st din (missing din st.view fbn) st' r.2 ∧
      r.1 = r.2.ref st'.view (placeOf fbn) ∧ r.1 ≠ 0 := by
  have place : placeOf fbn = .direct ⟨fbn, direct⟩ := placeOf_direct direct
  have new : missing din st.view fbn = if din.addrs (Fin.castSucc ⟨fbn, direct⟩) = 0 then [.direct ⟨fbn, direct⟩] else [] := by
    rw [missing, if_neg fun both => absurd both.1 (not_le.mpr direct), place, nil_append]
    rfl
  rw [new] at room ⊢
  rw [iappendBlock, dif_pos direct]
  refine (ensureAddr_direct sound fresh ⟨fbn, direct⟩ fun empty => ?_).seq fun din' st' grew => ?_
  · rw [if_pos empty] at room
    exact room
  rw [ends_pure]
  refine ⟨grew, by rw [place]; rfl, ?_⟩
  by_cases empty : din.addrs (Fin.castSucc ⟨fbn, direct⟩) = 0
  · rw [if_pos empty] at grew
    exact grew.filled _ (mem_singleton.mpr rfl)
  · rw [if_neg empty] at grew
    have same := grew.old (.direct ⟨fbn, direct⟩) not_mem_nil
    exact fun none => empty (same.symm.trans none)

theorem entry_ends (j : Fin nindirect) (some : din.ind ≠ 0)
    (room : din.ref st.view (.entry j) = 0 → st.freeblock < fssize) :
    Ends (do
        let indirect ← rsect din.ind
        if load indirect (4 * j) 4 = 0 then do
          let b ← nextBlock
          wsect din.ind (store indirect (4 * j) b 4)
          return (b, din)
        else return (load indirect (4 * j) 4, din)) st stop fun r st' =>
      Grew nodes inum st din (if din.ref st.view (.entry j) = 0 then [.entry j] else []) st' r.2 ∧
        r.1 = r.2.ref st'.view (.entry j) ∧ r.1 ≠ 0 := by
  have found : update nodes inum (.some din) inum = .some din := update_self ..
  have ind : din.ref st.view .indirect ≠ 0 := some
  have apart : din.ind ≠ sb.bmapstart := data_ne sound ind
  have value : din.ref st.view (.entry j) = load (st.disk din.ind) (4 * j) 4 := by
    rw [Dinode.ref, if_neg some, view_of_ne apart]
  have inside : din.ind < fssize := (ref_inside sound ind).2
  rw [ends_bind, ends_rsect inside, ← value]
  split
  · next empty =>
    obtain ⟨attached, keeps, units⟩ := sound.attach_entry (free_next sound fresh (room empty)) (room empty) found j some empty
    have after : withEntry sb st.view din.ind j st.freeblock = ({ st with
        disk := update st.disk din.ind (store (st.disk din.ind) (4 * j) st.freeblock 4)
        freeblock := st.freeblock + 1 } : Host).view := by
      rw [withEntry, ← fresh.view_next (room empty), view_of_ne apart]
      exact (update_comm apart ..).symm
    rw [after] at attached keeps units
    simp only [ends_bind, ends_nextBlock, ends_wsect, ends_pure]
    have grew := Grew.one attached keeps units rfl fresh.positive (fun b below => update_of_ne ?_ ..)
      (fresh.next.write (Nat.lt_succ_of_lt (ref_taken sound fresh ind))) rfl rfl
    · refine ⟨grew, ?_, fresh.positive⟩
      have now := congrFun units (inum, .entry j)
      rw [refs_some found, update_self] at now
      exact now.symm
    · have low : nmeta ≤ din.ind := (ref_inside sound ind).1
      exact fun same => absurd (same ▸ below) (not_lt.mpr low)
  · next there =>
    rw [ends_pure]
    exact ⟨.refl sound fresh, rfl, there⟩

theorem iappendBlock_ends {fbn : Nat} (bound : fbn < maxFile)
    (room : st.freeblock + (missing din st.view fbn).length ≤ fssize) :
    Ends (iappendBlock din fbn) st stop fun r st' => Grew nodes inum st din (missing din st.view fbn) st' r.2 ∧
      r.1 = r.2.ref st'.view (placeOf fbn) ∧ r.1 ≠ 0 := by
  by_cases direct : fbn < ndirect
  · exact iappendBlock_direct sound fresh direct room
  have small : fbn - ndirect < nindirect := by
    simp only [maxFile] at bound
    omega
  have place : placeOf fbn = .entry ⟨fbn - ndirect, small⟩ := placeOf_entry direct small
  rw [missing, place] at room ⊢
  rw [iappendBlock, dif_neg direct]
  have first : (if ndirect ≤ fbn ∧ din.ind = 0 then [Place.indirect] else []) = if din.ind = 0 then [.indirect] else [] := by
    simp only [not_lt.mp direct, true_and]
  rw [first, length_append] at room
  rw [first]
  refine (ensureAddr_indirect sound fresh fun empty => ?_).seq fun din' st' facts => ?_
  · rw [if_pos empty, length_singleton] at room
    omega
  obtain ⟨grew, some⟩ := facts
  have apart : Place.entry ⟨fbn - ndirect, small⟩ ∉ if din.ind = 0 then [Place.indirect] else [] := by
    split
    · exact fun member => by cases mem_singleton.mp member
    · exact not_mem_nil
  have kept := grew.old _ apart
  refine (entry_ends grew.sound grew.fresh ⟨fbn - ndirect, small⟩ some fun empty => ?_).mono fun r after facts => ?_
  · rw [kept] at empty
    rw [if_pos empty, length_singleton] at room
    rw [grew.count]
    omega
  · rw [kept] at facts
    exact ⟨grew.trans facts.1, facts.2⟩

end Block

def blocks (size : Nat) : Nat := (size + (bsize - 1)) / bsize + if ndirect * bsize < size then 1 else 0

theorem blocks_eq (size : Nat) : blocks size = (size + 1023) / 1024 + min 1 (size - 12288) := by
  by_cases large : ndirect * bsize < size
  · rw [blocks, if_pos large]
    simp only [ndirect, bsize] at *
    omega
  · rw [blocks, if_neg large]
    simp only [ndirect, bsize] at *
    omega

theorem blocks_mono {size other : Nat} (smaller : size ≤ other) : blocks size ≤ blocks other := by
  rw [blocks_eq, blocks_eq]
  omega

structure Exact (d : Dinode) (disk : Disk) (off : Nat) : Prop where
  filled : ∀ bn < maxFile, d.ref disk (placeOf bn) ≠ 0 ↔ bn * bsize < off
  ind : d.ind ≠ 0 ↔ ndirect * bsize < off

variable {off n : Nat}

theorem blocks_append (some : 0 < n) (inside : n ≤ bsize - off % bsize) :
    blocks (off + n) = (if off = ndirect * bsize then 1 else 0) + (if off % bsize = 0 then 1 else 0) + blocks off := by
  rw [blocks_eq, blocks_eq]
  by_cases aligned : off % bsize = 0
  · by_cases full : off = ndirect * bsize
    · rw [if_pos aligned, if_pos full]
      simp only [ndirect, bsize] at full inside aligned
      omega
    · rw [if_pos aligned, if_neg full]
      simp only [ndirect, bsize] at full inside aligned
      omega
  · have full : off ≠ ndirect * bsize := by
      simp only [ndirect, bsize] at aligned ⊢
      omega
    rw [if_neg aligned, if_neg full]
    simp only [ndirect, bsize] at full inside aligned
    omega

theorem Exact.missing_length {d : Dinode} {disk : Disk} (exact : Exact d disk off) (bound : off / bsize < maxFile)
    (some : 0 < n) (inside : n ≤ bsize - off % bsize) :
    (missing d disk (off / bsize)).length + blocks off = blocks (off + n) := by
  have last : d.ref disk (placeOf (off / bsize)) = 0 ↔ off % bsize = 0 := by
    rw [← not_iff_not, ← Ne, exact.filled (off / bsize) bound]
    simp only [bsize]
    omega
  have first : ndirect ≤ off / bsize ∧ d.ind = 0 ↔ off = ndirect * bsize := by
    rw [← not_not (a := d.ind = 0), ← Ne, exact.ind]
    simp only [ndirect, bsize]
    omega
  rw [blocks_append some inside, missing, length_append]
  simp only [last, first, apply_ite List.length, length_singleton, length_nil]

theorem Grew.exact (exact : Exact din st.view off) (grew : Grew nodes inum st din (missing din st.view (off / bsize)) st' din')
    (filled : din'.ref st'.view (placeOf (off / bsize)) ≠ 0) (bound : off / bsize < maxFile) (some : 0 < n)
    (inside : n ≤ bsize - off % bsize) : Exact din' st'.view (off + n) := by
  have onward : ∀ bn, bn ≠ off / bsize → (bn * bsize < off ↔ bn * bsize < off + n) := by
    intro bn other
    simp only [bsize] at *
    omega
  refine ⟨fun bn low => ?_, ?_⟩
  · obtain rfl | here := eq_or_ne bn (off / bsize)
    · refine iff_of_true filled ?_
      have start := Nat.div_mul_le_self off bsize
      omega
    have outside : placeOf bn ∉ missing din st.view (off / bsize) := by
      rw [missing, mem_append, not_or]
      refine ⟨fun member => ?_, fun member => ?_⟩
      · split at member
        · exact placeOf_ne_indirect bn (mem_singleton.mp member)
        · exact absurd member not_mem_nil
      · split at member
        · exact here (placeOf_inj low bound (mem_singleton.mp member))
        · exact absurd member not_mem_nil
    rw [grew.old _ outside, exact.filled bn low]
    exact onward bn here
  · by_cases first : ndirect ≤ off / bsize
    · refine iff_of_true ?_ ?_
      · by_cases none : din.ind = 0
        · exact grew.filled .indirect (by rw [missing, if_pos ⟨first, none⟩]; exact mem_cons_self)
        have kept := grew.old .indirect (by
          rw [missing, if_neg fun both => none both.2, nil_append]
          split
          · exact fun member => placeOf_ne_indirect _ (mem_singleton.mp member).symm
          · exact not_mem_nil)
        exact fun zero => none (kept.symm.trans zero)
      · simp only [ndirect, bsize] at *
        omega
    · have kept := grew.old .indirect (by
        rw [missing, if_neg fun both => first both.1, nil_append]
        split
        · exact fun member => placeOf_ne_indirect _ (mem_singleton.mp member).symm
        · exact not_mem_nil)
      have same : din'.ind = din.ind := kept
      rw [same, exact.ind]
      simp only [ndirect, bsize] at *
      omega

theorem bcopy_outside {p : List UInt8} {dst x : Nat} (out : x < dst ∨ dst + p.length ≤ x) :
    bcopy p buf dst x = buf x := by
  induction p generalizing buf dst with
  | nil => rfl
  | cons byte rest ih =>
    rw [length_cons] at out
    rw [bcopy, ih (by omega), update_of_ne (by omega)]

theorem bcopy_inside {p : List UInt8} {dst k : Nat} {byte : UInt8} (found : p[k]? = some byte) :
    bcopy p buf dst (dst + k) = byte := by
  induction p generalizing buf dst k with
  | nil => cases found
  | cons first rest ih =>
    rw [bcopy]
    cases k with
    | zero =>
      rw [bcopy_outside (by omega), add_zero, update_self]
      exact Option.some.inj found
    | succ k =>
      have moved : dst + (k + 1) = dst + 1 + k := by omega
      rw [moved]
      exact ih found

structure Wrote (nodes : Nodes) (inum : Nat) (st : Host) (din : Dinode) (off : Nat) (p : List UInt8) (st' : Host)
    (din' : Dinode) : Prop where
  sound : sb.Sound (update nodes inum (some din')) st'.view
  shape : din' = { din with addrs := din'.addrs }
  others : ∀ j, j ≠ inum → ∀ place, refs nodes st'.view (j, place) = refs nodes st.view (j, place)
  bytes : ∀ j e, j ≠ inum → nodes j = some e → ∀ q < e.size, e.byte st'.view q = e.byte st.view q
  old : ∀ q < off, din'.byte st'.view q = din.byte st.view q
  new : ∀ k byte, p[k]? = some byte → din'.byte st'.view (off + k) = byte
  exact : Exact din' st'.view (off + p.length)
  low : ∀ b < nmeta, st'.disk b = st.disk b
  fresh : Fresh st'
  count : st'.freeblock + blocks off = st.freeblock + blocks (off + p.length)
  inode : st'.freeinode = st.freeinode

theorem Wrote.trans {middle : Host} {between : Dinode} {p rest : List UInt8}
    (first : Wrote nodes inum st din off p middle between)
    (second : Wrote nodes inum middle between (off + p.length) rest st' din') :
    Wrote nodes inum st din off (p ++ rest) st' din' where
  sound := second.sound
  shape := by rw [second.shape, first.shape]
  others j apart place := (second.others j apart place).trans (first.others j apart place)
  bytes j e apart found q below := (second.bytes j e apart found q below).trans (first.bytes j e apart found q below)
  old q below := (second.old q (by omega)).trans (first.old q below)
  new k byte found := by
    by_cases early : k < p.length
    · rw [second.old (off + k) (by omega)]
      exact first.new k byte (by rwa [List.getElem?_append_left early] at found)
    rw [List.getElem?_append_right (by omega)] at found
    have late := second.new (k - p.length) byte found
    have same : off + p.length + (k - p.length) = off + k := by omega
    rwa [same] at late
  exact := by
    rw [length_append, ← add_assoc]
    exact second.exact
  low b below := (second.low b below).trans (first.low b below)
  fresh := second.fresh
  count := by
    have one := first.count
    have two := second.count
    rw [length_append, ← add_assoc]
    omega
  inode := second.inode.trans first.inode

theorem Wrote.nil (sound : sb.Sound (update nodes inum (some din)) st.view) (fresh : Fresh st)
    (exact : Exact din st.view off) : Wrote nodes inum st din off [] st din :=
  ⟨sound, rfl, fun _ _ _ => rfl, fun _ _ _ _ _ _ => rfl, fun _ _ => rfl, nofun, exact, fun _ _ => rfl, fresh, rfl, rfl⟩

section Turn

variable {p : List UInt8} (exact : Exact din st.view off) (bound : off / bsize < maxFile)
variable (inside : p.length ≤ bsize - off % bsize)
include exact bound inside

theorem Grew.wrote (some : 0 < p.length)
    (grew : Grew nodes inum st din (missing din st.view (off / bsize)) st' din')
    (filled : din'.ref st'.view (placeOf (off / bsize)) ≠ 0) (before : sb.Sound (update nodes inum (.some din)) st.view) :
    Wrote nodes inum st din off p (st'.write (din'.ref st'.view (placeOf (off / bsize)))
      (bcopy p (st'.disk (din'.ref st'.view (placeOf (off / bsize)))) (off - off / bsize * bsize))) din' := by
  have found : update nodes inum (.some din) inum = .some din := update_self ..
  have found' : update nodes inum (.some din') inum = .some din' := update_self ..
  have notInd := placeOf_ne_indirect (off / bsize)
  have apart := data_ne grew.sound filled
  have low := (ref_inside grew.sound filled).1
  have taken := ref_taken grew.sound grew.fresh filled
  have start : off - off / bsize * bsize = off % bsize := by
    simp only [bsize]
    omega
  rw [start]
  generalize stored : bcopy p (st'.disk (din'.ref st'.view (placeOf (off / bsize)))) (off % bsize) = buf
  have view : (st'.write (din'.ref st'.view (placeOf (off / bsize))) buf).view =
      update st'.view (din'.ref st'.view (placeOf (off / bsize))) buf := view_write buf apart
  have sound' : sb.Sound (update nodes inum (.some din')) (update st'.view (din'.ref st'.view (placeOf (off / bsize))) buf) :=
    grew.sound.overwrite found' filled notInd
  have others : ∀ j, j ≠ inum → ∀ e, nodes j = .some e → update nodes inum (.some din') j = .some e :=
    fun j other e there => (update_of_ne other ..).trans there
  refine ⟨?_, grew.shape, fun j other place => ?_, fun j e other there q below => ?_, fun q below => ?_,
    fun k byte member => ?_, ?_, fun b below => ?_, grew.fresh.write taken, ?_, grew.inode⟩
  · rw [view]
    exact sound'
  · rw [view, ← grew.others j other place]
    simp only [refs]
    cases there : nodes j with
    | none => rfl
    | some e => exact grew.sound.ref_overwrite found' filled notInd (others j other e there) place
  · have old : update nodes inum (.some din) j = .some e := (update_of_ne other ..).trans there
    have some' : e.ref st.view (placeOf (q / bsize)) ≠ 0 := before.filled_byte old below
    have kept := grew.keeps.byte old (others j other e there) some'
    have ref := grew.others j other (placeOf (q / bsize))
    rw [refs_some there, refs_some there] at ref
    rw [view, grew.sound.byte_overwrite found' filled notInd (others j other e there) (ref ▸ some')
      fun same => other (Prod.mk.inj same).1, kept]
  · have some' : din.ref st.view (placeOf (q / bsize)) ≠ 0 := by
      have block : q / bsize < maxFile := (Nat.div_le_div_right below.le).trans_lt bound
      exact (exact.filled _ block).mpr ((Nat.div_mul_le_self q bsize).trans_lt below)
    have kept := grew.keeps.byte found found' some'
    rw [view, ← kept]
    by_cases here : q / bsize = off / bsize
    · -- the byte is in the block that is written, before the new ones
      have before : q % bsize < off % bsize := by
        simp only [bsize] at *
        omega
      rw [Dinode.byte, grew.sound.ref_overwrite found' filled notInd found', here, update_self, ← stored,
        bcopy_outside (.inl before), Dinode.byte, here, view_of_ne apart]
    have ref := (grew.keeps inum _ (placeOf_ne_indirect _) (by rwa [refs_some found])).1
    rw [refs_some found, refs_some found'] at ref
    refine grew.sound.byte_overwrite found' filled notInd found' (ref ▸ some') fun same => here ?_
    exact placeOf_inj ((Nat.div_le_div_right below.le).trans_lt bound) bound (Prod.mk.inj same).2
  · have short : k < p.length := (List.getElem?_eq_some_iff.mp member).1
    have block : (off + k) / bsize = off / bsize := by
      simp only [bsize] at *
      omega
    have place : (off + k) % bsize = off % bsize + k := by
      simp only [bsize] at *
      omega
    rw [view, Dinode.byte, grew.sound.ref_overwrite found' filled notInd found', block, place, update_self, ← stored,
      bcopy_inside member]
  · have now := grew.exact exact filled bound some inside
    rw [view]
    refine ⟨fun bn low => ?_, now.ind⟩
    rw [grew.sound.ref_overwrite found' filled notInd found']
    exact now.filled bn low
  · exact (update_of_ne (below.trans_le low).ne ..).trans (grew.low b below)
  · have count := exact.missing_length bound some inside
    change st'.freeblock + _ = _
    rw [grew.count]
    omega

end Turn

theorem iappendFrom_ends {p : List UInt8} (fuel : Nat) (enough : p.length ≤ fuel)
    (sound : sb.Sound (update nodes inum (some din)) st.view) (fresh : Fresh st) (exact : Exact din st.view off)
    (fits : off + p.length ≤ maxFile * bsize) (room : st.freeblock + blocks (off + p.length) ≤ fssize + blocks off) :
    Ends (iappendFrom fuel p off din) st stop fun r st' => r.1 = off + p.length ∧ Wrote nodes inum st din off p st' r.2 := by
  induction fuel generalizing p off st din with
  | zero =>
    obtain rfl : p = [] := length_eq_zero_iff.mp (by omega)
    exact ⟨rfl, .nil sound fresh exact⟩
  | succ fuel ih =>
    rw [iappendFrom]
    split
    · next none =>
      subst none
      exact ⟨rfl, .nil sound fresh exact⟩
    next nonempty =>
    have some : 0 < p.length := length_pos_iff.mpr nonempty
    have bound : off / bsize < maxFile := by
      simp only [bsize] at *
      omega
    rw [if_pos bound]
    -- the part of the bytes that goes into the block where the file ends
    generalize part : min p.length ((off / bsize + 1) * bsize - off) = n1
    have piece : 0 < n1 ∧ n1 ≤ p.length ∧ n1 ≤ bsize - off % bsize := by
      simp only [bsize] at *
      omega
    have length : (p.take n1).length = n1 := by
      rw [length_take]
      omega
    have grows : blocks (off + n1) ≤ blocks (off + p.length) := blocks_mono (by omega)
    have count := exact.missing_length bound piece.1 piece.2.2
    refine (iappendBlock_ends sound fresh bound (by omega)).seq fun r middle facts => ?_
    obtain ⟨grew, value, filled⟩ := facts
    obtain ⟨x, between⟩ := r
    dsimp only at grew value filled ⊢
    subst value
    rw [ends_bind, ends_rsect (ref_inside grew.sound filled).2, ends_bind, ends_wsect]
    have wrote := grew.wrote exact bound (by rw [length]; exact piece.2.2) (by rw [length]; exact piece.1) filled sound
    have next := wrote.exact
    have spent := wrote.count
    rw [length] at next spent
    have total : off + n1 + (p.drop n1).length = off + p.length := by
      rw [length_drop]
      omega
    refine (ih (by rw [length_drop]; omega) wrote.sound wrote.fresh next (by omega) ?_).mono fun r after facts => ?_
    · rw [total]
      omega
    obtain ⟨ended, rest⟩ := facts
    refine ⟨ended.trans total, ?_⟩
    have all := wrote.trans (show Wrote nodes inum _ between (off + (p.take n1).length) (p.drop n1) after r.2 by
      rw [length]
      exact rest)
    rwa [take_append_drop] at all

end Xv6.Mkfs
