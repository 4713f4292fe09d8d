import Xv6.Mkfs.Files

/-!
The kernel on an image of `mkfs`. `dirlookup` reads the entries of the root directory in
order and stops at the first one with the name, so that it never comes to the end of the
directory, where a block may be missing.
-/

namespace Xv6.Mkfs

open Xv6.Fs Lib.Bytes Lib.Bitmap Lib.Hoare List
open Function

def readByName (name : Name) (off n : Nat) : K (Option (List UInt8)) := do
  let dp ← iget rootIno
  ilock sb dp
  match ← dirlookup sb dp name with
  | none => return none
  | some (ip, _) =>
    ilock sb ip
    let bytes ← readi sb ip off n
    return some bytes

section Kernel

variable {st : State} {stop : Stop → Prop} {ip dp inum : Nat} {d : Dinode}

theorem iget_new (ip : Nat) (absent : ∀ jp, 0 < (st.itable jp).ref → (st.itable jp).inum ≠ inum) (bound : ip < ninode)
    (free : (st.itable ip).ref = 0) (first : ∀ jp < ip, (st.itable jp).ref ≠ 0) :
    Ends (iget inum) st stop fun r after =>
      r = ip ∧ after = st.put ip { st.itable ip with inum := inum, ref := 1, valid := false } := by
  have missing : (List.range ninode).find? (fun jp => 0 < (st.itable jp).ref ∧ (st.itable jp).inum = inum) = none := by
    refine List.find?_eq_none.mpr fun jp _ found => ?_
    obtain ⟨live, same⟩ := of_decide_eq_true found
    exact absent jp live same
  have place : (List.range ninode).find? (fun jp => (st.itable jp).ref = 0) = some ip := by
    refine List.find?_range_eq_some.mpr ⟨decide_eq_true free, mem_range.mpr bound, fun jp low => ?_⟩
    rw [decide_eq_false (first jp low)]
    rfl
  rw [iget, ends_bind, ends_get]
  simp only [missing, place]
  exact ⟨rfl, rfl⟩

theorem ilock_new (live : 1 ≤ (st.itable ip).ref) (open' : (st.itable ip).locked = false)
    (invalid : (st.itable ip).valid = false) (found : sb.nodeOf st.disk (st.itable ip).inum = some d) :
    Ends (ilock sb ip) st stop fun _ after =>
      after = st.put ip { st.itable ip with locked := true, valid := true, d := d } := by
  obtain ⟨_, used, disk⟩ := Superblock.nodeOf_eq_some found
  have loaded : loadDinode (st.disk (sb.iblock (st.itable ip).inum)) ((st.itable ip).inum % ipb * dinodeSize) = d := disk
  rw [ilock, ends_bind, ends_slot, if_neg (not_lt.mpr live), open', if_neg Bool.false_ne_true, invalid,
    if_neg Bool.false_ne_true, ends_bind, ends_bread, loaded]
  dsimp only
  rw [if_neg used, ends_bind, ends_setSlot]
  rfl

theorem readi_part {off n : Nat} (inside : off + n ≤ (st.itable ip).d.size) (room : off + n ≤ maxFile * bsize)
    (filled : ∀ q, off ≤ q → q < off + n → (st.itable ip).d.ref st.disk (placeOf (q / bsize)) ≠ 0) :
    Ends (readi sb ip off n) st stop fun bytes after =>
      bytes = (List.range n).map (fun k => (st.itable ip).d.byte st.disk (off + k)) ∧ after = st := by
  have narrow : (off + n) % 2 ^ 32 = off + n := Nat.mod_eq_of_lt (room.trans_lt (by decide))
  rw [readi_eq, readiWith, ends_bind, ends_slot, if_neg, if_neg (not_lt.mpr inside)]
  · exact readiFromWith_ends n off n (Nat.le_refl n) room filled
  · rw [narrow]
    omega

theorem direntInum_bytes (name : Name) (small : inum < 2 ^ 16) : direntInum (direntBytes inum name) = inum := by
  have value := direntBytes_inum inum name
  rw [Nat.mod_eq_of_lt small] at value
  rw [direntInum, getD_eq_getElem?_getD, getD_eq_getElem?_getD, value]

variable {name : Name}

theorem direntName_bytes (short : name.length ≤ dirSiz) (nul : 0 ∉ name) :
    direntName (direntBytes inum name) = name := by
  have whole : name.take dirSiz = name := take_of_length_le short
  have length : (name ++ List.replicate (dirSiz - name.length) (0 : UInt8)).length = dirSiz := by
    rw [length_append, length_replicate]
    omega
  have nonzero : ∀ byte ∈ name, decide (byte ≠ 0) = true := fun byte member =>
    decide_eq_true fun zero => nul (zero ▸ member)
  rw [direntName, direntBytes, whole, append_assoc]
  change (List.take dirSiz (name ++ List.replicate (dirSiz - name.length) (0 : UInt8))).takeWhile _ = name
  rw [take_of_length_le length.le, takeWhile_append_of_pos nonzero]
  cases dirSiz - name.length with
  | zero => simp
  | succ rest => simp [replicate_succ]

theorem entriesBytes_getD {entries : List (Nat × Name)} {k : Nat} {entry : Nat × Name} (found : entries[k]? = some entry)
    {j : Nat} (low : j < direntSize) :
    (entriesBytes entries).getD (direntSize * k + j) 0 = (direntBytes entry.1 entry.2).getD j 0 := by
  induction entries generalizing k with
  | nil =>
    rw [List.getElem?_nil] at found
    cases found
  | cons head rest ih =>
    have bytes : entriesBytes (head :: rest) = direntBytes head.1 head.2 ++ entriesBytes rest := rfl
    have length := direntBytes_length head.1 head.2
    cases k with
    | zero =>
      cases found
      rw [bytes, getD_append _ _ _ _ (by omega), mul_zero, zero_add]
    | succ k =>
      have next : direntSize * (k + 1) + j - direntSize = direntSize * k + j := by
        rw [Nat.mul_succ]
        omega
      rw [bytes, getD_append_right _ _ _ _ (by rw [length, Nat.mul_succ]; omega), length, next]
      exact ih found

structure Lists (st : State) (dp : Nat) (entries : List (Nat × Name)) : Prop where
  inside : direntSize * entries.length ≤ (st.itable dp).d.size
  room : direntSize * entries.length ≤ maxFile * bsize
  filled : ∀ q < direntSize * entries.length, (st.itable dp).d.ref st.disk (placeOf (q / bsize)) ≠ 0
  bytes : ∀ q < direntSize * entries.length, (st.itable dp).d.byte st.disk q = (entriesBytes entries).getD q 0
  small : ∀ entry ∈ entries, entry.1 < 2 ^ 16
  proper : ∀ entry ∈ entries, entry.2.length ≤ dirSiz ∧ 0 ∉ entry.2

variable {entries : List (Nat × Name)} {entry : Nat × Name}

theorem Lists.read {k : Nat} (lists : Lists st dp entries) (found : entries[k]? = some entry) :
    Ends (readi sb dp (direntSize * k) direntSize) st stop fun de after =>
      de = direntBytes entry.1 entry.2 ∧ after = st := by
  have low : k < entries.length := (List.getElem?_eq_some_iff.mp found).1
  have part : direntSize * k + direntSize ≤ direntSize * entries.length := by
    rw [← Nat.mul_succ]
    exact Nat.mul_le_mul_left _ low
  have inside := lists.inside
  have room := lists.room
  refine (readi_part (by omega) (by omega) fun q _ high => lists.filled q (by omega)).mono fun de after facts => ?_
  obtain ⟨rfl, rfl⟩ := facts
  refine ⟨ext_getElem (by rw [length_map, length_range, direntBytes_length]) fun j left right => ?_, rfl⟩
  rw [direntBytes_length] at right
  rw [getElem_map, getElem_range, lists.bytes _ (by omega), entriesBytes_getD found right,
    getD_eq_getElem _ _ (by rwa [direntBytes_length])]

theorem dirlookupFrom_first {m : Nat} (lists : Lists st dp entries) (found : entries[m]? = some entry)
    (named : entry.2 = name) (used : entry.1 ≠ 0) (first : ∀ k < m, ∀ e, entries[k]? = some e → e.2 ≠ name)
    {post : Option (Nat × Nat) → State → Prop} (fuel k : Nat) (enough : m < fuel + k) (below : k ≤ m)
    (rest : Ends (iget entry.1) st stop fun ip after => post (some (ip, direntSize * m)) after) :
    Ends (dirlookupFrom sb dp name fuel (direntSize * k)) st stop post := by
  induction fuel generalizing k with
  | zero => omega
  | succ fuel ih =>
    have bound : m < entries.length := (List.getElem?_eq_some_iff.mp found).1
    have here : k < entries.length := by omega
    have off : direntSize * k < (st.itable dp).d.size :=
      (Nat.mul_lt_mul_of_pos_left here (by decide)).trans_le lists.inside
    obtain ⟨e, at_k⟩ : ∃ e, entries[k]? = some e := ⟨_, List.getElem?_eq_getElem here⟩
    have member := mem_of_getElem? at_k
    rw [dirlookupFrom, ends_bind, ends_slot, if_pos off]
    refine (lists.read at_k).seq fun de after facts => ?_
    obtain ⟨rfl, rfl⟩ := facts
    rw [if_neg (not_not_intro (direntBytes_length ..)), direntInum_bytes _ (lists.small e member),
      direntName_bytes (lists.proper e member).1 (lists.proper e member).2]
    obtain rfl | last := eq_or_ne k m
    · obtain rfl := Option.some.inj (at_k.symm.trans found)
      rw [if_pos ⟨used, named.symm⟩, ends_bind]
      exact rest
    · rw [if_neg fun both => first k (by omega) e at_k both.2.symm]
      exact ih (k + 1) (by omega) (by omega)

theorem dirlookup_first {m : Nat} (lists : Lists st dp entries) (dir : (st.itable dp).d.type = tDir)
    (found : entries[m]? = some entry) (named : entry.2 = name) (used : entry.1 ≠ 0)
    (first : ∀ k < m, ∀ e, entries[k]? = some e → e.2 ≠ name) {post : Option (Nat × Nat) → State → Prop}
    (rest : Ends (iget entry.1) st stop fun ip after => post (some (ip, direntSize * m)) after) :
    Ends (dirlookup sb dp name) st stop post := by
  have bound : m < entries.length := (List.getElem?_eq_some_iff.mp found).1
  have enough : entries.length ≤ (st.itable dp).d.size / direntSize := by
    rw [Nat.le_div_iff_mul_le (by decide), mul_comm]
    exact lists.inside
  rw [dirlookup, ends_bind, ends_slot, if_neg (not_not_intro dir)]
  exact dirlookupFrom_first lists found named used first _ 0 (by omega) (Nat.zero_le m) rest

end Kernel

/-- What is asked of the names beyond what the program checks. The two names that `mkfs`
itself enters are not among them. -/
structure Distinct (files : List HostFile) : Prop where
  nodup : (files.map HostFile.shortname).Nodup
  nonempty : ∀ file ∈ files, 1 ≤ file.shortname.length
  nul : ∀ file ∈ files, 0 ∉ file.shortname
  dots : ∀ file ∈ files, file.shortname ≠ dot ∧ file.shortname ≠ dotdot

theorem entriesFrom_getElem? (first : Nat) (files : List HostFile) (k : Nat) :
    (entriesFrom first files)[k]? = (files[k]?).map fun file => (first + k, file.shortname) := by
  induction files generalizing first k with
  | nil => rfl
  | cons file rest ih =>
    cases k with
    | zero => rfl
    | succ k =>
      rw [entriesFrom, List.getElem?_cons_succ, List.getElem?_cons_succ, ih, add_assoc, add_comm 1 k]

variable {files : List HostFile} {d : Dinode} {st : Host} {κ : State} {dp : Nat}

variable {file : HostFile}

theorem rootEntries_getElem? {k : Nat} (which : files[k]? = some file) :
    (rootEntries files)[k + 2]? = some (2 + k, file.shortname) := by
  rw [rootEntries, List.getElem?_cons_succ, List.getElem?_cons_succ, entriesFrom_getElem?, which]
  rfl

theorem rootEntries_first {k : Nat} (distinct : Distinct files) (which : files[k]? = some file) :
    ∀ j < k + 2, ∀ e, (rootEntries files)[j]? = some e → e.2 ≠ file.shortname := by
  have member := mem_of_getElem? which
  intro j low e found
  match j with
  | 0 =>
    cases found
    exact (distinct.dots file member).1.symm
  | 1 =>
    cases found
    exact (distinct.dots file member).2.symm
  | j + 2 =>
    rw [rootEntries, List.getElem?_cons_succ, List.getElem?_cons_succ, entriesFrom_getElem?] at found
    obtain ⟨other, there, rfl⟩ := Option.map_eq_some_iff.mp found
    intro same
    have mine : (files.map HostFile.shortname)[k]? = some file.shortname := by rw [List.getElem?_map, which, Option.map_some]
    have its : (files.map HostFile.shortname)[j]? = some file.shortname := by
      rw [List.getElem?_map, there, Option.map_some]
      exact congrArg some same
    have bound : j < (files.map HostFile.shortname).length := (List.getElem?_eq_some_iff.mp its).1
    have index := (List.getElem?_inj bound distinct.nodup).mp (its.trans mine.symm)
    omega

theorem rootEntries_mem {entry : Nat × Name} (member : entry ∈ rootEntries files) :
    entry = (rootIno, dot) ∨ entry = (rootIno, dotdot) ∨ ∃ k file, files[k]? = some file ∧ entry = (2 + k, file.shortname) := by
  rw [rootEntries, mem_cons, mem_cons] at member
  refine member.imp id (Or.imp id fun listed => ?_)
  obtain ⟨k, found⟩ := mem_iff_getElem?.mp listed
  rw [entriesFrom_getElem?] at found
  obtain ⟨file, which, same⟩ := Option.map_eq_some_iff.mp found
  exact ⟨k, file, which, same.symm⟩

theorem Built.lists (built : Built files st d) (ok : Acceptable files) (nul : ∀ file ∈ files, 0 ∉ file.shortname)
    (disk : κ.disk = (st.put rootIno (rounded d)).view) (copy : (κ.itable dp).d = rounded d) :
    Lists κ dp (rootEntries files) := by
  have length : (rootEntries files).length = files.length + 2 := by
    rw [rootEntries, length_cons, length_cons, entriesFrom_length]
  have size := built.size
  have ref : ∀ place, d.ref (st.put rootIno (rounded d)).view place = d.ref st.view place :=
    built.ref_final built.root
  have file : d.file (st.put rootIno (rounded d)).view = append (emptyFile tDir) (entriesBytes (rootEntries files)) :=
    (file_put built.inv.sound built.root (Superblock.nodeOf_eq_some built.root).1).trans built.directory
  refine ⟨?_, ?_, fun q low => ?_, fun q low => ?_, fun entry member => ?_, fun entry member => ?_⟩
  · rw [length, copy, ← size]
    have next : d.size ≤ (d.size / bsize + 1) * bsize := by
      simp only [bsize]
      omega
    exact next
  · rw [length]
    exact ok.directory
  · rw [length, ← size] at low
    rw [copy, disk]
    have filled := built.inv.sound.filled_byte built.root low
    rw [← ref] at filled
    exact filled
  · rw [length, ← size] at low
    rw [copy, disk]
    have byte : d.byte (st.put rootIno (rounded d)).view q = (entriesBytes (rootEntries files)).getD (q - 0) 0 := by
      rw [← file_data low, file]
      rfl
    exact byte
  · rcases rootEntries_mem member with rfl | rfl | ⟨k, file, which, rfl⟩
    · decide
    · decide
    · have few := ok.few
      have bound : k < files.length := (List.getElem?_eq_some_iff.mp which).1
      simp only [ninodes] at few
      exact Nat.lt_of_lt_of_le (show 2 + k < 200 by omega) (by decide)
  · rcases rootEntries_mem member with rfl | rfl | ⟨k, file, which, rfl⟩
    · decide
    · decide
    · have here := mem_of_getElem? which
      exact ⟨(ok.named file here).short, nul file here⟩

structure RootOpen (image : Disk) (d : Dinode) (κ : State) : Prop where
  disk : κ.disk = image
  root : κ.itable 0 = ⟨rootIno, 1, true, true, d⟩
  others : ∀ ip, ip ≠ 0 → κ.itable ip = closedSlot

theorem root_opened {stop : Stop → Prop} {image : Disk} (closed : κ = .booted image)
    (root : sb.nodeOf image rootIno = some d) :
    Ends (iget rootIno) κ stop fun dp after => dp = 0 ∧ Ends (ilock sb dp) after stop fun _ last => RootOpen image d last := by
  have table : ∀ ip, κ.itable ip = closedSlot := fun _ => closed ▸ rfl
  have disk : κ.disk = image := closed ▸ rfl
  refine (iget_new 0 (fun jp live => ?_) (by decide) (by rw [table]; rfl) nofun).mono fun dp opened facts => ?_
  · rw [table] at live
    exact absurd live (lt_irrefl 0)
  obtain ⟨rfl, rfl⟩ := facts
  refine ⟨rfl, (ilock_new (d := d) ?_ ?_ ?_ ?_).mono fun _ last same => ?_⟩
  · rw [put_self]
  · rw [put_self, table]
    rfl
  · rw [put_self]
  · rw [put_self, put_disk, disk]
    exact root
  · subst same
    refine ⟨disk, ?_, fun ip other => ?_⟩
    · rw [put_self, put_self]
    · rw [put_other other, put_other other, table]

theorem RootOpen.dir {image : Disk} (ready : RootOpen image (rounded d) κ) (built : Built files st d) :
    (κ.itable 0).d.type = tDir := by
  rw [ready.root]
  exact built.type

theorem slice_append {type off n : Nat} {p : List UInt8} (inside : off ≤ p.length) :
    (append (emptyFile type) p).slice off n = (p.drop off).take n := by
  have size : (append (emptyFile type) p).size = p.length := zero_add _
  have data : ∀ q, (append (emptyFile type) p).data q = p.getD q 0 := fun _ => rfl
  have length : ((p.drop off).take n).length = min (off + n) p.length - off := by
    rw [length_take, length_drop]
    omega
  rw [File.slice, size]
  refine ext_getElem (by rw [length_map, length_range, length]) fun k left right => ?_
  rw [length] at right
  rw [getElem_map, getElem_range, data, getElem_take, getElem_drop, getD_eq_getElem _ _ (by omega)]

theorem Built.readByName_ends (built : Built files st d) (ok : Acceptable files) (distinct : Distinct files)
    {stop : Stop → Prop} {k off n : Nat} (which : files[k]? = some file)
    (inside : off ≤ file.contents.length) (narrow : off + n < 2 ^ 32)
    (closed : κ = .booted (st.put rootIno (rounded d)).view) :
    Ends (readByName file.shortname off n) κ stop fun bytes _ => bytes = some ((file.contents.drop off).take n) := by
  have root : sb.nodeOf (st.put rootIno (rounded d)).view rootIno = some (rounded d) := by rw [built.nodes, update_self]
  have other : 2 + k ≠ rootIno := by
    simp only [rootIno]
    omega
  obtain ⟨e, found, contents⟩ := Option.map_eq_some_iff.mp (built.added k file which)
  have there : sb.nodeOf (st.put rootIno (rounded d)).view (2 + k) = some e := by rw [built.nodes, update_of_ne other, found]
  have bytes : e.file (st.put rootIno (rounded d)).view = append (emptyFile tFile) file.contents :=
    (file_put built.inv.sound found (Superblock.nodeOf_eq_some built.root).1).trans contents
  rw [readByName]
  refine (root_opened closed root).seq fun dp opened facts => ?_
  obtain ⟨rfl, locks⟩ := facts
  refine locks.seq fun _ κ2 ready => ?_
  have lists : Lists κ2 0 (rootEntries files) := built.lists ok distinct.nul ready.disk (by rw [ready.root])
  have dir : (κ2.itable 0).d.type = tDir := ready.dir built
  have named : Ends (dirlookup sb 0 file.shortname) κ2 stop fun found after =>
      ∃ off, found = some (1, off) ∧ after = κ2.put 1 { κ2.itable 1 with inum := 2 + k, ref := 1, valid := false } := by
    refine dirlookup_first lists dir (rootEntries_getElem? which) rfl (by omega) (rootEntries_first distinct which) ?_
    refine (iget_new 1 (fun jp live same => ?_) (by decide) ?_ fun jp low => ?_).mono fun ip after facts => ?_
    · by_cases first : jp = 0
      · rw [first, ready.root] at same
        exact other same.symm
      · rw [ready.others jp first] at live
        exact absurd live (lt_irrefl 0)
    · rw [ready.others 1 one_ne_zero]
      rfl
    · obtain rfl : jp = 0 := by omega
      rw [ready.root]
      exact one_ne_zero
    · obtain ⟨rfl, rfl⟩ := facts
      exact ⟨_, rfl, rfl⟩
  refine named.seq fun found after facts => ?_
  obtain ⟨_, rfl, rfl⟩ := facts
  refine (ilock_new (d := e) ?_ ?_ ?_ ?_).seq fun _ last same => ?_
  · rw [put_self]
  · rw [put_self, ready.others 1 one_ne_zero]
    rfl
  · rw [put_self]
  · rw [put_self, put_disk, ready.disk]
    exact there
  have copy : (last.itable 1).d = e := by rw [same, put_self]
  have disk : last.disk = (st.put rootIno (rounded d)).view := by rw [same, put_disk, put_disk, ready.disk]
  have file' : (last.itable 1).d.file last.disk = append (emptyFile tFile) file.contents := by rw [copy, disk, bytes]
  rw [readi_eq]
  refine (readiWith_filled ?_ (fun q low => ?_) file' off n).seq fun read _ facts => ?_
  · rw [copy]
    exact built.inv.sound.sized _ e found
  · rw [copy] at low ⊢
    rw [disk, built.ref_final found]
    exact built.inv.sound.filled_byte found low
  · obtain ⟨_, _, exactly⟩ := facts
    rw [exactly, slice_append inside]
    · rfl
    · have size : (append (emptyFile tFile) file.contents).size = file.contents.length := zero_add _
      rw [File.outside, size, Nat.mod_eq_of_lt narrow]
      omega

/-- The regions that the words of the superblock describe: start and length of the log, the
inodes, the bit map and the data. -/
def regions : List Nat → List (Nat × Nat)
  | [_, size, nblocks, ninodes, nlog, logstart, inodestart, bmapstart] =>
    [(logstart, nlog), (inodestart, ninodes / ipb + 1), (bmapstart, size / bpb + 1), (size - nblocks, nblocks)]
  | _ => []

def freeblockAfter (files : List HostFile) : Nat :=
  nmeta + blocks (direntSize * (files.length + 2)) + fileBlocks files

theorem Built.bits (built : Built files st d) {b : Nat} (small : b < nbitmap * bpb) :
    sb.bitOf (st.put rootIno (rounded d)).view b = true ↔ b < freeblockAfter files := by
  have bits : sb.bitOf (st.put rootIno (rounded d)).view b = decide (b < st.freeblock) := bitOf_view small
  rw [bits, decide_eq_true_iff, built.count]
  rfl

theorem mkfs_kernel_agree (ok : Acceptable files) (distinct : Distinct files) :
    ∃ image, mkfs files = .ok image ∧
      (∃ words, loadWords (image 1) 0 4 8 = words ∧ words = superblockWords ∧ (regions words).length = 4 ∧
        (regions words).Pairwise fun first second => first.1 + first.2 ≤ second.1) ∧
      (∀ b < nbitmap * bpb, sb.bitOf image b = true ↔ b < freeblockAfter files) ∧
      (∀ site, refs (sb.nodeOf image) image site ≠ 0 →
        (nmeta ≤ refs (sb.nodeOf image) image site ∧ refs (sb.nodeOf image) image site < freeblockAfter files) ∧
        ∀ other, refs (sb.nodeOf image) image site = refs (sb.nodeOf image) image other → site = other) ∧
      ∀ file ∈ files, ∀ off n, off ≤ file.contents.length → off + n < 2 ^ 32 →
        ∃ after, (readByName file.shortname off n).run (.booted image) =
          .ok (some ((file.contents.drop off).take n), after) := by
  obtain ⟨st, d, built, made⟩ := mkfs_built ok
  have owned := built.inv.sound.owned
  refine ⟨_, made, ?_, fun b small => built.bits small, fun site used => ?_, fun file member off n inside narrow => ?_⟩
  · have block : (st.put rootIno (rounded d)).view 1 = storeWords (fun _ => 0) 0 4 superblockWords := by
      rw [view_of_ne (by decide), put_boot (by decide), built.boot]
    refine ⟨superblockWords, ?_, rfl, by decide, by decide⟩
    rw [block]
    exact loadWords_storeWords (by decide)
  · rw [built.refs_final] at used ⊢
    obtain ⟨low, high⟩ := owned.range site used
    have low' : nmeta ≤ refs (sb.nodeOf st.view) st.view site := low
    have small : refs (sb.nodeOf st.view) st.view site < bpb := high.trans (by decide)
    have marked := (owned.exact _ small).mpr (.inr ⟨site, rfl, used⟩)
    rw [bitOf_view small, decide_eq_true_iff, built.count] at marked
    exact ⟨⟨low', marked⟩, fun other same => owned.distinct site other used same⟩
  · obtain ⟨k, which⟩ := mem_iff_getElem?.mp member
    generalize booted : State.booted (st.put rootIno (rounded d)).view = κ
    obtain ⟨bytes, after, ran, rfl⟩ := (built.readByName_ends ok distinct which inside narrow booted.symm).gives
    exact ⟨after, ran⟩

def twoFiles : List HostFile := [⟨userDir ++ [95, 97], [[1, 2], [3]]⟩, ⟨[98], []⟩]

theorem twoFiles_acceptable : Acceptable twoFiles := ⟨by decide, by decide, by decide, by decide⟩

theorem twoFiles_distinct : Distinct twoFiles := ⟨by decide, by decide, by decide, by decide⟩

theorem mkfs_kernel_agree_two : ∃ image, mkfs twoFiles = .ok image ∧
    ∃ after, (readByName [97] 0 3).run (.booted image) = .ok (some [1, 2, 3], after) := by
  obtain ⟨image, made, _, _, _, reads⟩ := mkfs_kernel_agree twoFiles_acceptable twoFiles_distinct
  exact ⟨image, made, reads _ mem_cons_self 0 3 (by decide) (by decide)⟩

theorem Built.readByName_dot (built : Built files st d) (ok : Acceptable files) (nul : ∀ file ∈ files, 0 ∉ file.shortname)
    {off n : Nat} (closed : κ = .booted (st.put rootIno (rounded d)).view) :
    Ends (readByName dot off n) κ (fun reason => reason = .blocked) fun _ _ => False := by
  have root : sb.nodeOf (st.put rootIno (rounded d)).view rootIno = some (rounded d) := by rw [built.nodes, update_self]
  rw [readByName]
  refine (root_opened closed root).seq fun dp opened facts => ?_
  obtain ⟨rfl, locks⟩ := facts
  refine locks.seq fun _ κ2 ready => ?_
  have lists : Lists κ2 0 (rootEntries files) := built.lists ok nul ready.disk (by rw [ready.root])
  have first : (rootEntries files)[0]? = some (rootIno, dot) := rfl
  rw [ends_bind]
  refine dirlookup_first lists (ready.dir built) first rfl one_ne_zero nofun ?_
  have cached : (List.range ninode).find? (fun jp => 0 < (κ2.itable jp).ref ∧ (κ2.itable jp).inum = rootIno) = some 0 := by
    refine List.find?_range_eq_some.mpr ⟨decide_eq_true ?_, mem_range.mpr (by decide), nofun⟩
    rw [ready.root]
    exact ⟨Nat.one_pos, rfl⟩
  rw [iget, ends_bind, ends_get]
  simp only [cached]
  rw [ends_bind, ends_setSlot, ends_pure, ilock, ends_bind, ends_bind, ends_slot, put_self, ready.root]
  exact rfl

def dotFile : List HostFile := [⟨[95, 46], [[7]]⟩]

theorem mkfs_kernel_dot : Acceptable dotFile ∧ (dotFile.map HostFile.shortname).Nodup ∧
    (∀ file ∈ dotFile, 1 ≤ file.shortname.length ∧ 0 ∉ file.shortname) ∧ ∃ image, mkfs dotFile = .ok image ∧
      ∀ file ∈ dotFile, ¬ ∃ after, (readByName file.shortname 0 1).run (.booted image) = .ok (some file.contents, after) := by
  have ok : Acceptable dotFile := ⟨by decide, by decide, by decide, by decide⟩
  obtain ⟨st, d, built, made⟩ := mkfs_built ok
  refine ⟨ok, by decide, by decide, _, made, fun file member => ?_⟩
  have name : file.shortname = dot := by
    rw [mem_singleton.mp member]
    decide
  rintro ⟨after, ran⟩
  rw [name] at ran
  exact (built.readByName_dot ok (by decide) rfl).of_run ran

end Xv6.Mkfs
