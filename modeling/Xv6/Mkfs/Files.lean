import Xv6.Fs.Ownership
import Xv6.Mkfs.Image

/-!
`main` for a list of host files. Each file gets the next inode number and an entry in the
root directory.
-/

namespace Xv6.Mkfs

open Xv6.Fs Lib.Bytes Lib.Bitmap Lib.Hoare List Superblock
open Function

variable {st st' : Host} {stop : Abort → Prop}

def entriesBytes (entries : List (Nat × Name)) : List UInt8 := entries.flatMap fun entry => direntBytes entry.1 entry.2

def entriesFrom (first : Nat) : List HostFile → List (Nat × Name)
  | [] => []
  | file :: rest => (first, file.shortname) :: entriesFrom (first + 1) rest

def rootEntries (files : List HostFile) : List (Nat × Name) :=
  (rootIno, dot) :: (rootIno, dotdot) :: entriesFrom 2 files

def fileBlocks (files : List HostFile) : Nat := (files.map fun file => blocks file.contents.length).sum

theorem entriesBytes_length (entries : List (Nat × Name)) : (entriesBytes entries).length = direntSize * entries.length := by
  induction entries with
  | nil => rfl
  | cons entry rest ih =>
    have rest' : (rest.flatMap fun entry => direntBytes entry.1 entry.2).length = direntSize * rest.length := ih
    rw [entriesBytes, flatMap_cons, length_append, rest', direntBytes_length, length_cons]
    simp only [direntSize]
    omega

theorem entriesFrom_length (first : Nat) (files : List HostFile) : (entriesFrom first files).length = files.length := by
  induction files generalizing first with
  | nil => rfl
  | cons file rest ih => rw [entriesFrom, length_cons, length_cons, ih]

theorem fileBlocks_cons (file : HostFile) (rest : List HostFile) :
    fileBlocks (file :: rest) = blocks file.contents.length + fileBlocks rest := by
  rw [fileBlocks, map_cons, sum_cons]
  rfl

theorem size_append_dirent (root : File) (inum : Nat) (name : Name) :
    (append root (direntBytes inum name)).size = root.size + direntSize := by
  rw [← direntBytes_length inum name]
  rfl

theorem size_entries (size : Nat) (file : HostFile) (rest : List HostFile) :
    size + direntSize + direntSize * rest.length = size + direntSize * (file :: rest).length := by
  rw [length_cons, Nat.mul_succ]
  omega

structure Named (file : HostFile) : Prop where
  slash : slash ∉ file.shortname
  short : file.shortname.length ≤ dirSiz

instance (file : HostFile) : Decidable (Named file) :=
  decidable_of_iff (slash ∉ file.shortname ∧ file.shortname.length ≤ dirSiz)
    ⟨fun both => ⟨both.1, both.2⟩, fun named => ⟨named.slash, named.short⟩⟩

variable {file : HostFile} {root : File}

theorem Named.base_slash (named : Named file) : Mkfs.slash ∉ file.base := by
  intro member
  refine named.slash ?_
  rw [HostFile.shortname]
  split
  · next first =>
    cases base : file.base with
    | nil =>
      rw [base] at member
      exact member
    | cons byte rest =>
      rw [base] at member first
      obtain rfl : byte = underscore := Option.some.inj first
      exact (mem_cons.mp member).resolve_left (by decide)
  · exact member

structure Added (st : Host) (root : File) (file : HostFile) (st' : Host) : Prop where
  inv : Inv st'
  files : sb.fileOf st'.view = update (update (sb.fileOf st.view) st.freeinode (some (append (emptyFile tFile) file.contents)))
    rootIno (some (append root (direntBytes st.freeinode file.shortname)))
  inode : st'.freeinode = st.freeinode + 1
  count : st'.freeblock + blocks root.size = st.freeblock + blocks (root.size + direntSize) + blocks file.contents.length
  boot : ∀ b < sb.inodestart, st'.disk b = st.disk b

theorem addFile_ends (inv : Inv st) (found : sb.fileOf st.view rootIno = some root)
    (bound : st.freeinode < ninodes) (named : Named file) (directory : root.size + direntSize ≤ maxFile * bsize)
    (sized : file.contents.length ≤ maxFile * bsize)
    (room : st.freeblock + blocks (root.size + direntSize) + blocks file.contents.length ≤ fssize + blocks root.size) :
    Ends (addFile rootIno file) st stop fun _ st' => Added st root file st' := by
  have other : rootIno ≠ st.freeinode := by
    intro same
    rw [fileOf, same, inv.inodes _ le_rfl] at found
    cases found
  have grows : blocks root.size ≤ blocks (root.size + direntSize) := blocks_mono (by omega)
  rw [addFile, if_neg named.base_slash, if_neg (not_lt.mpr named.short)]
  refine (ialloc_ends inv bound (by decide) (by decide)).seq fun inum first facts => ?_
  obtain ⟨rfl, inv1, files1, inode1, count1, boot1⟩ := facts
  have root1 : sb.fileOf first.view rootIno = some root := by rw [files1, update_of_ne other, found]
  refine (iappend_file inv1 root1 (by rwa [direntBytes_length]) (by rw [direntBytes_length, count1]; omega)).seq
    fun _ second facts => ?_
  obtain ⟨changed, count2⟩ := facts
  rw [direntBytes_length] at count2
  have file2 : sb.fileOf second.view st.freeinode = some (emptyFile tFile) := by
    rw [changed.files, update_of_ne (Ne.symm other), files1, update_self]
  have none : (emptyFile tFile).size = 0 := rfl
  have zero : blocks 0 = 0 := rfl
  have contents : file.pieces.flatten = file.contents := rfl
  refine (appendAll_ends file.pieces changed.inv file2 ?_ ?_).mono fun _ last facts => ?_
  · rw [none, zero_add, contents]
    exact sized
  · rw [none, zero_add, contents, zero]
    omega
  · obtain ⟨filled, count3⟩ := facts
    rw [none, zero_add, contents, zero] at count3
    refine ⟨filled.inv, ?_, ?_, by omega, fun b low => ?_⟩
    · rw [filled.files, changed.files, files1, Function.update_comm other, Function.update_idem, contents]
    · rw [filled.inode, changed.inode, inode1]
    · rw [filled.boot b low, changed.boot b low, boot1 b low]

structure AddedAll (st : Host) (root : File) (files : List HostFile) (st' : Host) : Prop where
  inv : Inv st'
  directory : sb.fileOf st'.view rootIno = some (append root (entriesBytes (entriesFrom st.freeinode files)))
  added : ∀ k file, files[k]? = some file →
    sb.fileOf st'.view (st.freeinode + k) = some (append (emptyFile tFile) file.contents)
  others : ∀ i < st.freeinode, i ≠ rootIno → sb.fileOf st'.view i = sb.fileOf st.view i
  inode : st'.freeinode = st.freeinode + files.length
  count : st'.freeblock + blocks root.size = st.freeblock + blocks (root.size + direntSize * files.length) + fileBlocks files
  boot : ∀ b < sb.inodestart, st'.disk b = st.disk b

theorem AddedAll.nil (inv : Inv st) (found : sb.fileOf st.view rootIno = some root) : AddedAll st root [] st := by
  have same : append root [] = root := by
    obtain ⟨d, _, rfl⟩ := Option.map_eq_some_iff.mp found
    exact append_nil _ fun q above => if_neg (not_lt.mpr above)
  refine ⟨inv, ?_, fun k file which => ?_, fun _ _ _ => rfl, rfl, rfl, fun _ _ => rfl⟩
  · rw [found]
    exact congrArg some same.symm
  · rw [List.getElem?_nil] at which
    cases which

theorem AddedAll.cons {rest : List HostFile} {middle : Host} (other : rootIno < st.freeinode)
    (first : Added st root file middle)
    (more : AddedAll middle (append root (direntBytes st.freeinode file.shortname)) rest st') :
    AddedAll st root (file :: rest) st' := by
  have inode := first.inode
  refine ⟨more.inv, ?_, fun k file' which => ?_, fun i low apart => ?_, ?_, ?_, fun b low => ?_⟩
  · rw [more.directory, append_append, inode]
    rfl
  · cases k with
    | zero =>
      cases which
      rw [add_zero, more.others _ (by omega) other.ne', first.files, update_of_ne other.ne',
        update_self]
    | succ k =>
      have placed := more.added k file' which
      rwa [inode, show st.freeinode + 1 + k = st.freeinode + (k + 1) by omega] at placed
  · rw [more.others i (by omega) apart, first.files, update_of_ne apart, update_of_ne low.ne]
  · rw [more.inode, inode, length_cons]
    omega
  · have later := more.count
    have now := first.count
    rw [size_append_dirent, size_entries _ file] at later
    rw [fileBlocks_cons]
    omega
  · rw [more.boot b low, first.boot b low]

theorem addFiles_ends (files : List HostFile) (inv : Inv st) (found : sb.fileOf st.view rootIno = some root)
    (other : rootIno < st.freeinode) (few : st.freeinode + files.length ≤ ninodes) (named : ∀ file ∈ files, Named file)
    (directory : root.size + direntSize * files.length ≤ maxFile * bsize)
    (sized : ∀ file ∈ files, file.contents.length ≤ maxFile * bsize)
    (room : st.freeblock + blocks (root.size + direntSize * files.length) + fileBlocks files ≤ fssize + blocks root.size) :
    Ends (addFiles rootIno files) st stop fun _ st' => AddedAll st root files st' := by
  induction files generalizing st root with
  | nil =>
    rw [addFiles, ends_pure]
    exact AddedAll.nil inv found
  | cons file rest ih =>
    have total := size_entries root.size file rest
    rw [fileBlocks_cons] at room
    have grows : blocks (root.size + direntSize) ≤ blocks (root.size + direntSize * (file :: rest).length) :=
      blocks_mono (by omega)
    rw [length_cons] at few
    rw [addFiles]
    refine (addFile_ends inv found (by omega) (named file mem_cons_self) (by omega)
      (sized file mem_cons_self) (by omega)).seq fun _ middle first => ?_
    have root' : sb.fileOf middle.view rootIno = some (append root (direntBytes st.freeinode file.shortname)) := by
      rw [first.files, update_self]
    have inode := first.inode
    have count := first.count
    refine (ih first.inv root' (by omega) (by omega) (fun f member => named f (mem_cons_of_mem _ member)) ?_
      (fun f member => sized f (mem_cons_of_mem _ member)) ?_).mono fun _ after more => AddedAll.cons other first more
    · rw [size_append_dirent, total]
      exact directory
    · rw [size_append_dirent, total]
      omega

/-- The arguments are names that fit, and the files fit into the image. -/
structure Acceptable (files : List HostFile) : Prop where
  named : ∀ file ∈ files, Named file
  sized : ∀ file ∈ files, file.contents.length ≤ maxFile * bsize
  few : files.length ≤ ninodes - 2
  fits : nmeta + blocks (direntSize * (files.length + 2)) + fileBlocks files ≤ fssize

def rounded (d : Dinode) : Dinode := { d with size := (d.size / bsize + 1) * bsize }

structure Built (files : List HostFile) (st : Host) (d : Dinode) : Prop where
  inv : Inv st
  root : sb.nodeOf st.view rootIno = some d
  directory : d.file st.view = append (emptyFile tDir) (entriesBytes (rootEntries files))
  added : ∀ k file, files[k]? = some file → sb.fileOf st.view (2 + k) = some (append (emptyFile tFile) file.contents)
  count : st.freeblock = nmeta + blocks (direntSize * (files.length + 2)) + fileBlocks files
  boot : st.disk 1 = storeWords (fun _ => 0) 0 4 superblockWords

def begun : Host := zeroed.write 1 (storeWords (fun _ => 0) 0 4 superblockWords)

theorem begun_none (i : Nat) : sb.nodeOf begun.view i = none := by
  by_cases bound : i < ninodes
  · have high : sb.iblock i ≠ 1 := by
      have far : sb.inodestart ≤ sb.iblock i := Nat.le_add_left ..
      have start : sb.inodestart = 33 := by decide
      omega
    have block : begun.disk (sb.iblock i) = fun _ => 0 :=
      update_of_ne high (storeWords (fun _ => 0) 0 4 superblockWords) zeroed.disk
    have free : (sb.dinodeOf begun.view i).type = 0 := by
      rw [dinodeOf_view bound, dinodeOf, block]
      simp [loadDinode, load]
    rw [nodeOf, if_neg fun both => both.2 free]
  · rw [nodeOf, if_neg fun both => bound both.1]

theorem begun_inv : Inv begun where
  sound := by
    have nodes : sb.nodeOf begun.view = fun _ => none := funext begun_none
    have start : sb.dataStart = nmeta := by decide
    have bits : sb.mapBits = bpb := by decide
    rw [nodes]
    refine ⟨⟨fun _ _ some => absurd rfl some, fun _ some => absurd rfl some, fun b low => ?_⟩, nofun, nofun⟩
    rw [bitOf_view (bits ▸ low), decide_eq_true_iff, start]
    refine ⟨.inl, fun either => either.resolve_right ?_⟩
    rintro ⟨_, rfl, some⟩
    exact some rfl
  exact i d found := by
    rw [begun_none] at found
    cases found
  fresh := ⟨le_rfl, fun b high => update_of_ne (fun same => absurd (same ▸ high) (by decide)) ..⟩
  inodes i _ := begun_none i

theorem ends_fixRoot {d : Dinode} {post : Unit → Host → Prop} (found : sb.nodeOf st.view rootIno = some d) :
    Ends (fixRoot rootIno) st stop post ↔ post () (st.put rootIno (rounded d)) := by
  obtain ⟨bound, -, rfl⟩ := nodeOf_eq_some found
  rw [fixRoot, ends_bind, ends_rinode bound, ends_winode bound]
  rfl

theorem size_both (n : Nat) : direntSize + direntSize + direntSize * n = direntSize * (n + 2) := by
  simp only [direntSize]
  omega

theorem Acceptable.directory {files : List HostFile} (ok : Acceptable files) :
    direntSize * (files.length + 2) ≤ maxFile * bsize := by
  have few := ok.few
  have most : files.length + 2 ≤ 200 := by
    simp only [ninodes] at few
    omega
  exact (Nat.mul_le_mul_left direntSize most).trans (by decide)

theorem main_ends {files : List HostFile} (start : st' = zeroed) (ok : Acceptable files) :
    Ends (main files) st' stop fun _ after => ∃ st d, Built files st d ∧ after.disk = (st.put rootIno (rounded d)).view := by
  have few := ok.few
  have fits := ok.fits
  have directory := ok.directory
  have total := size_both files.length
  have limit : 2 + files.length ≤ ninodes := by
    simp only [ninodes] at few ⊢
    omega
  have first : blocks direntSize ≤ blocks (direntSize * (files.length + 2)) := blocks_mono (by omega)
  have second : blocks (direntSize + direntSize) ≤ blocks (direntSize * (files.length + 2)) := blocks_mono (by omega)
  have zero : blocks 0 = 0 := rfl
  obtain ⟨inv0, inode0, count0, boot0⟩ : Inv (st'.write 1 (storeWords (fun _ => 0) 0 4 superblockWords)) ∧
      st'.freeinode = rootIno ∧ st'.freeblock = nmeta ∧
      (st'.write 1 (storeWords (fun _ => 0) 0 4 superblockWords)).disk 1 = storeWords (fun _ => 0) 0 4 superblockWords :=
    ⟨start ▸ begun_inv, start ▸ rfl, start ▸ rfl, update_self 1 _ st'.disk⟩
  rw [main, ends_bind, ends_wsect]
  refine (ialloc_ends inv0 (inode0.trans_lt (by decide)) (by decide) (by decide)).seq fun rootino st1 facts => ?_
  obtain ⟨rfl, inv1, files1, inode1, count1, boot1⟩ := facts
  rw [show (st'.write 1 (storeWords (fun _ => 0) 0 4 superblockWords)).freeinode = rootIno from inode0] at files1 inode1 ⊢
  rw [show (st'.write 1 (storeWords (fun _ => 0) 0 4 superblockWords)).freeblock = nmeta from count0] at count1
  rw [if_neg (not_not_intro rfl)]
  have root1 : sb.fileOf st1.view rootIno = some (emptyFile tDir) := by rw [files1, update_self]
  have none : (emptyFile tDir).size = 0 := rfl
  refine (iappend_file inv1 root1 ?_ ?_).seq fun _ st2 facts => ?_
  · rw [none, direntBytes_length]
    omega
  · rw [none, direntBytes_length, zero, zero_add]
    omega
  obtain ⟨changed2, count2⟩ := facts
  rw [none, direntBytes_length, zero, zero_add] at count2
  have size2 : (append (emptyFile tDir) (direntBytes rootIno dot)).size = direntSize := by
    rw [size_append_dirent, none, zero_add]
  refine (iappend_file changed2.inv changed2.file ?_ ?_).seq fun _ st3 facts => ?_
  · rw [size2, direntBytes_length]
    omega
  · rw [size2, direntBytes_length]
    omega
  obtain ⟨changed3, count3⟩ := facts
  rw [size2, direntBytes_length] at count3
  have size3 : (append (append (emptyFile tDir) (direntBytes rootIno dot)) (direntBytes rootIno dotdot)).size =
      direntSize + direntSize := by
    rw [size_append_dirent, size2]
  have inode3 : st3.freeinode = 2 := by rw [changed3.inode, changed2.inode, inode1, rootIno]
  refine (addFiles_ends files changed3.inv changed3.file (by rw [inode3]; decide) (by rw [inode3]; exact limit) ok.named ?_ ok.sized ?_).seq
    fun _ st4 all => ?_
  · rw [size3, total]
    omega
  · rw [size3, total]
    omega
  have count4 := all.count
  rw [size3, total] at count4
  obtain ⟨d, root, entries⟩ := Option.map_eq_some_iff.mp all.directory
  have count : st4.freeblock = nmeta + blocks (direntSize * (files.length + 2)) + fileBlocks files := by omega
  have small : st4.freeblock < bpb := (count.trans_le fits).trans_lt (by decide)
  rw [ends_bind, ends_fixRoot root, ends_bind, ends_get, balloc]
  have used : (st4.put rootIno (rounded d)).freeblock < bpb := small
  rw [if_pos used, wsect, ends_modify]
  refine ⟨st4, d, ⟨all.inv, root, ?_, fun k file which => ?_, count, ?_⟩, rfl⟩
  · rw [entries, append_append, append_append, inode3]
    rfl
  · rw [← inode3]
    exact all.added k file which
  · rw [all.boot 1 (by decide), changed3.boot 1 (by decide), changed2.boot 1 (by decide), boot1 1 (by decide), boot0]

theorem mkfs_built {files : List HostFile} (ok : Acceptable files) :
    ∃ st d, Built files st d ∧ mkfs files = .ok (st.put rootIno (rounded d)).view := by
  -- the program is not to be evaluated on the zeroed image
  rw [mkfs]
  generalize start : zeroed = first
  obtain ⟨after, ran, st, d, built, disk⟩ := (main_ends start.symm ok).returns
  refine ⟨st, d, built, ?_⟩
  rw [ran, ← disk]
  rfl

namespace Built

variable {files : List HostFile} {d : Dinode}

theorem size (built : Built files st d) : d.size = direntSize * (files.length + 2) := by
  have length : (entriesBytes (rootEntries files)).length = direntSize * (files.length + 2) := by
    rw [entriesBytes_length, rootEntries, length_cons, length_cons, entriesFrom_length]
  have size : d.size = 0 + (entriesBytes (rootEntries files)).length := congrArg File.size built.directory
  rw [size, length, zero_add]

theorem type (built : Built files st d) : d.type = tDir := congrArg File.type built.directory

theorem nodes (built : Built files st d) :
    sb.nodeOf (st.put rootIno (rounded d)).view = update (sb.nodeOf st.view) rootIno (some (rounded d)) := by
  obtain ⟨bound, used, disk⟩ := nodeOf_eq_some built.root
  have fits : d.Fits := disk ▸ sb.dinodeOf_fits st.view rootIno
  have most : d.size / bsize + 1 ≤ maxFile + 1 :=
    Nat.succ_le_succ (Nat.div_le_of_le_mul (mul_comm maxFile bsize ▸ built.inv.sound.sized rootIno d built.root))
  have size : (d.size / bsize + 1) * bsize < 2 ^ 32 := (Nat.mul_le_mul_right bsize most).trans_lt (by decide)
  have fits' : (rounded d).Fits := ⟨fits.type, fits.major, fits.minor, fits.nlink, size, fits.addrs⟩
  have used' : (rounded d).type ≠ 0 := used
  rw [view_put bound, nodeOf_putDinode bound fits', if_pos used']

theorem ref_final (built : Built files st d) {i : Nat} {e : Dinode} (found : sb.nodeOf st.view i = some e) (place : Place) :
    e.ref (st.put rootIno (rounded d)).view place = e.ref st.view place :=
  ref_put built.inv.sound found (nodeOf_eq_some built.root).1 place

theorem refs_final (built : Built files st d) :
    refs (sb.nodeOf (st.put rootIno (rounded d)).view) (st.put rootIno (rounded d)).view = refs (sb.nodeOf st.view) st.view := by
  funext ⟨i, place⟩
  rw [built.nodes]
  obtain rfl | root := eq_or_ne i rootIno
  · rw [refs_some (update_self ..), refs_some built.root]
    exact built.ref_final built.root place
  rw [refs_update_ne root]
  cases found : sb.nodeOf st.view i with
  | none => simp only [refs, found]
  | some e => rw [refs_some found, refs_some found, built.ref_final found]

theorem noHoles_iff (built : Built files st d) (ok : Acceptable files) :
    NoHoles sb (st.put rootIno (rounded d)).view ↔ (files.length + 2) % 64 ≠ 0 := by
  have exact := built.inv.exact rootIno d built.root
  have here : sb.nodeOf (st.put rootIno (rounded d)).view rootIno = some (rounded d) := by rw [built.nodes, update_self]
  have blocks : ((rounded d).size + (bsize - 1)) / bsize = d.size / bsize + 1 := by
    simp only [rounded, bsize]
    omega
  have low : d.size / bsize < maxFile := by
    have few := ok.few
    rw [built.size]
    simp only [direntSize, bsize, ninodes, maxFile, ndirect, nindirect] at few ⊢
    omega
  have filled : ∀ bn < maxFile, (rounded d).ref (st.put rootIno (rounded d)).view (placeOf bn) ≠ 0 ↔ bn * bsize < d.size := by
    intro bn small
    rw [← exact.filled bn small, ← built.ref_final built.root]
    rfl
  have boundary : d.size / bsize * bsize < d.size ↔ (files.length + 2) % 64 ≠ 0 := by
    rw [built.size]
    simp only [direntSize, bsize]
    omega
  rw [← boundary]
  refine ⟨fun whole => ?_, fun partly i e found bn below => ?_⟩
  · refine (filled _ low).mp (whole rootIno _ here _ ?_)
    rw [blocks]
    exact Nat.lt_succ_self _
  obtain rfl | root := eq_or_ne i rootIno
  · cases here.symm.trans found
    rw [blocks] at below
    have most : bn ≤ d.size / bsize := Nat.le_of_lt_succ below
    refine (filled bn (most.trans_lt low)).mpr ?_
    exact (Nat.mul_le_mul_right bsize most).trans_lt partly
  · rw [built.nodes, update_of_ne root] at found
    rw [built.ref_final found]
    exact built.inv.sound.filled i e found bn ((below_size_iff bn _).mp below)

end Built

/-- The blocks of the image's files are all there unless the entries of the root directory
fill its last block: then the size that the directory gets counts a block that it lacks. -/
theorem mkfs_noHoles_iff {files : List HostFile} (ok : Acceptable files) :
    ∃ image, mkfs files = .ok image ∧ (NoHoles sb image ↔ (files.length + 2) % 64 ≠ 0) := by
  obtain ⟨st, d, built, made⟩ := mkfs_built ok
  exact ⟨_, made, built.noHoles_iff ok⟩

def emptyFiles (n : Nat) : List HostFile := (List.range n).map fun k => ⟨[97, UInt8.ofNat (k + 64)], []⟩

theorem emptyFiles_acceptable {n : Nat} (few : n ≤ ninodes - 2) (names : ∀ file ∈ emptyFiles n, Named file)
    (empty : fileBlocks (emptyFiles n) = 0) : Acceptable (emptyFiles n) := by
  have length : (emptyFiles n).length = n := by rw [emptyFiles, length_map, length_range]
  have most : direntSize * (n + 2) ≤ direntSize * 200 := by
    simp only [ninodes] at few
    exact Nat.mul_le_mul_left direntSize (by omega)
  refine ⟨names, fun file member => ?_, length.trans_le few, ?_⟩
  · obtain ⟨k, _, rfl⟩ := mem_map.mp member
    exact Nat.zero_le _
  · rw [length, empty]
    exact Nat.le_trans (Nat.add_le_add_right (Nat.add_le_add_left (blocks_mono most) nmeta) 0) (by decide)

theorem mkfs_noHoles_one : ∃ image, mkfs (emptyFiles 1) = .ok image ∧ NoHoles sb image := by
  obtain ⟨image, made, whole⟩ :=
    mkfs_noHoles_iff (emptyFiles_acceptable (n := 1) (by decide) (by decide) (by decide))
  exact ⟨image, made, whole.mpr (by decide)⟩

/-- With 62 files and the entries "." and ".." the last block of the directory is full. -/
theorem mkfs_hole_full_directory : ∃ image, mkfs (emptyFiles 62) = .ok image ∧ ¬ NoHoles sb image := by
  have ok : Acceptable (emptyFiles 62) := emptyFiles_acceptable (by decide) (by decide) (by decide)
  obtain ⟨st, d, built, made⟩ := mkfs_built ok
  exact ⟨_, made, fun whole => (built.noHoles_iff ok).mp whole (by decide)⟩

end Xv6.Mkfs
