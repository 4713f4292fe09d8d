import Xv6.Fs.Calls
import Xv6.Fs.Format
import Xv6.Fs.Refinement
import Xv6.Lib.Transition

/-!
Runs of file system calls. A run starts on a consistent disk with an empty inode table and
makes calls one after another, each of which may fail at any point.
-/

namespace Xv6.Fs

open Lib Lib.Hoare

inductive Call where
  | ilock (ip : Nat)
  | iunlock (ip : Nat)
  | idup (ip : Nat)
  | namei (cwd : Nat) (path : List UInt8)
  | readi (ip off n : Nat)
  | writei (ip : Nat) (src : Nat → Option UInt8) (off n : Nat)
  | itrunc (ip : Nat)
  | ialloc (type : Nat)
  | iput (ip : Nat)
  | create (cwd : Nat) (path : List UInt8) (type major minor : Nat)
  | dirlink (dp : Nat) (name : Name) (inum : Nat)
  | sysUnlink (cwd : Nat) (path : List UInt8)
  | sysLink (cwd : Nat) (old new : List UInt8)
  | sysMkdir (cwd : Nat) (path : List UInt8)
  | sysMknod (cwd : Nat) (path : List UInt8) (major minor : Nat)
  | sysOpenCreate (cwd : Nat) (path : List UInt8) (trunc fileFree : Bool)

def discard {α : Type} (program : K α) : K Unit := (fun _ => ()) <$> program

def Call.run (sb : Superblock) : Call → K Unit
  | .ilock ip => Fs.ilock sb ip
  | .iunlock ip => Fs.iunlock ip
  | .idup ip => discard (Fs.idup ip)
  | .namei cwd path => discard (Fs.namei sb cwd path)
  | .readi ip off n => discard (Fs.readi sb ip off n)
  | .writei ip src off n => discard (Fs.writei sb ip src off n)
  | .itrunc ip => Fs.itrunc sb ip
  | .ialloc type => discard (Fs.ialloc sb type)
  | .iput ip => Fs.iput sb ip
  | .create cwd path type major minor => discard (Fs.create sb cwd path type major minor)
  | .dirlink dp name inum => discard (Fs.dirlink sb dp name inum)
  | .sysUnlink cwd path => discard (Fs.sysUnlink sb cwd path)
  | .sysLink cwd old new => discard (Fs.sysLink sb cwd old new)
  | .sysMkdir cwd path => discard (Fs.sysMkdir sb cwd path)
  | .sysMknod cwd path major minor => discard (Fs.sysMknod sb cwd path major minor)
  | .sysOpenCreate cwd path trunc fileFree => discard (Fs.sysOpenCreate sb cwd path trunc fileFree)

/-- Callers hold a reference to the inodes they pass, and have loaded the one they read or
write; numbers have the width of their C types; and bytes written into a directory name
inodes of the disk. -/
def Call.Admitted (sb : Superblock) (st : State) : Call → Prop
  | .ilock ip | .iunlock ip | .idup ip | .iput ip => 0 < (st.itable ip).ref
  | .namei cwd path => Rooted st cwd path
  | .readi ip _ _ => Ready st ip
  | .writei ip src off n =>
    Ready st ip ∧ off < 2 ^ 32 ∧ n < 2 ^ 32 ∧ ((st.itable ip).d.type = tDir → ∀ result after,
      (Fs.writei sb ip src off n).run st = .ok (result, after) → Listed sb (sb.fileOf after.disk))
  | .itrunc ip => Ready st ip
  | .ialloc type => type < 2 ^ 16
  | .create cwd path type _ _ => Rooted st cwd path ∧ type < 2 ^ 16
  | .dirlink dp _ inum => Ready st dp ∧ inum < sb.ninodes
  | .sysUnlink cwd path => Rooted st cwd path
  | .sysLink cwd old new => Rooted st cwd old ∧ Rooted st cwd new
  | .sysMkdir cwd path => Rooted st cwd path
  | .sysMknod cwd path _ _ => Rooted st cwd path
  | .sysOpenCreate cwd path _ _ => Rooted st cwd path

def Call.step (sb : Superblock) (st : State) (call : Call) : Option State :=
  match (call.run sb).run st with
  | .ok (_, after) => some after
  | .error _ => none

def NoHoles (sb : Superblock) (disk : Disk) : Prop :=
  ∀ i d, sb.nodeOf disk i = some d → ∀ bn, bn < (d.size + (bsize - 1)) / bsize →
    d.ref disk (placeOf bn) ≠ 0

structure Consistent (sb : Superblock) (disk : Disk) : Prop where
  owned : Lib.Ownership.Owned (refs (sb.nodeOf disk) disk) (sb.bitOf disk) sb.dataStart sb.size sb.mapBits
  sized : ∀ i d, sb.nodeOf disk i = some d → d.size ≤ maxFile * bsize
  listed : Listed sb (sb.fileOf disk)

variable {sb : Superblock} {st : State} {disk : Disk}

theorem below_size_iff (bn size : Nat) : bn < (size + (bsize - 1)) / bsize ↔ bn * bsize < size := by
  simp only [bsize]
  omega

theorem Consistent.sound (consistent : Consistent sb disk) (filled : NoHoles sb disk) :
    sb.Sound (sb.nodeOf disk) disk :=
  ⟨consistent.owned, fun i d found bn low => filled i d found bn ((below_size_iff bn _).mpr low),
    consistent.sized⟩

theorem writei_inv (inv : Inv sb st) {ip : Nat} (ready : Ready st ip)
    (src : Nat → Option UInt8) {off n : Nat} (narrow : off < 2 ^ 32) (short : n < 2 ^ 32)
    (entries : (st.itable ip).d.type = tDir → ∀ result after,
      (writei sb ip src off n).run st = .ok (result, after) → Listed sb (sb.fileOf after.disk)) :
    Ends (writei sb ip src off n) st Safe fun _ after => Inv sb after := by
  have opened := inv.opened ready
  refine (writei_ends inv.good.sound (opened.synced inv.good) rfl narrow short).mono_run
    fun result after ran outcome => ?_
  rcases outcome with ⟨_, _, rfl⟩ | ⟨tot, d, _, _, renewed, overlaid⟩
  · exact inv
  refine ⟨renewed.good inv.good ready.1, ?_⟩
  by_cases dir : (st.itable ip).d.type = tDir
  · exact entries dir result after ran
  rw [renewed.files]
  refine inv.listed.update fun f made isDir => ?_
  cases made
  rw [overlaid.shape] at isDir
  exact absurd isDir dir

theorem Call.run_inv (inv : Inv sb st) (call : Call) (admitted : call.Admitted sb st) :
    Ends (call.run sb) st Safe fun _ after => Inv sb after := by
  have none : Counts st (fun jp => (st.itable jp).ref) [] := fun jp => rfl
  -- a call on one slot holds the caller's reference to it
  have one : ∀ ip, 0 < (st.itable ip).ref →
      Counts st (fun jp => (st.itable jp).ref - [ip].count jp) [ip] := by
    intro ip live jp
    refine (Nat.sub_add_cancel ?_).symm
    obtain rfl | same := eq_or_ne jp ip
    · rwa [List.count_singleton_self]
    · rw [List.count_cons_of_ne (Ne.symm same)]
      exact Nat.zero_le _
  cases call with
  | ilock ip =>
    exact (ilock_step inv (one ip admitted) (by simp)).mono fun _ _ facts => facts.1.inv
  | iunlock ip => exact (iunlock_step inv (one ip admitted) (by simp)).mono fun _ _ step => step.inv
  | idup ip =>
    rw [Call.run, discard, ends_map]
    refine (idup_ends inv.good admitted).mono fun _ _ facts => ?_
    obtain ⟨_, rfl, good⟩ := facts
    exact ⟨good, inv.listed⟩
  | namei cwd path =>
    rw [Call.run, discard, ends_map]
    exact (namei_step path inv none admitted).mono fun _ _ facts => facts.1
  | readi ip off n =>
    rw [Call.run, discard, ends_map]
    have opened := inv.opened admitted
    refine (readi_ends inv.good.sound (opened.synced inv.good) rfl off n).mono fun _ _ facts => ?_
    rw [facts.1]
    exact inv
  | writei ip src off n =>
    rw [Call.run, discard, ends_map]
    exact writei_inv inv admitted.1 src admitted.2.1 admitted.2.2.1 admitted.2.2.2
  | itrunc ip => exact (itrunc_step inv none admitted).mono fun _ _ step => step.inv
  | ialloc type =>
    rw [Call.run, discard, ends_map]
    refine (ialloc_step inv none admitted).mono fun _ _ facts => ?_
    rcases facts with ⟨_, rfl⟩ | ⟨_, _, step⟩
    · exact inv
    · exact step.inv
  | iput ip => exact (iput_step inv (one ip admitted) (by simp)).mono fun _ _ step => step.inv
  | create cwd path type major minor =>
    rw [Call.run, discard, ends_map]
    exact (create_step admitted.2 inv none admitted.1).mono fun _ _ made => made.inv
  | dirlink dp name inum =>
    rw [Call.run, discard, ends_map]
    exact (dirlink_step inv none admitted.1 name admitted.2).mono fun _ _ step => step.inv
  | sysUnlink cwd path =>
    rw [Call.run, discard, ends_map]
    exact (sysUnlink_step path inv none admitted).mono fun _ _ facts => facts.1
  | sysLink cwd old new =>
    rw [Call.run, discard, ends_map]
    exact sysLink_step inv none admitted.1 admitted.2
  | sysMkdir cwd path =>
    rw [Call.run, discard, ends_map]
    exact sysMkdir_step inv none admitted
  | sysMknod cwd path major minor =>
    rw [Call.run, discard, ends_map]
    exact sysMknod_step inv none admitted
  | sysOpenCreate cwd path trunc fileFree =>
    rw [Call.run, discard, ends_map]
    exact sysOpenCreate_step inv none admitted

theorem run_inv {image : Disk} (consistent : Consistent sb image) (filled : NoHoles sb image)
    (reached : Reaches (Call.step sb) (fun st call => call.Admitted sb st) (.booted image) st) :
    Inv sb st := by
  refine reached.invariant (Inv sb) ⟨booted_good (consistent.sound filled), consistent.listed⟩
    fun before call after inv admitted stepped => ?_
  have ends := call.run_inv inv admitted
  rw [Call.step] at stepped
  split at stepped
  · next ran =>
    cases stepped
    exact ends.of_run ran
  · exact absurd stepped (by simp)

theorem block_ownership (sb : Superblock) (image : Disk) (consistent : Consistent sb image)
    (filled : NoHoles sb image) (st : State)
    (reached : Reaches (Call.step sb) (fun st call => call.Admitted sb st) (.booted image) st) :
    (∀ site other, refs (sb.nodeOf st.disk) st.disk site ≠ 0 →
      refs (sb.nodeOf st.disk) st.disk site = refs (sb.nodeOf st.disk) st.disk other → site = other) ∧
    (∀ site, refs (sb.nodeOf st.disk) st.disk site ≠ 0 →
      sb.dataStart ≤ refs (sb.nodeOf st.disk) st.disk site ∧
        refs (sb.nodeOf st.disk) st.disk site < sb.size) ∧
    (∀ b < sb.mapBits, sb.bitOf st.disk b = true ↔
      b < sb.dataStart ∨ ∃ site, refs (sb.nodeOf st.disk) st.disk site = b ∧ b ≠ 0) ∧
    ∀ call : Call, call.Admitted sb st → (call.run sb).run st ≠ .error (.panic .freeingFreeBlock) := by
  have inv := run_inv consistent filled reached
  have owned := inv.good.sound.owned
  refine ⟨owned.distinct, owned.range, owned.exact, fun call admitted stopped => ?_⟩
  exact (call.run_inv inv admitted).of_stop stopped rfl

def leaves (sb : Superblock) (st : State) (call : Call) : State := (call.step sb st).getD st

theorem step_leaves {call : Call} (runs : (call.step sb st).isSome = true) :
    call.step sb st = some (leaves sb st call) := by
  rw [leaves, ← Option.get_eq_getD (h := runs), Option.some_get]

def fileCreated : State := leaves tiny (.booted tiny.formatted) (.create 0 [slash, 97] tFile 0 0)

def fileWritten : State := leaves tiny fileCreated (.writei 1 threeBytes 0 3)

theorem formatted_consistent (sb : Superblock) : Consistent sb sb.formatted := by
  refine ⟨(formatted_sound sb).owned, (formatted_sound sb).sized, fun i f found dir off _ low => ?_⟩
  rw [Superblock.fileOf] at found
  obtain ⟨d, node, rfl⟩ := Option.map_eq_some_iff.mp found
  have empty : (d.file sb.formatted).size = 0 := by rw [only_root node]; rfl
  rw [empty, direntSize] at low
  exact absurd low (by omega)

theorem formatted_noHoles (sb : Superblock) : NoHoles sb sb.formatted :=
  fun i d found bn low => (formatted_sound sb).filled i d found bn ((below_size_iff bn _).mp low)

theorem fileWritten_reached : Reaches (Call.step tiny) (fun st call => call.Admitted tiny st)
    (.booted tiny.formatted) fileWritten := by
  have created : Reaches (Call.step tiny) (fun st call => call.Admitted tiny st)
      (.booted tiny.formatted) fileCreated :=
    Reaches.refl.tail (.create 0 [slash, 97] tFile 0 0) ⟨.inl rfl, by decide⟩
      (step_leaves (by decide +kernel))
  have plain : (fileCreated.itable 1).d.type ≠ tDir := by decide +kernel
  exact created.tail (.writei 1 threeBytes 0 3)
    ⟨⟨by decide +kernel, by decide +kernel⟩, by decide, by decide, fun dir => absurd dir plain⟩
    (step_leaves (by decide +kernel))

theorem block_ownership_written : ∃ st, Reaches (Call.step tiny) (fun st call => call.Admitted tiny st)
      (.booted tiny.formatted) st ∧ refs (tiny.nodeOf st.disk) st.disk (2, .direct ⟨0, by decide⟩) = 5 ∧
    ∀ b < tiny.mapBits, tiny.bitOf st.disk b = true ↔
      b < tiny.dataStart ∨ ∃ site, refs (tiny.nodeOf st.disk) st.disk site = b ∧ b ≠ 0 :=
  ⟨fileWritten, fileWritten_reached, by decide +kernel, (block_ownership tiny tiny.formatted (formatted_consistent tiny)
    (formatted_noHoles tiny) fileWritten fileWritten_reached).2.2.1⟩

theorem no_holes (sb : Superblock) (image : Disk) (consistent : Consistent sb image)
    (filled : NoHoles sb image) (st : State)
    (reached : Reaches (Call.step sb) (fun st call => call.Admitted sb st) (.booted image) st) :
    NoHoles sb st.disk ∧ ∀ ip off n, Ready st ip →
      readi sb ip off n = readiWith (balloc sb) ip off n ∧
        ∃ bytes, ∀ alloc : K Nat, (readiWith alloc ip off n).run st = .ok (bytes, st) := by
  have inv := run_inv consistent filled reached
  refine ⟨fun i d found bn low => ?_, fun ip off n ready => ⟨readi_eq off n, ?_⟩⟩
  · exact inv.good.sound.filled i d found bn ((below_size_iff bn _).mp low)
  have opened := inv.opened ready
  generalize file : (st.itable ip).d.file st.disk = f
  have reads : ∀ alloc : K Nat, Ends (readiWith alloc ip off n) st (fun _ => False) _ :=
    fun alloc => readiWith_ends inv.good.sound (opened.synced inv.good) file off n
  by_cases out : f.outside off n
  · exact ⟨[], fun alloc => (reads alloc).run_eq fun _ _ facts => ⟨facts.2.1 out, facts.1⟩⟩
  · exact ⟨_, fun alloc => (reads alloc).run_eq fun _ _ facts => ⟨facts.2.2 out, facts.1⟩⟩

theorem no_holes_written : ∃ st, Reaches (Call.step tiny) (fun st call => call.Admitted tiny st)
      (.booted tiny.formatted) st ∧ NoHoles tiny st.disk ∧
    ∃ bytes, ∀ alloc : K Nat, (readiWith alloc 1 0 5).run st = .ok (bytes, st) := by
  have ready : Ready fileWritten 1 := ⟨by decide +kernel, by decide +kernel⟩
  have facts := no_holes tiny tiny.formatted (formatted_consistent tiny) (formatted_noHoles tiny)
    fileWritten fileWritten_reached
  exact ⟨fileWritten, fileWritten_reached, facts.1, (facts.2 1 0 5 ready).2⟩

def unmarked : Disk :=
  tiny.putDinode (Function.update tiny.formatted 4 fun off => if off % 4 = 0 then 5 else 0) 2
    ⟨tFile, 0, 0, 1, 17 * bsize, fun k => if k = Fin.last ndirect then 4 else 5⟩

def overUnmarked : State := leaves tiny (.booted unmarked) (.create 0 [slash, 97] tFile 0 0)

theorem hole_from_unmarked : ∃ st, NoHoles tiny unmarked ∧
    Reaches (Call.step tiny) (fun st call => call.Admitted tiny st) (.booted unmarked) st ∧
    ¬ NoHoles tiny st.disk := by
  have sizes : ∀ i : Fin 16, (tiny.dinodeOf unmarked i).size ≤ 17 * bsize := by decide +kernel
  have present : ∀ i : Fin 16, ∀ bn : Fin 17,
      (bn : Nat) < ((tiny.dinodeOf unmarked i).size + (bsize - 1)) / bsize →
        (tiny.dinodeOf unmarked i).ref unmarked (placeOf bn) ≠ 0 := by decide +kernel
  refine ⟨overUnmarked, fun i d found bn low => ?_, Reaches.refl.tail (.create 0 [slash, 97] tFile 0 0)
    ⟨.inl rfl, by decide⟩ (step_leaves (by decide +kernel)), fun filled => ?_⟩
  · obtain ⟨bound, _, rfl⟩ := Superblock.nodeOf_eq_some found
    have size := sizes ⟨i, bound⟩
    have short : bn < 17 := by
      simp only [bsize] at low size
      omega
    exact present ⟨i, bound⟩ ⟨bn, short⟩ low
  -- the directory got block 4 and cleared it, and its first entry is shorter than four of inode 2's
  have node : (tiny.nodeOf overUnmarked.disk 2).isSome = true := by decide +kernel
  obtain ⟨d, found⟩ := Option.isSome_iff_exists.mp node
  obtain ⟨_, _, rfl⟩ := Superblock.nodeOf_eq_some found
  exact filled 2 _ found 16 (by decide +kernel) (by decide +kernel)

end Xv6.Fs
