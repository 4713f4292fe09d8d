import Xv6.Names.Walk

/-!
The calls on descriptors: `open`, `read`, `write`, `fstat`, `dup`, `close`, `pipe`, `fork`,
`exit` and `wait` leave a process with no reference but its descriptors and its current
directory.
-/

namespace Xv6.Names

open Lib Lib.Interleave List
open Fs (Name Dinode tDir tFile tDevice)

variable {cfg : Config} {pid ip i f fd : Nat} {g : Ghost} {held : List (Nat × Nat)} {locks : List Nat}
variable {share share' : Share} {st : State}

def Back (after : Ghost) : Prop := ∃ share : Share, share.Idle ∧ after = At [] [] share

theorem back (idle : share.Idle) : Back (At [] [] share) := ⟨share, idle, rfl⟩

theorem closeLast_holds {file : File} {after : Ghost} (closed : Closed (At held [] share) share' file after) :
    Holds (logic cfg) pid (closeLast file) after fun _ after => after = At held [] share' := by
  rw [Closed] at closed
  rw [closeLast]
  cases type : file.type with
  | none =>
    rw [type] at closed
    exact closed
  | pipe =>
    rw [type] at closed
    subst closed
    have member : (file.pipe, file.writable) ∈ ((At held [] share).gives
        { share' with ends := (file.pipe, file.writable) :: share'.ends }).share.ends := mem_cons_self
    refine (pipeclose_does member).holds.mono fun _ after known => ?_
    subst known
    change At held [] { share' with ends := ((file.pipe, file.writable) :: share'.ends).erase _ } = _
    rw [erase_cons_head]
  | inode | device =>
    rw [type] at closed
    obtain ⟨i, rfl⟩ := closed
    have put : Holds (logic cfg) pid (iput file.ip) (At ((file.ip, i) :: held) [] share') _ := iput_head (by rintro ⟨⟩)
    exact put

theorem fileclose_of (does : Does (logic cfg) pid (.fileclose f) (At held [] share) (Dropped (At held [] share) share')) :
    Holds (logic cfg) pid (fileclose f) (At held [] share) fun _ after => after = At held [] share' := by
  refine does.then fun reply after known => ?_
  match reply with
  | none => exact known
  | some file => exact closeLast_holds known

theorem fileclose_holds (member : f ∈ share.files) :
    Holds (logic cfg) pid (fileclose f) (At held [] share) fun _ after =>
      after = At held [] { share with files := share.files.erase f, fresh := share.fresh.erase f } :=
  fileclose_of (fileclose_does member)

theorem fileclose_new (member : f ∈ share.files) (fresh : f ∈ share.fresh) :
    Holds (logic cfg) pid (fileclose f) (At held locks share) fun _ after =>
      after = At held locks { share with files := share.files.erase f, fresh := share.fresh.erase f } := by
  have start : Does (logic cfg) pid (.fileclose f) (At held locks share) _ := fileclose_fresh member fresh
  refine start.then fun reply after known => ?_
  obtain ⟨type, rfl⟩ := known
  match reply with
  | none => rfl
  | some file =>
    have none := type file rfl
    change Holds _ _ (closeLast file) _ _
    rw [closeLast, none]
    rfl

theorem Share.Idle.lists (idle : share.Idle) : { share with files := [], fresh := [] } = share := by
  obtain ⟨files, fresh, _⟩ := idle
  cases share
  simp only at files fresh
  rw [files, fresh]

theorem openAlloc_holds (idle : share.Idle) :
    Holds (logic cfg) pid openAlloc (At held locks share) fun found after =>
      match found with
      | none => after = At held locks share
      | some (f, fd) => after = At held locks
          { share with fresh := [f], uses := ⟨fd, f, none⟩ :: share.uses, closed := 0 } := by
  have start : Does (logic cfg) pid .filealloc (At held locks share) _ := filealloc_does
  refine start.then fun found after known => ?_
  match found with
  | none => exact known
  | some f =>
    obtain ⟨_, rfl⟩ := known
    change Holds _ _ _ (At held locks { share with files := f :: share.files, fresh := f :: share.fresh }) _
    rw [idle.files, idle.fresh]
    have next : Does (logic cfg) pid (.fdalloc f) (At held locks { share with files := [f], fresh := [f] }) _ :=
      fdalloc_does mem_cons_self idle.pending
    refine next.then fun found after known => ?_
    match found with
    | none =>
      simp only at known
      subst known
      refine after_then (fileclose_new mem_cons_self mem_cons_self) fun _ => ?_
      change At held locks { share with files := [f].erase f, fresh := [f].erase f } = _
      rw [erase_cons_head, idle.lists]
    | some fd =>
      obtain ⟨_, n, none, rfl⟩ := known
      rw [none mem_cons_self]
      change At held locks { share with
        files := [f].erase f, fresh := [f], uses := ⟨fd, f, .none⟩ :: share.uses, closed := 0 } = _
      rw [erase_cons_head, ← idle.files]

theorem openInode_holds (idle : share.Idle) (omode : Omode) :
    Holds (logic cfg) pid (openInode ip omode) (At [(ip, i)] [ip] share) fun _ => Back := by
  refine quiet_then rfl fun node => ?_
  have put : Holds (logic cfg) pid (iunlockput ip) (At [(ip, i)] [ip] share) fun _ after => after = At [] [] share :=
    iunlockput_only
  split
  · exact after_then put fun _ => back idle
  refine (openAlloc_holds idle).bind fun found after known => ?_
  match found with
  | none =>
    subst known
    exact after_then put fun _ => back idle
  | some (f, fd) =>
    subst known
    have set : Does (logic cfg) pid (.openFile f ip (node.type = tDevice) (!omode.wronly) (omode.wronly || omode.rdwr))
        (At [(ip, i)] [ip] { share with fresh := [f], uses := ⟨fd, f, none⟩ :: share.uses, closed := 0 }) _ :=
      openFile_does mem_cons_self mem_cons_self mem_cons_self
    refine set.then fun _ after known => ?_
    have opened : ∃ now : Share, now.Idle ∧ after = At [] [ip] now := by
      refine ⟨{ share with
        fresh := [f].erase f
        uses := ⟨fd, f, some ip⟩ :: (⟨fd, f, none⟩ :: share.uses).filter fun u => u.f ≠ f
        closed := 0 }, ⟨idle.files, erase_cons_head _ _, idle.pending, idle.ends, idle.child, idle.away⟩,
        known.trans ?_⟩
      change At ([(ip, i)].erase (ip, i)) [ip] _ = _
      rw [erase_cons_head]
      rfl
    obtain ⟨now, rest, rfl⟩ := opened
    have unlock : ∀ value : Int, Holds (logic cfg) pid (do
        act (.iunlock ip)
        return value) (At [] [ip] now) fun _ => Back := fun value =>
      after_then (iunlock_holds [] (by simp)) fun _ => back rest
    split
    · exact quiet_then rfl fun _ => quiet_then rfl fun _ => unlock fd
    · exact unlock fd

theorem sysOpen_holds (idle : share.Idle) (ninodes : Nat) (path : List UInt8) (omode : Omode) :
    Holds (logic cfg) pid (sysOpen ninodes path omode) (At [] [] share) fun _ => Back := by
  refine quiet_then rfl fun _ => ?_
  split
  · refine (create_holds ninodes path tFile 0 0).bind fun made after known => ?_
    match made with
    | none =>
      subst known
      exact back idle
    | some ip =>
      obtain ⟨i, rfl⟩ := known
      exact openInode_holds idle omode
  · refine (namei_holds path).bind fun found after known => ?_
    match found with
    | none =>
      subst known
      exact back idle
    | some ip =>
      obtain ⟨i, rfl⟩ := known
      refine ilock_then fun _ => ?_
      refine quiet_then rfl fun node => ?_
      split
      · exact after_then iunlockput_only fun _ => back idle
      · exact openInode_holds idle omode

theorem argfd_then {rest : Nat → P Int} (idle : share.Idle)
    (continues : ∀ f n (now : Share), now.Idle → ⟨fd, f, n⟩ ∈ now.uses →
      Holds (logic cfg) pid (rest f) (At [] [] now) fun _ => Back) :
    Holds (logic cfg) pid (do
      match ← act (.argfd fd) with
      | none => return -1
      | some f => rest f) (At [] [] share) fun _ => Back := by
  have start : Does (logic cfg) pid (.argfd fd) (At [] [] share) _ := argfd_does idle.pending
  refine start.then fun found after known => ?_
  match found with
  | none =>
    obtain ⟨k, _, rfl⟩ := known
    exact ⟨{ share with closed := k },
      ⟨idle.files, idle.fresh, idle.pending, idle.ends, idle.child, idle.away⟩, rfl⟩
  | some f =>
    obtain ⟨n, rfl⟩ := known
    exact continues f n { share with uses := ⟨fd, f, n⟩ :: share.uses }
      ⟨idle.files, idle.fresh, idle.pending, idle.ends, idle.child, idle.away⟩ mem_cons_self

theorem ilock_use {u : Use} (used : u ∈ share.uses) (node : u.node = some ip) :
    Holds (logic cfg) pid (ilock ip) (At [] [] share) fun _ after => after = At [] [ip] share :=
  (ilock_holds (.inr ⟨u, used, node⟩)).mono fun _ _ known => known.2

theorem fileread_holds (idle : share.Idle) {u : Use} (used : u ∈ share.uses) :
    Holds (logic cfg) pid (fileread u.f) (At [] [] share) fun _ => Back := by
  have start : Does (logic cfg) pid (.file u.f) (At [] [] share) _ := file_does used
  refine start.then fun file after known => ?_
  obtain ⟨node, rfl⟩ := known
  split
  · exact back idle
  cases type : file.type with
  | none => exact panic_then ⟨nofun, nofun⟩
  | pipe | device => exact back idle
  | inode =>
    rw [File.node, type] at node
    refine after_then (ilock_use used node.symm) fun _ => ?_
    exact after_then (iunlock_holds [] (by simp)) fun _ => back idle

theorem filestat_holds (idle : share.Idle) {u : Use} (used : u ∈ share.uses) :
    Holds (logic cfg) pid (filestat u.f) (At [] [] share) fun _ => Back := by
  have start : Does (logic cfg) pid (.file u.f) (At [] [] share) _ := file_does used
  refine start.then fun file after known => ?_
  obtain ⟨node, rfl⟩ := known
  have stat : file.node = some file.ip → Holds (logic cfg) pid (do
      ilock file.ip
      act (.iunlock file.ip)
      return (0 : Int)) (At [] [] share) fun _ => Back := fun here =>
    after_then (ilock_use used (node.symm.trans here)) fun _ =>
      after_then (iunlock_holds [] (by simp)) fun _ => back idle
  cases type : file.type with
  | none | pipe => exact back idle
  | device | inode => exact stat (by rw [File.node, type])

theorem filewriteLoop_holds (idle : share.Idle) {u : Use} (used : u ∈ share.uses) (node : u.node = some ip) : ∀ turns,
    Holds (logic cfg) pid (filewriteLoop ip turns) (At [] [] share) fun _ => Back := by
  intro turns
  induction turns with
  | zero => exact back idle
  | succ turns ih =>
    rw [filewriteLoop]
    refine after_then (ilock_use used node) fun _ => ?_
    refine quiet_then rfl fun whole => quiet_then rfl fun _ => ?_
    refine after_then (iunlock_holds [] (by simp)) fun _ => ?_
    cases whole with
    | true => exact ih
    | false => exact back idle

theorem filewrite_holds (idle : share.Idle) {u : Use} (used : u ∈ share.uses) (turns : Nat) :
    Holds (logic cfg) pid (filewrite u.f turns) (At [] [] share) fun _ => Back := by
  have start : Does (logic cfg) pid (.file u.f) (At [] [] share) _ := file_does used
  refine start.then fun file after known => ?_
  obtain ⟨node, rfl⟩ := known
  split
  · exact back idle
  cases type : file.type with
  | none => exact panic_then ⟨nofun, nofun⟩
  | pipe | device => exact back idle
  | inode =>
    rw [File.node, type] at node
    exact filewriteLoop_holds idle used node.symm turns

theorem sysDup_holds (idle : share.Idle) (fd : Nat) :
    Holds (logic cfg) pid (sysDup fd) (At [] [] share) fun _ => Back := by
  refine argfd_then idle fun f n now rest used => ?_
  have next : Does (logic cfg) pid (.fdalloc f) (At [] [] now) _ :=
    fdalloc_early (u := ⟨fd, f, n⟩) used rest.pending
  refine next.then fun found after known => ?_
  match found with
  | none =>
    subst known
    exact back rest
  | some fd' =>
    subst known
    have count : Does (logic cfg) pid (.filedup f) (At [] [] { now with pending := some (fd', f), closed := 0 }) _ :=
      filedup_does (u := ⟨fd, f, n⟩) used rfl rest.fresh
    refine count.then fun _ after known => ?_
    subst known
    exact ⟨{ now with pending := none, closed := 0 },
      ⟨rest.files, rest.fresh, rfl, rest.ends, rest.child, rest.away⟩, rfl⟩

theorem sysClose_holds (idle : share.Idle) (fd : Nat) :
    Holds (logic cfg) pid (sysClose fd) (At [] [] share) fun _ => Back := by
  refine argfd_then idle fun f n now rest used => ?_
  have clear : Does (logic cfg) pid (.clearFd fd) (At [] [] now) _ :=
    clearFd_does (u := ⟨fd, f, n⟩) used rest.pending fun _ => rfl
  refine clear.then fun _ after known => ?_
  subst known
  refine after_then (fileclose_holds mem_cons_self) fun _ => ?_
  refine ⟨{ now with
    files := (f :: now.files).erase f
    fresh := now.fresh.erase f
    uses := now.uses.filter fun v => v.fd ≠ fd }, ⟨?_, ?_, rest.pending, rest.ends, rest.child, rest.away⟩, rfl⟩
  · rw [erase_cons_head]
    exact rest.files
  · rw [rest.fresh]
    rfl

theorem pipealloc_holds (idle : share.Idle) :
    Holds (logic cfg) pid pipealloc (At [] [] share) fun found after =>
      match found with
      | none => after = At [] [] share
      | some (rf, wf) => after = At [] [] { share with files := [wf, rf] } := by
  have start : Does (logic cfg) pid .filealloc (At [] [] share) _ := filealloc_does
  refine start.then fun found after known => ?_
  match found with
  | none => exact known
  | some rf =>
    obtain ⟨_, rfl⟩ := known
    change Holds _ _ _ (At [] [] { share with files := rf :: share.files, fresh := rf :: share.fresh }) _
    rw [idle.files, idle.fresh]
    have next : Does (logic cfg) pid .filealloc (At [] [] { share with files := [rf], fresh := [rf] }) _ := filealloc_does
    refine next.then fun found after known => ?_
    match found with
    | none =>
      simp only at known
      subst known
      refine after_then (fileclose_holds mem_cons_self) fun _ => ?_
      change At [] [] { share with files := [rf].erase rf, fresh := [rf].erase rf } = _
      rw [erase_cons_head, idle.lists]
    | some wf =>
      obtain ⟨new, rfl⟩ := known
      have different : wf ≠ rf := fun same => new (same ▸ mem_cons_self)
      have second : rf ∈ [wf, rf] := mem_cons_of_mem _ mem_cons_self
      have both : Does (logic cfg) pid (.pipealloc rf wf)
          (At [] [] { share with files := [wf, rf], fresh := [wf, rf] }) _ :=
        pipealloc_does second mem_cons_self different
      refine both.then fun made after known => ?_
      cases made with
      | true =>
        subst known
        change At [] [] { share with files := [wf, rf], fresh := ([wf, rf].erase rf).erase wf } = _
        rw [erase_second, erase_cons_head, ← idle.fresh]
      | false =>
        subst known
        refine after_then (fileclose_holds second) fun _ => ?_
        change Holds _ _ _ (At [] [] { share with files := [wf, rf].erase rf, fresh := [wf, rf].erase rf }) _
        rw [erase_second]
        refine after_then (fileclose_holds mem_cons_self) fun _ => ?_
        change At [] [] { share with files := [wf].erase wf, fresh := [wf].erase wf } = _
        rw [erase_cons_head, idle.lists]

theorem closeBoth_holds {rf wf : Nat} (member : rf ∈ share.files) (files : share.files.erase rf = [wf])
    (fresh : share.fresh = []) (rest : share.pending = none) (ends : share.ends = []) (child : share.child = none)
    (away : share.away = false) :
    Holds (logic cfg) pid (do
      fileclose rf
      fileclose wf
      return (-1 : Int)) (At [] [] share) fun _ => Back := by
  refine after_then (fileclose_holds member) fun _ => ?_
  rw [files, fresh, erase_nil]
  refine after_then (fileclose_holds mem_cons_self) fun _ => ?_
  refine ⟨{ share with files := [wf].erase wf, fresh := [].erase wf }, ⟨?_, rfl, rest, ends, child, away⟩, rfl⟩
  exact erase_cons_head _ _

theorem sysPipe_holds (idle : share.Idle) : Holds (logic cfg) pid sysPipe (At [] [] share) fun _ => Back := by
  refine (pipealloc_holds idle).bind fun found after known => ?_
  match found with
  | none =>
    subst known
    exact back idle
  | some (rf, wf) =>
    subst known
    have start : Does (logic cfg) pid (.fdalloc rf) (At [] [] { share with files := [wf, rf] }) _ :=
      fdalloc_does (mem_cons_of_mem _ mem_cons_self) idle.pending
    refine start.then fun found after known => ?_
    match found with
    | none =>
      subst known
      exact closeBoth_holds (mem_cons_of_mem _ mem_cons_self) (erase_second _ _ _) idle.fresh idle.pending
        idle.ends idle.child idle.away
    | some fd0 =>
      obtain ⟨_, n, _, rfl⟩ := known
      change Holds _ _ _ (At [] [] { share with
        files := [wf, rf].erase rf, uses := ⟨fd0, rf, n⟩ :: share.uses, closed := 0 }) _
      rw [erase_second]
      have next : Does (logic cfg) pid (.fdalloc wf) (At [] [] { share with
          files := [wf], uses := ⟨fd0, rf, n⟩ :: share.uses, closed := 0 }) _ :=
        fdalloc_does mem_cons_self idle.pending
      refine next.then fun found after known => ?_
      match found with
      | none =>
        subst known
        have clear : Does (logic cfg) pid (.clearFd fd0) (At [] [] { share with
            files := [wf], uses := ⟨fd0, rf, n⟩ :: share.uses, closed := 0 }) _ :=
          clearFd_does (u := ⟨fd0, rf, n⟩) mem_cons_self idle.pending fun _ => rfl
        refine clear.then fun _ after known => ?_
        subst known
        exact closeBoth_holds mem_cons_self (erase_cons_head _ _) idle.fresh idle.pending idle.ends idle.child
          idle.away
      | some fd1 =>
        obtain ⟨apart, m, _, rfl⟩ := known
        have different : fd1 ≠ fd0 := (apart _ mem_cons_self).symm
        refine quiet_then rfl fun copied => ?_
        cases copied with
        | true =>
          refine ⟨{ share with
            files := [wf].erase wf, uses := ⟨fd1, wf, m⟩ :: ⟨fd0, rf, n⟩ :: share.uses, closed := 0 },
            ⟨erase_cons_head _ _, idle.fresh, idle.pending, idle.ends, idle.child, idle.away⟩, rfl⟩
        | false =>
          have clear : Does (logic cfg) pid (.clearFd fd0) (At [] [] { share with
              files := [wf].erase wf, uses := ⟨fd1, wf, m⟩ :: ⟨fd0, rf, n⟩ :: share.uses, closed := 0 }) _ :=
            clearFd_does (u := ⟨fd0, rf, n⟩) (mem_cons_of_mem _ mem_cons_self) idle.pending fun _ => rfl
          refine clear.then fun _ after known => ?_
          subst known
          have left : (⟨fd1, wf, m⟩ : Use) ∈
              (⟨fd1, wf, m⟩ :: ⟨fd0, rf, n⟩ :: share.uses : List Use).filter fun v => v.fd ≠ fd0 :=
            mem_filter.mpr ⟨mem_cons_self, by simpa using different⟩
          have again : Does (logic cfg) pid (.clearFd fd1) (At [] [] { share with
              files := rf :: [wf].erase wf
              uses := (⟨fd1, wf, m⟩ :: ⟨fd0, rf, n⟩ :: share.uses : List Use).filter fun v => v.fd ≠ fd0
              closed := 0 }) _ := clearFd_does (u := ⟨fd1, wf, m⟩) left idle.pending fun _ => rfl
          refine again.then fun _ after known => ?_
          subst known
          refine closeBoth_holds (mem_cons_of_mem _ mem_cons_self) ?_ idle.fresh idle.pending idle.ends
            idle.child idle.away
          change (wf :: rf :: [wf].erase wf).erase rf = [wf]
          rw [erase_second, erase_cons_head]

theorem forkFiles_holds {child : Nat} : ∀ fuel fd (share : Share), share.child = some (child, fd) → fd + fuel = nofile →
    share.pending = none → share.fresh = [] →
    Holds (logic cfg) pid (forkFiles child fuel fd) (At [] [] share) fun _ after =>
      after = At [] [] { share with child := some (child, nofile) } := by
  intro fuel
  induction fuel with
  | zero =>
    intro fd share is all _ _
    have same : fd = nofile := by omega
    rw [← same, ← is]
    rfl
  | succ fuel ih =>
    intro fd share is all counted fresh
    rw [forkFiles]
    have start : Does (logic cfg) pid (.forkFile child fd) (At [] [] share) _ :=
      forkFile_does is (by omega) counted fresh
    refine start.then fun _ after known => ?_
    subst known
    exact ih (fd + 1) { share with child := some (child, fd + 1) } rfl (by omega) counted fresh

theorem kfork_holds (idle : share.Idle) : Holds (logic cfg) pid (kfork cfg.nproc) (At [] [] share) fun _ => Back := by
  have start : Does (logic cfg) pid (.allocproc cfg.nproc) (At [] [] share) _ := allocproc_does
  refine start.then fun found after known => ?_
  match found with
  | none =>
    subst known
    exact back idle
  | some child =>
    subst known
    have done : ∀ k, Back (At [] [] { { share with child := some (child, k) } with child := none }) := fun k =>
      ⟨{ share with child := none }, ⟨idle.files, idle.fresh, idle.pending, idle.ends, rfl, idle.away⟩, rfl⟩
    refine quiet_then rfl fun copied => ?_
    cases copied with
    | true =>
      refine after_then (forkFiles_holds nofile 0 { share with child := some (child, 0) } rfl (by decide) idle.pending
        idle.fresh) fun _ => ?_
      have cwd : Does (logic cfg) pid (.forkCwd child) (At [] [] { share with child := some (child, nofile) }) _ :=
        forkCwd_does rfl
      refine cwd.then fun _ after known => ?_
      subst known
      have last : Does (logic cfg) pid (.start child) (At [] [] { share with child := some (child, nofile + 1) }) _ :=
        start_does rfl
      refine last.then fun _ after known => ?_
      subst known
      exact done _
    | false =>
      have undo : Does (logic cfg) pid (.freeproc child) (At [] [] { share with child := some (child, 0) }) _ :=
        freeproc_does rfl
      refine undo.then fun _ after known => ?_
      subst known
      exact done _

theorem closeFiles_holds : ∀ fuel fd (share : Share), share.Idle → fd ≤ share.closed →
    Holds (logic cfg) pid (closeFiles fuel fd) (At [] [] share) fun _ after =>
      ∃ now : Share, now.Idle ∧ fd + fuel ≤ now.closed ∧ after = At [] [] now := by
  intro fuel
  induction fuel with
  | zero => exact fun fd share idle closed => ⟨share, idle, closed, rfl⟩
  | succ fuel ih =>
    intro fd share idle closed
    rw [closeFiles, show fd + (fuel + 1) = fd + 1 + fuel by omega]
    have start : Does (logic cfg) pid (.argfd fd) (At [] [] share) _ := argfd_does idle.pending
    refine start.then fun found after known => ?_
    match found with
    | none =>
      obtain ⟨k, next, rfl⟩ := known
      exact ih (fd + 1) { share with closed := k }
        ⟨idle.files, idle.fresh, idle.pending, idle.ends, idle.child, idle.away⟩ (next closed)
    | some f =>
      obtain ⟨n, rfl⟩ := known
      have drop : Does (logic cfg) pid (.fileclose f) (At [] [] { share with uses := ⟨fd, f, n⟩ :: share.uses })
          (Dropped (At [] [] { share with uses := ⟨fd, f, n⟩ :: share.uses }) { share with pending := some (fd, f), uses := [] }) :=
        fileclose_early (u := ⟨fd, f, n⟩) mem_cons_self idle.pending idle.fresh fun _ => rfl
      refine after_then (fileclose_of drop) fun _ => ?_
      have clear : Does (logic cfg) pid (.clearFd fd) (At [] [] { share with pending := some (fd, f), uses := [] }) _ :=
        clearFd_late rfl closed
      refine clear.then fun _ after known => ?_
      subst known
      exact ih (fd + 1) { share with pending := none, uses := [], closed := fd + 1 }
        ⟨idle.files, idle.fresh, rfl, idle.ends, idle.child, idle.away⟩ le_rfl

theorem kexit_holds (idle : share.Idle) (first : Bool) :
    Holds (logic cfg) pid (kexit first) (At [] [] share) fun _ => Back := by
  rw [kexit]
  split
  · exact panic_then ⟨nofun, nofun⟩
  refine (closeFiles_holds nofile 0 share idle (Nat.zero_le _)).bind fun _ after known => ?_
  obtain ⟨now, rest, all, rfl⟩ := known
  refine takeCwd_does.then fun cwd after known => ?_
  obtain ⟨c, rfl⟩ := known
  have put : Holds (logic cfg) pid (iput cwd) (At [(cwd, c)] [] { now with away := true }) fun _ after =>
      after = At [] [] { now with away := true } := iput_head nofun
  refine after_then put fun _ => ?_
  have last : Does (logic cfg) pid .exited (At [] [] { now with away := true }) _ :=
    exited_does rfl (fun _ => rfl) rest.files rest.fresh rest.pending rest.ends rest.child rfl
      (zero_add nofile ▸ all)
  refine last.then fun _ after known => ?_
  subst known
  exact ⟨{ now with away := false, closed := 0 }, ⟨rest.files, rest.fresh, rest.pending, rest.ends, rest.child, rfl⟩, rfl⟩

theorem kwait_holds (idle : share.Idle) : Holds (logic cfg) pid kwait (At [] [] share) fun _ => Back := by
  refine reap_does.then fun _ after known => ?_
  subst known
  exact back idle

end Xv6.Names
