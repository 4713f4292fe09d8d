import Xv6.Names.Files

/-!
What the system calls keep, however they overlap: the counts of the file table and of the
inode table, the flags of the pipes, and that `iput` finds the lock of the last reference
free.
-/

namespace Xv6.Names

open Lib Lib.Interleave Own
open Function
open Fs (Dinode rootIno)

variable {cfg : Config} {disk : Nat → Dinode} {dirs : Nat → List Dirent}

def boot (disk : Nat → Dinode) (dirs : Nat → List Dirent) : State where
  disk := disk
  dirs := dirs
  itable ip := if ip = 0 then ⟨rootIno, 1, false, none, ⟨0, 0, 0, 0, 0, fun _ => 0⟩⟩
    else ⟨0, 0, false, none, ⟨0, 0, 0, 0, 0, fun _ => 0⟩⟩
  ftable _ := ⟨.none, 0, false, false, 0, 0⟩
  pipes _ := ⟨false, false, false, 0, 0⟩
  procs pid := if pid = 0 then ⟨.live, some 0, fun _ => none, []⟩ else ⟨.unused, none, fun _ => none, []⟩
  wrote _ := none
  panic := none

abbrev System := Conf State Act.Reply Call Int

def start (disk : Nat → Dinode) (dirs : Nat → List Dirent) : System where
  shared := boot disk dirs
  progs _ := .ret 0
  calls _ := none

abbrev Runs (cfg : Config) (disk : Nat → Dinode) (dirs : Nat → List Dirent) (conf : System) : Prop :=
  Reaches (machine cfg).step (fun _ _ => True) (start disk dirs) conf

def nothing : Share := ⟨[], [], none, [], [], none, false, 0⟩

theorem nothing_idle : nothing.Idle := ⟨rfl, rfl, rfl, rfl, rfl, rfl⟩

theorem boot_count (q ip : Nat) : ((boot disk dirs).procs q).count ip = if q = 0 then points (some 0) ip else 0 := by
  by_cases first : q = 0
  · simp [boot, count, first]
  · simp [boot, count, first]

theorem boot_ofile (q fd : Nat) : ((boot disk dirs).procs q).ofile fd = none := by
  by_cases first : q = 0
  · simp [boot, first]
  · simp [boot, first]

theorem boot_shares (q f : Nat) : ((boot disk dirs).procs q).shares nothing f = 0 := by
  rw [shares_counted rfl, slots, total_eq_zero fun fd _ => ?_]
  · rfl
  · rw [slot_none, boot_ofile, points_none]

theorem boot_held (q : Nat) : ((boot disk dirs).procs q).held = [] := by
  by_cases first : q = 0
  · simp [boot, first]
  · simp [boot, first]

theorem boot_inv : Inv cfg (boot disk dirs) fun _ => nothing := by
  have only : ∀ ip, 0 < ((boot disk dirs).itable ip).ref → ip = 0 := by
    intro ip live
    by_contra other
    simp [boot, other] at live
  refine ⟨⟨fun ip live => ?_, fun ip jp live also _ => ?_, fun ip => ?_, fun q r member => ?_, fun q _ => boot_held q⟩,
    ⟨nofun, fun f => ?_, fun _ _ => rfl, nofun, fun _ => List.nodup_nil⟩, ⟨nofun, fun p writable => ?_, fun _ => rfl, fun _ => rfl⟩,
    ⟨fun q out => ?_, fun q => ?_, nofun, nofun⟩, fun ip q locked => ?_, rfl⟩
  · rw [only ip live]
    decide
  · rw [only ip live, only jp also]
  · have first : (total cfg.nproc fun q => ((boot disk dirs).procs q).count ip) = points (some 0) ip := by
      rw [total_single cfg.some fun q _ different => ?_, boot_count, if_pos rfl]
      rw [boot_count, if_neg different]
    have none : (total nfile fun f => points ((boot disk dirs).ftable f).node ip) = 0 := total_eq_zero fun _ _ => rfl
    rw [first, none, points_some]
    by_cases zero : ip = 0
    · simp [boot, zero]
    · simp [boot, zero, Ne.symm zero]
  · rw [boot_held q] at member
    cases member
  · exact (total_eq_zero fun q _ => boot_shares q f).symm
  · have ends : (total nfile fun f => ((boot disk dirs).ftable f).isEnd p writable) = 0 := total_eq_zero fun _ _ => rfl
    have none : (total cfg.nproc fun _ => nothing.ends.count (p, writable)) = 0 := total_eq_zero fun _ _ => rfl
    rw [ends, none]
    cases writable <;> rfl
  · have other : q ≠ 0 := by
      have some := cfg.some
      omega
    simp [boot, other]
  · refine ⟨fun _ => ⟨boot_held q, nothing_idle, rfl⟩, fun rest => ⟨?_, fun fd _ => boot_ofile q fd⟩, nofun, nofun, nofun, nofun⟩
    by_cases first : q = 0
    · rw [first] at rest
      rcases rest with is | is
      · cases is
      · cases is
    · simp [boot, first]
  · by_cases zero : ip = 0
    · simp [boot, zero] at locked
    · simp [boot, zero] at locked

theorem body_holds {pid : Nat} {share : Share} (idle : share.Idle) (c : Call) :
    Holds (logic cfg) pid (c.body cfg pid) (At [] [] share) fun _ => Back := by
  have same : ∀ {program : P Int}, (Holds (logic cfg) pid program (At [] [] share) fun _ after => after = At [] [] share) →
      Holds (logic cfg) pid program (At [] [] share) fun _ => Back := fun holds =>
    holds.mono fun _ after known => by
      rw [known]
      exact back idle
  cases c with
  | link old new => exact same (sysLink_holds old new)
  | unlink path => exact same (sysUnlink_holds path)
  | mkdir path | mknod path _ _ => exact same (sysMake_holds _ path _ _ _)
  | «open» path omode => exact sysOpen_holds idle _ path omode
  | chdir path => exact same (sysChdir_holds path idle.away)
  | exec path => exact same (sysExec_holds path)
  | read fd => exact argfd_then idle fun f n now rest used => fileread_holds rest used
  | fstat fd => exact argfd_then idle fun f n now rest used => filestat_holds rest used
  | write fd turns => exact argfd_then idle fun f n now rest used => filewrite_holds rest used turns
  | dup fd => exact sysDup_holds idle fd
  | close fd => exact sysClose_holds idle fd
  | pipe => exact sysPipe_holds idle
  | fork => exact kfork_holds idle
  | exit => exact kexit_holds idle _
  | wait => exact kwait_holds idle

theorem runs_going {conf : System} (reached : Runs cfg disk dirs conf) :
    (∃ share, Going (logic cfg) Back (fun _ _ _ => True) conf share) ∨
      Halts conf.shared ∧ ∃ pid action next, conf.progs pid = .act action next := by
  refine reaches_holds rfl (fun st halted => ?_) (fun st share pid c inv may idle => ?_) (fun _ _ _ _ _ _ _ _ _ => trivial)
    reached ⟨fun _ => nothing, boot_inv, fun pid => ⟨⟨nothing, nothing_idle, ?_⟩, trivial⟩⟩
  · obtain ⟨reason, panic, _⟩ := halted
    simp [machine, panic]
  · obtain ⟨sh, rest, same⟩ := idle
    rw [same]
    exact (body_holds rest c).mono fun _ _ back => ⟨back, trivial⟩
  · have unlocked : ∀ ip, ((boot disk dirs).itable ip).lock = none := by
      intro ip
      by_cases zero : ip = 0
      · simp [boot, zero]
      · simp [boot, zero]
    change (⟨((boot disk dirs).procs pid).held, fun ip => decide (((boot disk dirs).itable ip).lock = some pid), nothing⟩ :
      Ghost) = _
    simp only [boot_held, unlocked]
    rfl

structure ReadEnd (st : State) (p f : Nat) : Prop where
  live : 0 < (st.ftable f).ref
  type : (st.ftable f).type = .pipe
  pipe : (st.ftable f).pipe = p
  readable : (st.ftable f).readable = true

structure WriteEnd (st : State) (p f : Nat) : Prop where
  live : 0 < (st.ftable f).ref
  type : (st.ftable f).type = .pipe
  pipe : (st.ftable f).pipe = p
  writable : (st.ftable f).writable = true

/-- Every open file counts its descriptors, and every pipe knows which ends are open. -/
structure Accounted (cfg : Config) (st : State) : Prop where
  refs : ∀ f, (st.ftable f).ref =
    ((Finset.range cfg.nproc ×ˢ Finset.range nofile).filter fun s => (st.procs s.1).ofile s.2 = some f).card
  closed : ∀ f, (st.ftable f).ref = 0 → ∀ pid fd, pid < cfg.nproc → fd < nofile → (st.procs pid).ofile fd ≠ some f
  reads : ∀ p, (st.pipes p).readopen = true ↔ ∃ f, ReadEnd st p f
  writes : ∀ p, (st.pipes p).writeopen = true ↔ ∃ f, WriteEnd st p f
  inUse : ∀ p, (∃ f, ReadEnd st p f ∨ WriteEnd st p f) → (st.pipes p).allocs = (st.pipes p).frees + 1
  freed : ∀ p, (¬ ∃ f, ReadEnd st p f ∨ WriteEnd st p f) → (st.pipes p).allocs = (st.pipes p).frees

section Accounts

variable {st : State} {share : Nat → Share} (inv : Inv cfg st share) (idle : ∀ pid, (share pid).Idle)
include inv idle

theorem Inv.refs_card (f : Nat) : (st.ftable f).ref =
    ((Finset.range cfg.nproc ×ˢ Finset.range nofile).filter fun s => (st.procs s.1).ofile s.2 = some f).card := by
  rw [inv.files.count f, Finset.card_filter, Finset.sum_product, total_eq_sum]
  refine Finset.sum_congr rfl fun pid _ => ?_
  rw [shares_counted (idle pid).pending, (idle pid).files, slots, total_eq_sum, List.count_nil, add_zero]
  rfl

theorem Inv.open_iff (p : Nat) (writable : Bool) : (st.pipes p).isOpen writable = true ↔
    ∃ f, 0 < (st.ftable f).ref ∧ (st.ftable f).type = .pipe ∧ (st.ftable f).pipe = p ∧
      (st.ftable f).writable = writable := by
  have sum := inv.pipes.ends p writable
  have none : (total cfg.nproc fun q => (share q).ends.count (p, writable)) = 0 :=
    total_eq_zero fun q _ => by
      rw [(idle q).ends]
      rfl
  rw [none, add_zero] at sum
  constructor
  · intro is
    rw [is] at sum
    obtain ⟨f, _, found⟩ := exists_of_total_ne_zero (by rw [← sum]; decide)
    have here : (st.ftable f).type = .pipe ∧ (st.ftable f).pipe = p ∧ (st.ftable f).writable = writable := by
      by_contra other
      exact found (if_neg other)
    refine ⟨f, pos_of_ne_zero fun zero => ?_, here⟩
    have shut := inv.files.closed f zero
    rw [here.1] at shut
    cases shut
  · rintro ⟨f, live, here⟩
    have part := le_total (fun f => (st.ftable f).isEnd p writable) (inv.files.inside f live)
    have one : (st.ftable f).isEnd p writable = 1 := if_pos here
    by_contra shut
    rw [Bool.not_eq_true] at shut
    rw [shut, Bool.toNat_false] at sum
    omega

theorem Inv.accounted : Accounted cfg st := by
  have reads : ∀ p, (st.pipes p).readopen = true ↔ ∃ f, ReadEnd st p f := by
    intro p
    refine (inv.open_iff idle p false).trans ⟨fun ⟨f, live, type, pipe, side⟩ => ⟨f, live, type, pipe, ?_⟩,
      fun ⟨f, is⟩ => ⟨f, is.live, is.type, is.pipe, ?_⟩⟩
    · rw [inv.pipes.sides f type, side]
      rfl
    · have sides := inv.pipes.sides f is.type
      rw [is.readable] at sides
      simpa using sides
  have writes : ∀ p, (st.pipes p).writeopen = true ↔ ∃ f, WriteEnd st p f := by
    intro p
    exact (inv.open_iff idle p true).trans ⟨fun ⟨f, live, type, pipe, side⟩ => ⟨f, live, type, pipe, side⟩,
      fun ⟨f, is⟩ => ⟨f, is.live, is.type, is.pipe, is.writable⟩⟩
  have used : ∀ p, (st.pipes p).used = true ↔ ∃ f, ReadEnd st p f ∨ WriteEnd st p f := by
    intro p
    rw [inv.pipes.used p, Bool.or_eq_true, reads, writes, exists_or]
  refine ⟨inv.refs_card idle, fun f zero pid fd runs low here => ?_, reads, writes, fun p some => ?_, fun p none => ?_⟩
  · have slot : (st.procs pid).slot (share pid).pending fd = some f := by rwa [(idle pid).pending, slot_none]
    have live := inv.files.live runs (shares_of_slot low slot)
    omega
  · have freed := inv.pipes.freed p
    rwa [(used p).mpr some] at freed
  · have freed := inv.pipes.freed p
    rwa [Bool.eq_false_iff.mpr fun is => none ((used p).mp is)] at freed

end Accounts

/-- `filedup` and `fileclose` never panic, and whenever no call is in progress the counts of the
file table and the flags of the pipes are those of the descriptors. -/
theorem files_accounted {conf : System} (reached : Runs cfg disk dirs conf) :
    conf.shared.panic ≠ some .filedup ∧ conf.shared.panic ≠ some .fileclose ∧
      ((∀ pid, ∃ value, conf.progs pid = .ret value) → Accounted cfg conf.shared) := by
  rcases runs_going reached with ⟨share, going⟩ | ⟨⟨reason, panic, notDup, notClose⟩, pid, action, next, running⟩
  · have quiet := going.inv.running
    refine ⟨by rw [quiet]; nofun, by rw [quiet]; nofun, fun ended => ?_⟩
    refine going.inv.accounted fun pid => ?_
    obtain ⟨value, returned⟩ := ended pid
    obtain ⟨⟨sh, idle, same⟩, _⟩ := going.idle returned
    have mine : share pid = sh := congrArg Ghost.share same
    rw [mine]
    exact idle
  · refine ⟨?_, ?_, fun ended => ?_⟩
    · rw [panic]
      simpa using notDup
    · rw [panic]
      simpa using notClose
    · obtain ⟨value, returned⟩ := ended pid
      rw [running] at returned
      cases returned

def twoProcs : Config := ⟨4, 2, by decide, by decide, by decide⟩

def imageDisk (inum : Nat) : Dinode :=
  if inum = rootIno then ⟨Fs.tDir, 0, 0, 1, 48, fun _ => 0⟩
  else if inum = 2 then ⟨Fs.tFile, 0, 0, 1, 0, fun _ => 0⟩
  else ⟨0, 0, 0, 0, 0, fun _ => 0⟩

def imageDirs (inum : Nat) : List Dirent :=
  if inum = rootIno then [⟨rootIno, Fs.dot⟩, ⟨rootIno, Fs.dotdot⟩, ⟨2, [97]⟩] else []

def calling (c : Call) (n : Nat) : List (Label Call Choice) :=
  .call 0 c :: List.replicate n (.run 0 ⟨true, 1, fun _ => 0, 0, []⟩)

theorem files_accounted_fork : ∃ conf, Runs twoProcs imageDisk imageDirs conf ∧
    (∀ pid, ∃ value, conf.progs pid = .ret value) ∧ (conf.shared.ftable 0).ref = 1 ∧
    (conf.shared.ftable 1).ref = 2 ∧ Accounted twoProcs conf.shared := by
  obtain ⟨conf, alone, seen⟩ := reaches_within (show
    (runWithin (fun _ label => label.pid = 0) (machine twoProcs).step (start imageDisk imageDirs) (calling .pipe 6 ++ calling .fork 20 ++ calling (.close 0) 3)).map
      (fun conf => ((conf.progs 0).returned, (conf.shared.ftable 0).ref, (conf.shared.ftable 1).ref)) =
      some (some 0, 1, 2) by decide +kernel)
  simp only [Prod.mk.injEq] at seen
  obtain ⟨returned, one, two⟩ := seen
  have reached : Runs twoProcs imageDisk imageDirs conf := alone.weaken fun _ _ _ => trivial
  have ended : ∀ pid, ∃ value, conf.progs pid = .ret value := by
    intro pid
    by_cases first : pid = 0
    · rw [first]
      cases program : conf.progs 0 with
      | ret value => exact ⟨value, rfl⟩
      | act action next =>
        rw [program] at returned
        cases returned
    · exact ⟨0, reaches_alone alone first⟩
  exact ⟨conf, reached, ended, one, two, (files_accounted reached).2.2 ended⟩

/-- When `iput` finds the last reference to an inode without links, nobody has the inode locked
or waits for it, and the call of `acquiresleep` does not wait. -/
theorem iput_never_sleeps {conf : System} (reached : Runs cfg disk dirs conf) (running : conf.shared.panic = none)
    {pid ip : Nat} {next : Option Nat → P Int} (here : conf.progs pid = .act (.lastRef ip) next)
    (last : (conf.shared.itable ip).ref = 1 ∧ (conf.shared.itable ip).valid = true ∧ (conf.shared.itable ip).d.nlink = 0) :
    (conf.shared.itable ip).lock = none ∧ (∀ q rest, conf.progs q ≠ .act (.acquiresleep ip) rest) ∧
      ∀ choice, ∃ after, (machine cfg).step conf (.run pid choice) = some after ∧
        (after.shared.itable ip).lock = some pid := by
  rcases runs_going reached with ⟨share, going⟩ | ⟨⟨reason, panic, _⟩, _⟩
  · have safe : ∀ q action rest, conf.progs q = .act action rest → Safe conf.shared share q action :=
      fun q action rest at_ => going.safe at_ trivial
    obtain ⟨⟨i, member⟩, unlocked⟩ := safe pid (.lastRef ip) next here
    have free := unlocked last
    have alive : (conf.shared.procs pid).stage = .live := by
      by_contra ended
      rw [((going.inv.procs.each pid).idle ended).1] at member
      cases member
    refine ⟨free, fun q rest waits => ?_, fun choice => ?_⟩
    · have other : q ≠ pid := by
        rintro rfl
        rw [here] at waits
        cases waits
      have two := going.inv.shared_with other member (safe q _ rest waits)
      omega
    have ran : exec pid (.lastRef ip) choice conf.shared =
        .done (conf.shared.put ip { conf.shared.itable ip with lock := some pid }) (some (conf.shared.itable ip).inum) := by
      simp only [exec, run, lastRef]
      rw [if_pos alive, if_pos last, if_pos free]
    refine ⟨⟨conf.shared.put ip { conf.shared.itable ip with lock := some pid },
      update conf.progs pid (next (some (conf.shared.itable ip).inum)), conf.calls⟩, ?_, ?_⟩
    · simp only [Machine.step, machine, running, here]
      rw [ran]
      rfl
    · simp [State.put]
  · rw [running] at panic
    cases panic

theorem iput_never_sleeps_unlink : ∃ conf next, Runs twoProcs imageDisk imageDirs conf ∧
    conf.progs 0 = .act (.lastRef 1) next ∧ (conf.shared.itable 1).lock = none ∧
    ∀ q rest, conf.progs q ≠ .act (.acquiresleep 1) rest := by
  obtain ⟨conf, reached, seen⟩ := reaches_seen (show
    (runLabels (machine twoProcs).step (start imageDisk imageDirs) (calling (.unlink [97]) 20)).map
      (fun conf => ((match conf.progs 0 with | .act (.lastRef ip) _ => some ip | _ => none), conf.shared.panic.isSome,
        (conf.shared.itable 1).ref, (conf.shared.itable 1).valid, (conf.shared.itable 1).d.nlink)) =
      some (some 1, false, 1, true, 0) by decide +kernel)
  simp only [Prod.mk.injEq, Option.isSome_eq_false_iff, Option.isNone_iff_eq_none] at seen
  obtain ⟨at_, running, last⟩ := seen
  split at at_
  · rename_i ip next here
    cases at_
    obtain ⟨free, alone, _⟩ := iput_never_sleeps reached running here last
    exact ⟨conf, next, reached, here, free, alone⟩
  · cases at_

end Xv6.Names
