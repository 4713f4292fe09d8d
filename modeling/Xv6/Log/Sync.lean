import Xv6.Log.Atomic

/-!
`sys_sync` of `kernel/log.c` as a durability barrier. A process in `sys_sync` is at its
first test under `log.lock`, or waits for a value of `log.ncommit`, a C `int`, and may wake
up at any time.
-/

namespace Xv6.Log

open Xv6.Lib Xv6.Lib.RedoLog List Option

/-- Where a process is in `sys_sync`, and the operations that had ended when it acquired
`log.lock`. -/
inductive SyncCall
  | out
  | waiting (n : Int) (due : List Nat)
  | returned (due : List Nat)

/-- The log with the processes in `sys_sync`; `finished` are the operations whose `end_op`
has been in its first critical section since the last boot. -/
structure System where
  world : World
  finished : List Nat
  calls : Nat → SyncCall

inductive SystemLabel
  | log (label : Label)
  | sync (pid : Nat)

def asInt (value : Nat) : Int := (value : Int).bmod (2 ^ 32)

def syncTest (world : World) (n : Int) (due : List Nat) : SyncCall :=
  if asInt world.ncommit < n then .waiting n due else .returned due

def sysSync (sys : System) : SyncCall → SyncCall
  | .waiting n due => syncTest sys.world n due
  | .out | .returned _ =>
    if sys.world.committing ∨ sys.world.outstanding > 0 then
      syncTest sys.world (asInt (sys.world.ncommit + 1)) sys.finished
    else .returned sys.finished

def System.step (start : Nat) (sys : System) : SystemLabel → Option System
  | .log label =>
    (Log.step start sys.world label).map fun world =>
      match label with
      | .endOp op => { sys with world := world, finished := op :: sys.finished }
      | .crash => ⟨world, [], fun _ => .out⟩
      | .beginOp | .logWrite _ _ _ | .advance | .bread _ | .evict _ => { sys with world := world }
  | .sync pid =>
    if sys.world.phase.serving then
      some { sys with calls := Function.update sys.calls pid (sysSync sys (sys.calls pid)) }
    else none

def System.boot (disk : Nat → Block) : System := ⟨World.boot disk, [], fun _ => .out⟩

def FewCommits (sys : System) (_ : SystemLabel) : Prop := sys.world.ncommit < 2 ^ 31 - 1

variable {start : Nat} {init : Nat → Block} {world next : World} {sys : System}

structure Pending (init : Nat → Block) (world : World) (tail : Nat) (before : List (List Update))
    (last : List Update) : Prop where
  groups : world.groups = before ++ [last]
  owners : ∀ update ∈ last, update.op ∈ world.ended
  behind : ∀ index blockno, tail ≤ index → world.lh[index]? = some blockno →
    world.disk blockno = applyUpdates (writes before.flatten) init blockno

structure Durable (start : Nat) (init : Nat → Block) (world : World) : Prop where
  homes : ∀ update ∈ world.issued, ¬ (area start).Owns update.blockno
  apart : ∀ op ∈ world.ended, op ∉ world.returned
  quiet : world.phase = .idle → world.outstanding = 0 → world.ended = []
  pending : ∀ tail, world.phase = .installTrans tail → ∃ before last, Pending init world tail before last

theorem durable_beginOp (inv : Inv start init world) (durable : Durable start init world)
    (stepped : beginOp world = some next) : Durable start init next := by
  obtain ⟨⟨serving, free, _⟩, stepped⟩ := ite_none_right_eq_some.mp stepped
  cases stepped
  have idle := inv.idle_of_open serving (by simpa using free)
  refine ⟨durable.homes, durable.apart, fun _ none => ?_, fun tail installing => ?_⟩
  · exact absurd none (Nat.succ_ne_zero _)
  · exact absurd (idle.symm.trans installing) (by simp)

theorem durable_logWrite {op blockno : Nat} {data : Block} (inv : Inv start init world)
    (durable : Durable start init world) (stepped : logWrite start world op blockno data = some next) :
    Durable start init next := by
  obtain ⟨⟨serving, running, home, small⟩, stepped⟩ := ite_none_right_eq_some.mp stepped
  have idle := inv.idle_of_active serving running
  have homes : ∀ update ∈ world.issued ++ [⟨op, blockno, data⟩], ¬ (area start).Owns update.blockno := by
    intro update found
    rcases mem_append.mp found with old | new
    · exact durable.homes update old
    · rw [mem_singleton.mp new]
      exact home
  have pending : ∀ tail, world.phase ≠ .installTrans tail := fun tail => by simp [idle]
  split at stepped
  · cases stepped
    exact ⟨durable.homes, durable.apart, fun other => (by cases other), fun _ other => (by cases other)⟩
  split at stepped
  all_goals
    cases stepped
    exact ⟨homes, durable.apart, durable.quiet, fun tail other => absurd other (pending tail)⟩

theorem durable_endOp {op : Nat} (inv : Inv start init world) (accounted : Accounted world)
    (durable : Durable start init world) (stepped : endOp world op = some next) :
    Durable start init next := by
  simp only [endOp] at stepped
  obtain ⟨⟨serving, running⟩, stepped⟩ := ite_none_right_eq_some.mp stepped
  have idle := inv.idle_of_active serving running
  have apart : ∀ other ∈ op :: world.ended, other ∉ world.returned := by
    intro other found done
    rcases mem_cons.mp found with rfl | old
    · exact (accounted.returned other done).2.1 running
    · exact durable.apart other old done
  split at stepped
  · cases stepped
    exact ⟨durable.homes, apart, fun other => (by cases other), fun _ other => (by cases other)⟩
  split at stepped
  · cases stepped
    refine ⟨durable.homes, apart, fun other => ?_, fun _ other => ?_⟩
    all_goals
      dsimp only at other
      split at other <;> cases other
  rename_i more
  cases stepped
  refine ⟨durable.homes, apart, fun _ none => absurd none more, fun tail other => ?_⟩
  exact absurd (idle.symm.trans other) (by simp)

theorem pending_writeHead (inv : Inv start init world) (accounted : Accounted world)
    (here : world.phase = .writeHead) :
    Pending init { writeHead start world with
      phase := .installTrans 0
      groups := world.groups ++ [world.current]
      current := [] } 0 world.groups world.current := by
  have phase := inv.phase
  have group := accounted.group
  rw [here] at phase group
  obtain ⟨collecting, _, closed⟩ := phase
  have recoverable := inv.recoverable
  rw [collecting.head] at recoverable
  refine ⟨rfl, fun update found => ?_, fun index blockno _ entry => ?_⟩
  · refine (group.2 update found).resolve_left ?_
    simp [closed.active]
  have home := (collecting.entries blockno (mem_of_getElem? entry)).1
  have apart : blockno ≠ start := fun same => home (same ▸ owns_start start)
  refine (disk_bwrite_other world _ apart).trans ?_
  exact recoverable.home_eq home

theorem pending_installBlock {tail blockno : Nat} {before : List (List Update)} {last : List Update}
    (pending : Pending init world tail before last) (distinct : world.lh.Nodup)
    (entry : world.lh[tail]? = some blockno) :
    Pending init { bunpin (installBlock start world tail blockno) blockno with
      phase := .installTrans (tail + 1) } (tail + 1) before last := by
  refine ⟨pending.groups, pending.owners, fun index other later found => ?_⟩
  have apart : other ≠ blockno := by
    rintro rfl
    have same : tail = index := (List.getElem?_inj (List.getElem?_eq_some_iff.mp entry).1
      distinct).mp (entry.trans found.symm)
    omega
  exact (disk_bwrite_other _ _ apart).trans (pending.behind index other (by omega) found)

theorem Durable.moved (durable : Durable start init world) (issued : next.issued = world.issued)
    (ended : next.ended = world.ended) (returned : next.returned = world.returned)
    (busy : next.phase ≠ .idle) (pending : ∀ tail, next.phase = .installTrans tail →
      ∃ before last, Pending init next tail before last) : Durable start init next := by
  refine ⟨issued ▸ durable.homes, ?_, fun idle => absurd idle busy, pending⟩
  rw [ended, returned]
  exact durable.apart

theorem durable_advance (inv : Inv start init world) (accounted : Accounted world)
    (durable : Durable start init world) (stepped : advance start world = some next) :
    Durable start init next := by
  have phase := inv.phase
  have group := accounted.group
  simp only [advance] at stepped
  cases here : world.phase with
  | idle | panicked => simp [here] at stepped
  | writeLog _ | recoverTrans _ =>
    simp only [here] at stepped
    split at stepped
    all_goals
      cases stepped
      exact durable.moved rfl rfl rfl (by simp) (by simp)
  | writeHead =>
    simp only [here] at stepped
    cases stepped
    refine durable.moved rfl rfl rfl (by simp) fun tail installing => ?_
    obtain rfl : 0 = tail := Phase.installTrans.inj installing
    exact ⟨_, _, pending_writeHead inv accounted here⟩
  | installTrans tail =>
    simp only [here] at stepped phase
    obtain ⟨before, last, pending⟩ := durable.pending tail here
    split at stepped
    · rename_i blockno entry
      cases stepped
      refine durable.moved rfl rfl rfl (by simp) fun later installing => ?_
      obtain rfl : tail + 1 = later := Phase.installTrans.inj installing
      exact ⟨before, last, pending_installBlock pending phase.1.distinct entry⟩
    · cases stepped
      exact durable.moved rfl rfl rfl (by simp) (by simp)
  | clearHead | readHead =>
    simp only [here] at stepped
    cases stepped
    exact durable.moved rfl rfl rfl (by simp) (by simp)
  | finish =>
    simp only [here] at stepped
    cases stepped
    exact ⟨durable.homes, by simp, fun _ _ => rfl, by simp⟩
  | recoverClear =>
    simp only [here] at stepped group
    cases stepped
    refine ⟨durable.homes, durable.apart, fun _ _ => group, by simp⟩

theorem durable_step {label : Label} (inv : Inv start init world) (accounted : Accounted world)
    (durable : Durable start init world) (stepped : step start world label = some next) :
    Durable start init next := by
  cases label with
  | beginOp => exact durable_beginOp inv durable stepped
  | logWrite op blockno data => exact durable_logWrite inv durable stepped
  | endOp op => exact durable_endOp inv accounted durable stepped
  | advance => exact durable_advance inv accounted durable stepped
  | bread blockno =>
    cases stepped
    refine ⟨durable.homes, durable.apart, durable.quiet, fun tail installing => ?_⟩
    obtain ⟨before, last, pending⟩ := durable.pending tail installing
    exact ⟨before, last, pending.groups, pending.owners, pending.behind⟩
  | evict blockno =>
    simp only [step] at stepped
    split at stepped
    · cases stepped
      refine ⟨durable.homes, durable.apart, durable.quiet, fun tail installing => ?_⟩
      obtain ⟨before, last, pending⟩ := durable.pending tail installing
      exact ⟨before, last, pending.groups, pending.owners, pending.behind⟩
    · cases stepped
  | crash =>
    cases stepped
    exact ⟨durable.homes, by simp [crash], by simp [crash], by simp [crash]⟩

theorem durable_boot (disk : Nat → Block) : Durable start init (World.boot disk) :=
  ⟨by simp [World.boot], by simp [World.boot], by simp [World.boot], by simp [World.boot]⟩

theorem home_content {blockno : Nat} (inv : Inv start init world) (durable : Durable start init world)
    (serving : world.phase.serving) (home : ¬ (area start).Owns blockno) :
    ∃ k ≤ world.groups.length,
      world.disk blockno = applyUpdates (writes (world.groups.take k).flatten) init blockno ∧
      ∀ update ∈ world.groups.flatten, update.op ∈ world.returned →
        update ∈ (world.groups.take k).flatten := by
  have whole : world.disk blockno = world.committed init blockno → ∃ k ≤ world.groups.length,
      world.disk blockno = applyUpdates (writes (world.groups.take k).flatten) init blockno ∧
      ∀ update ∈ world.groups.flatten, update.op ∈ world.returned →
        update ∈ (world.groups.take k).flatten := by
    intro all
    refine ⟨world.groups.length, le_rfl, ?_, fun update found _ => ?_⟩
    · rw [take_length]
      exact all
    · rwa [take_length]
  have collected : Collecting start init world → world.disk blockno = world.committed init blockno := by
    intro collecting
    have recoverable := inv.recoverable
    rw [collecting.head] at recoverable
    exact recoverable.home_eq home
  have phase := inv.phase
  cases here : world.phase with
  | idle | writeLog _ | writeHead | finish =>
    rw [here] at phase
    exact whole (collected phase.1)
  | installTrans tail =>
    rw [here] at phase
    obtain ⟨before, last, pending⟩ := durable.pending tail here
    have recoverable := inv.recoverable
    rw [phase.1.head] at recoverable
    by_cases listed : blockno ∈ world.lh
    · obtain ⟨index, entry⟩ := mem_iff_getElem?.mp listed
      by_cases done : index < tail
      · exact whole (phase.1.installed index done blockno entry)
      -- still to be written: the block is as the groups before the last one left it
      have earlier : world.groups.take before.length = before := by
        rw [pending.groups, take_left]
      refine ⟨before.length, by rw [pending.groups, length_append]; omega, ?_, ?_⟩
      · rw [earlier]
        exact pending.behind index blockno (by omega) entry
      intro update found returned
      rw [pending.groups, flatten_append, mem_append, flatten_singleton] at found
      rw [earlier]
      refine found.resolve_right fun inLast => ?_
      exact durable.apart _ (pending.owners update inLast) returned
    · exact whole (recoverable.rest blockno home listed)
  | clearHead =>
    rw [here] at phase
    exact whole (phase.1.home blockno home)
  | _ => rw [here] at serving; cases serving

theorem endOp_ended {op : Nat} (stepped : endOp world op = some next) : op ∈ next.ended := by
  simp only [endOp] at stepped
  split at stepped
  · split at stepped
    · cases stepped
      exact mem_cons_self
    split at stepped
    all_goals
      cases stepped
      exact mem_cons_self
  · cases stepped

theorem asInt_eq {value : Nat} (small : value < 2 ^ 31) : asInt value = value := by
  apply Int.bmod_eq_of_le
  · omega
  · omega

structure Forward (world next : World) : Prop where
  returned : ∀ op ∈ world.returned, op ∈ next.returned
  ended : ∀ op ∈ world.ended, op ∈ next.ended ∨ op ∈ next.returned
  commits : next.ncommit = world.ncommit ∨
    next.ncommit = world.ncommit + 1 ∧ ∀ op ∈ world.ended, op ∈ next.returned

theorem Forward.same (returned : next.returned = world.returned)
    (ended : ∀ op ∈ world.ended, op ∈ next.ended) (commits : next.ncommit = world.ncommit) :
    Forward world next :=
  ⟨fun _ found => returned ▸ found, fun op found => .inl (ended op found), .inl commits⟩

theorem forward_advance (stepped : advance start world = some next) : Forward world next := by
  simp only [advance] at stepped
  split at stepped
  case h_5 =>
      cases stepped
      exact ⟨fun op found => mem_append_right _ found,
        fun op found => .inr (mem_append_left _ found),
        .inr ⟨rfl, fun op found => mem_append_left _ found⟩⟩
  all_goals
    first
    | cases stepped
      done
    | cases stepped
      exact Forward.same rfl (fun _ => id) rfl
    | split at stepped <;> obtain rfl := Option.some.inj stepped <;> exact Forward.same rfl (fun _ => id) rfl

theorem forward_step {label : Label} (alive : label ≠ .crash) (stepped : step start world label = some next) :
    Forward world next := by
  cases label with
  | beginOp =>
    simp only [step, beginOp] at stepped
    split at stepped
    · cases stepped
      exact Forward.same rfl (fun _ => id) rfl
    · cases stepped
  | logWrite op blockno data =>
    simp only [step, logWrite] at stepped
    split at stepped
    · split at stepped
      · cases stepped
        exact Forward.same rfl (fun _ => id) rfl
      split at stepped
      all_goals
        cases stepped
        exact Forward.same rfl (fun _ => id) rfl
    · cases stepped
  | endOp op =>
    simp only [step, endOp] at stepped
    split at stepped
    · split at stepped
      · cases stepped
        exact Forward.same rfl (fun _ => mem_cons_of_mem _) rfl
      split at stepped
      all_goals
        cases stepped
        exact Forward.same rfl (fun _ => mem_cons_of_mem _) rfl
    · cases stepped
  | advance => exact forward_advance stepped
  | bread blockno =>
    cases stepped
    exact Forward.same rfl (fun _ => id) rfl
  | evict blockno =>
    simp only [step] at stepped
    split at stepped
    · cases stepped
      exact Forward.same rfl (fun _ => id) rfl
    · cases stepped
  | crash => exact absurd rfl alive

def CallInv (world : World) : SyncCall → Prop
  | .out => True
  | .waiting n due => ∃ target : Nat, n = target ∧ target ≤ world.ncommit + 1 ∧
      (∀ op ∈ due, op ∈ world.ended ∨ op ∈ world.returned) ∧
      (target ≤ world.ncommit → ∀ op ∈ due, op ∈ world.returned)
  | .returned due => ∀ op ∈ due, op ∈ world.returned

theorem CallInv.forward {call : SyncCall} (holds : CallInv world call) (forward : Forward world next) :
    CallInv next call := by
  cases call with
  | out => trivial
  | waiting n due =>
    obtain ⟨target, rfl, near, ended, committed⟩ := holds
    refine ⟨target, rfl, ?_, fun op found => ?_, fun passed op found => ?_⟩
    · rcases forward.commits with same | ⟨more, _⟩ <;> omega
    · rcases ended op found with open' | done
      · exact forward.ended op open'
      · exact .inr (forward.returned op done)
    · rcases forward.commits with same | ⟨more, all⟩
      · exact forward.returned op (committed (by omega) op found)
      · rcases ended op found with open' | done
        · exact all op open'
        · exact forward.returned op done
  | returned due => exact fun op found => forward.returned op (holds op found)

structure SystemInv (start : Nat) (init : Nat → Block) (sys : System) : Prop where
  inv : Inv start init sys.world
  accounted : Accounted sys.world
  durable : Durable start init sys.world
  finished : ∀ op ∈ sys.finished, op ∈ sys.world.ended ∨ op ∈ sys.world.returned
  calls : ∀ pid, CallInv sys.world (sys.calls pid)

theorem callInv_syncTest {n : Int} {due : List Nat} (few : world.ncommit < 2 ^ 31 - 1)
    (holds : CallInv world (.waiting n due)) : CallInv world (syncTest world n due) := by
  rw [syncTest]
  split
  · exact holds
  rename_i passed
  obtain ⟨target, rfl, _, _, committed⟩ := holds
  rw [asInt_eq (by omega)] at passed
  exact committed (by omega)

theorem callInv_sysSync {call : SyncCall} (holds : SystemInv start init sys)
    (serving : sys.world.phase.serving) (few : sys.world.ncommit < 2 ^ 31 - 1)
    (before : CallInv sys.world call) : CallInv sys.world (sysSync sys call) := by
  have enter : CallInv sys.world (if sys.world.committing ∨ sys.world.outstanding > 0 then
      syncTest sys.world (asInt (sys.world.ncommit + 1)) sys.finished else .returned sys.finished) := by
    split
    · have waits : CallInv sys.world (.waiting (asInt (sys.world.ncommit + 1)) sys.finished) :=
        ⟨sys.world.ncommit + 1, asInt_eq (by omega), le_rfl, holds.finished,
          fun passed => absurd passed (by omega)⟩
      generalize asInt (sys.world.ncommit + 1) = n at waits ⊢
      exact callInv_syncTest few waits
    rename_i still
    have free : sys.world.committing = false := by
      simpa using fun committing => still (.inl committing)
    have idle := holds.inv.idle_of_open serving free
    have none := holds.durable.quiet idle (by omega)
    intro op found
    refine (holds.finished op found).resolve_left ?_
    simp [none]
  cases call with
  | out | returned _ => exact enter
  | waiting n due => exact callInv_syncTest few before

theorem systemInv_log {label : Label} (holds : SystemInv start init sys)
    (stepped : Log.step start sys.world label = some next) (alive : label ≠ .crash)
    {finished : List Nat} (more : ∀ op ∈ finished, op ∈ sys.finished ∨ op ∈ next.ended) :
    SystemInv start init { sys with world := next, finished := finished } := by
  have forward := forward_step alive stepped
  refine ⟨inv_step holds.inv stepped, accounted_step holds.inv holds.accounted stepped,
    durable_step holds.inv holds.accounted holds.durable stepped, fun op found => ?_,
    fun pid => (holds.calls pid).forward forward⟩
  rcases more op found with old | new
  · rcases holds.finished op old with open' | done
    · exact forward.ended op open'
    · exact .inr (forward.returned op done)
  · exact .inl new

theorem systemInv_step {label : SystemLabel} {after : System} (holds : SystemInv start init sys)
    (few : FewCommits sys label) (stepped : sys.step start label = some after) :
    SystemInv start init after := by
  cases label with
  | log label =>
    simp only [System.step, map_eq_some_iff] at stepped
    obtain ⟨world, moved, rfl⟩ := stepped
    cases label with
    | endOp op =>
      refine systemInv_log holds moved (by simp) fun other found => ?_
      rcases mem_cons.mp found with rfl | old
      · exact .inr (endOp_ended moved)
      · exact .inl old
    | crash =>
      refine ⟨inv_step holds.inv moved, accounted_step holds.inv holds.accounted moved,
        durable_step holds.inv holds.accounted holds.durable moved, ?_, fun _ => trivial⟩
      simp
    | _ => exact systemInv_log holds moved (by simp) fun op found => .inl found
  | sync pid =>
    obtain ⟨serving, stepped⟩ := ite_none_right_eq_some.mp stepped
    cases stepped
    refine ⟨holds.inv, holds.accounted, holds.durable, holds.finished, fun other => ?_⟩
    obtain rfl | same := eq_or_ne other pid
    · dsimp only
      rw [Function.update_self]
      exact callInv_sysSync holds serving few (holds.calls other)
    · dsimp only
      rw [Function.update_of_ne same]
      exact holds.calls other

/-- When `sys_sync` returns, the disk holds at its home location every update, or a later
committed one, of every operation that had ended when the call acquired `log.lock`. -/
theorem sync_durable {disk : Nat → Block} {pid : Nat} {due : List Nat} {after : System}
    (empty : decodeHead (disk start) = [])
    (reached : Reaches (System.step start) FewCommits (System.boot disk) sys)
    (few : FewCommits sys (.sync pid)) (stepped : sys.step start (.sync pid) = some after)
    (returns : after.calls pid = .returned due) :
    ∀ update ∈ after.world.issued, update.op ∈ due →
      update ∈ after.world.groups.flatten ∧ ∃ k ≤ after.world.groups.length,
        update ∈ (after.world.groups.take k).flatten ∧
        after.world.disk update.blockno =
          applyUpdates (writes (after.world.groups.take k).flatten) disk update.blockno := by
  have before : SystemInv start disk sys := by
    refine reached.invariant (SystemInv start disk) ⟨inv_boot empty, accounted_boot disk,
      durable_boot disk, by simp [System.boot], fun _ => trivial⟩ ?_
    intro state label next holds few stepped
    exact systemInv_step holds few stepped
  have holds := systemInv_step before few stepped
  have committed := holds.calls pid
  rw [returns] at committed
  have serving : after.world.phase.serving := by
    obtain ⟨serving, stepped⟩ := ite_none_right_eq_some.mp stepped
    cases stepped
    exact serving
  intro update found ofDue
  have done := committed update.op ofDue
  have all := (holds.accounted.returned update.op done).2.2
  have inGroups : update ∈ after.world.groups.flatten := by
    have mine : update ∈ updatesBy update.op after.world.issued :=
      mem_filter.mpr ⟨found, by simp⟩
    rw [← all] at mine
    exact (mem_filter.mp mine).1
  obtain ⟨k, bound, content, included⟩ :=
    home_content holds.inv holds.durable serving (holds.durable.homes update found)
  exact ⟨inGroups, k, bound, included update inGroups done, content⟩

def syncedRun : List SystemLabel :=
  [.log .advance, .log .advance, .log .advance, .log .beginOp, .log .beginOp,
    .log (.logWrite 0 50 fun _ => 7), .log (.endOp 0), .sync 3, .log (.endOp 1)] ++
    List.replicate 7 (.log .advance)

theorem sync_durable_waits :
    ∃ sys after update, Reaches (System.step 2) FewCommits (System.boot fun _ _ => 0) sys ∧
      sys.step 2 (.sync 3) = some after ∧ after.calls 3 = .returned [0] ∧
      update ∈ after.world.issued ∧ update.op = 0 ∧ update ∈ after.world.groups.flatten := by
  obtain ⟨sys, reached, seen⟩ := reaches_within
    (show (runWithin (fun sys _ => sys.world.ncommit < 2 ^ 31 - 1) (System.step 2) (System.boot fun _ _ => 0) syncedRun).map (fun sys =>
        (sys.world.ncommit, sys.world.issued.map Update.op, (sys.step 2 (.sync 3)).map fun after =>
          match after.calls 3 with
          | .returned due => some due
          | _ => none)) = some (1, [0], some (some [0])) by decide +kernel)
  simp only [Prod.mk.injEq, map_eq_some_iff] at seen
  obtain ⟨commits, issued, after, stepped, returns⟩ := seen
  have few : FewCommits sys (.sync 3) := by
    rw [FewCommits, commits]
    decide
  have returned : after.calls 3 = .returned [0] := by
    split at returns
    · rename_i due here
      rw [here, Option.some.inj returns]
    · cases returns
  have unchanged : after.world = sys.world := by
    simp only [System.step] at stepped
    split at stepped
    · rw [← Option.some.inj stepped]
    · cases stepped
  obtain ⟨update, found, ofZero⟩ : ∃ update ∈ after.world.issued, update.op = 0 := by
    rw [unchanged]
    exact mem_map.mp (issued ▸ mem_singleton.mpr rfl)
  have durable := sync_durable (by decide) reached few stepped returned update found (by simp [ofZero])
  exact ⟨sys, after, update, reached, stepped, returned, found, ofZero, durable.1⟩

end Xv6.Log
