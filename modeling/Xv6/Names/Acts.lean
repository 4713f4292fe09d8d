import Xv6.Names.Counts

/-!
What the actions on inodes do to the references and locks of a process.
-/

namespace Xv6.Names

open Lib Lib.Interleave List State Own
open Function
open Fs (Name ninode)

variable {action : Act} {other : Nat} {sh : Share} {node : Inode} {own : Own} {away : Bool}

variable {cfg : Config} {st after : State} {share : Nat → Share} {pid ip i : Nat} {g : Ghost}

namespace Ghost

def hold (g : Ghost) (ip i : Nat) : Ghost := { g with held := (ip, i) :: g.held }

def unhold (g : Ghost) (ip i : Nat) : Ghost := { g with held := g.held.erase (ip, i) }

def lock (g : Ghost) (ip : Nat) : Ghost := { g with locks := update g.locks ip true }

def unlock (g : Ghost) (ip : Nat) : Ghost := { g with locks := update g.locks ip false }

def gives (g : Ghost) (share : Share) : Ghost := { g with share := share }

@[simp] theorem hold_held (g : Ghost) : (g.hold ip i).held = (ip, i) :: g.held := rfl

@[simp] theorem hold_locks (g : Ghost) : (g.hold ip i).locks = g.locks := rfl

@[simp] theorem hold_share (g : Ghost) : (g.hold ip i).share = g.share := rfl

@[simp] theorem unhold_held (g : Ghost) : (g.unhold ip i).held = g.held.erase (ip, i) := rfl

@[simp] theorem unhold_locks (g : Ghost) : (g.unhold ip i).locks = g.locks := rfl

@[simp] theorem unhold_share (g : Ghost) : (g.unhold ip i).share = g.share := rfl

@[simp] theorem lock_held (g : Ghost) : (g.lock ip).held = g.held := rfl

@[simp] theorem lock_locks (g : Ghost) : (g.lock ip).locks = update g.locks ip true := rfl

@[simp] theorem lock_share (g : Ghost) : (g.lock ip).share = g.share := rfl

@[simp] theorem unlock_held (g : Ghost) : (g.unlock ip).held = g.held := rfl

@[simp] theorem unlock_locks (g : Ghost) : (g.unlock ip).locks = update g.locks ip false := rfl

@[simp] theorem unlock_share (g : Ghost) : (g.unlock ip).share = g.share := rfl

@[simp] theorem unhold_hold (g : Ghost) : (g.hold ip i).unhold ip i = g := by simp [unhold, hold]

theorem unlock_lock (free : g.locks ip = false) : (g.lock ip).unlock ip = g := by
  have same : update (update g.locks ip true) ip false = g.locks := by
    rw [update_idem, ← free, update_eq_self]
  rw [unlock, lock, same]

end Ghost

theorem does_run {post : action.Reply → Ghost → Prop}
    (safe : ∀ st share, Inv cfg st share → ghost st share pid = g → Safe st share pid action)
    (runs : ∀ st share, Inv cfg st share → ghost st share pid = g → (st.procs pid).stage = .live → pid < cfg.nproc → ∀ choice, (logic cfg).Ends pid st share post (run pid action choice st)) :
    Does (logic cfg) pid action g post := by
  intro st share inv here _
  refine ⟨safe st share inv here, fun choice => ?_⟩
  by_cases alive : (st.procs pid).stage = .live
  · have running := inv.procs.runs (by rw [alive]; decide)
    have same : (logic cfg).exec pid action choice st = run pid action choice st := if_pos alive
    rw [same]
    exact runs st share inv here alive running choice
  · have waits : (logic cfg).exec pid action choice st = .blocked := if_neg alive
    rw [waits]
    trivial

theorem halts_fs (st : State) (panic : Fs.Panic) : Halts { st with panic := some (.fs panic) } :=
  ⟨.fs panic, rfl, nofun, nofun⟩

theorem ghost_other {share' : Nat → Share} (held : (after.procs other).held = (st.procs other).held)
    (locks : ∀ jp, (after.itable jp).lock = some other ↔ (st.itable jp).lock = some other)
    (same : share' other = share other) : ghost after share' other = ghost st share other := by
  simp only [ghost, held, same, locks]

theorem ghost_gives (held : (after.procs pid).held = (st.procs pid).held)
    (locks : ∀ jp, (after.itable jp).lock = some pid ↔ (st.itable jp).lock = some pid) :
    ghost after (update share pid sh) pid = (ghost st share pid).gives sh := by
  simp only [ghost, Ghost.gives, held, locks, update_self]

structure Quiet (st after : State) : Prop where
  slots : ∀ jp, (after.itable jp).ref = (st.itable jp).ref ∧ (after.itable jp).inum = (st.itable jp).inum
  locks : ∀ jp, (after.itable jp).lock = (st.itable jp).lock
  ftable : after.ftable = st.ftable
  pipes : after.pipes = st.pipes
  procs : after.procs = st.procs
  panic : after.panic = st.panic

theorem Inv.quiet (inv : Inv cfg st share) (quiet : Quiet st after) : Inv cfg after share where
  nodes := by
    rw [quiet.ftable, quiet.procs]
    exact inv.nodes.congr quiet.slots
  files := by
    rw [quiet.ftable, quiet.procs]
    exact inv.files
  pipes := by
    rw [quiet.ftable, quiet.pipes]
    exact inv.pipes
  procs := by
    rw [quiet.ftable, quiet.procs]
    exact inv.procs
  locks := by
    intro jp q
    rw [quiet.locks, quiet.procs]
    exact inv.locks jp q
  running := by
    rw [quiet.panic]
    exact inv.running

theorem Quiet.ghost (quiet : Quiet st after) (q : Nat) : ghost after share q = Names.ghost st share q :=
  ghost_other (by rw [quiet.procs]) (fun jp => by rw [quiet.locks]) rfl

theorem Quiet.refl (st : State) : Quiet st st := ⟨fun _ => ⟨rfl, rfl⟩, fun _ => rfl, rfl, rfl, rfl, rfl⟩

theorem Quiet.put {disk : Nat → Fs.Dinode} {dirs : Nat → List Dirent} {wrote : Nat → Option Insert}
    (ref : node.ref = (st.itable ip).ref) (inum : node.inum = (st.itable ip).inum)
    (lock : node.lock = (st.itable ip).lock) :
    Quiet st { st with disk := disk, dirs := dirs, wrote := wrote, itable := update st.itable ip node } := by
  refine ⟨fun jp => ?_, fun jp => ?_, rfl, rfl, rfl, rfl⟩
  · obtain rfl | here := eq_or_ne jp ip
    · simp [ref, inum]
    · simp [update_of_ne here]
  · obtain rfl | here := eq_or_ne jp ip
    · simp [lock]
    · simp [update_of_ne here]

/-- The actions that only read, or change what an inode says. -/
def Act.quiet : Act → Bool
  | .beginOp | .load _ | .node _ | .inum _ | .change _ _ | .iupdate _ | .lookup _ _ _ | .space _ | .isdirempty _
  | .writeEntry _ _ _ | .writeData _ | .mark _ _ | .itrunc _ _ | .invalidate _ | .ifree _ | .copyout | .uvmcopy => true
  | _ => false

def Still (st : State) {R : Type} : Outcome State R → Prop
  | .blocked => False
  | .halted after => Halts after
  | .done after _ => Quiet st after

theorem run_quiet (quiet : action.quiet = true) (choice : Choice) : Still st (run pid action choice st) := by
  cases action <;> simp only [Act.quiet, Bool.false_eq_true] at quiet
  case beginOp => exact ⟨fun _ => ⟨rfl, rfl⟩, fun _ => rfl, rfl, rfl, rfl, rfl⟩
  case load ip =>
    simp only [run, load]
    by_cases valid : (st.itable ip).valid = true
    · simp only [valid, if_true]
      exact Quiet.refl st
    by_cases type : (st.disk (st.itable ip).inum).type = 0
    · simp only [valid, type, if_true]
      exact halts_fs st _
    · simp only [valid, type, if_false]
      exact Quiet.put rfl rfl rfl
  case node => exact Quiet.refl st
  case inum => exact Quiet.refl st
  case change => exact Quiet.put rfl rfl rfl
  case iupdate => exact ⟨fun _ => ⟨rfl, rfl⟩, fun _ => rfl, rfl, rfl, rfl, rfl⟩
  case lookup dp name insert =>
    simp only [run, lookup]
    by_cases dir : (st.itable dp).d.type = Fs.tDir
    · simp only [dir, ne_eq, not_true, if_false]
      exact Quiet.refl st
    · simp only [dir, ne_eq, not_false_eq_true, if_true]
      exact halts_fs st _
  case space => exact Quiet.refl st
  case isdirempty => exact Quiet.refl st
  case writeEntry dp index entry =>
    simp only [run, writeEntry]
    split
    · exact Quiet.refl st
    · split
      · exact Quiet.put rfl rfl rfl
      · exact Quiet.put rfl rfl rfl
  case writeData => exact Quiet.put rfl rfl rfl
  case mark inum type =>
    simp only [run, mark]
    by_cases free : (st.disk inum).type = 0
    · simp only [free, if_true]
      exact ⟨fun _ => ⟨rfl, rfl⟩, fun _ => rfl, rfl, rfl, rfl, rfl⟩
    · simp only [free, if_false]
      exact Quiet.refl st
  case itrunc => exact Quiet.put rfl rfl rfl
  case invalidate => exact Quiet.put rfl rfl rfl
  case ifree => exact ⟨fun _ => ⟨rfl, rfl⟩, fun _ => rfl, rfl, rfl, rfl, rfl⟩
  case copyout => exact Quiet.refl st
  case uvmcopy => exact Quiet.refl st

theorem does_quiet (quiet : action.quiet = true) : Does (logic cfg) pid action g fun _ after => after = g := by
  refine does_run (fun st share _ _ => ?_) fun st share inv here _ _ choice => ?_
  · cases action <;> first | trivial | cases quiet
  have outcome : Still st (run pid action choice st) := run_quiet quiet choice
  cases ran : run pid action choice st with
  | blocked => trivial
  | halted after =>
    rw [ran] at outcome
    exact outcome
  | done after reply =>
    rw [ran] at outcome
    have same : ∀ q, ghost after share q = ghost st share q := outcome.ghost
    exact ⟨share, inv.quiet outcome, fun other _ => same other, (same pid).trans here⟩

section Locks

theorem Inv.setLock (inv : Inv cfg st share) {lock : Option Nat}
    (refers : ∀ q, lock = some q → Refers (st.procs q).held (share q) ip) :
    Inv cfg (st.put ip { st.itable ip with lock := lock }) share where
  nodes := inv.nodes.congr fun jp => by
    obtain rfl | here := eq_or_ne jp ip
    · simp [put]
    · simp [put, update_of_ne here]
  files := inv.files
  pipes := inv.pipes
  procs := inv.procs
  locks := by
    intro jp q locked
    obtain rfl | here := eq_or_ne jp ip
    · simp only [put, update_self] at locked
      exact refers q locked
    · simp only [put, update_of_ne here] at locked
      exact inv.locks jp q locked
  running := inv.running

theorem ghost_setLock {lock : Option Nat} (before : (st.itable ip).lock ≠ some other) (now : lock ≠ some other) :
    ghost (st.put ip { st.itable ip with lock := lock }) share other = ghost st share other := by
  refine ghost_other rfl (fun jp => ?_) rfl
  obtain rfl | here := eq_or_ne jp ip
  · simp [put, before, now]
  · simp [put, update_of_ne here]

theorem locks_put : (ghost (st.put ip node) share pid).locks =
    update (ghost st share pid).locks ip (node.lock = some pid) := by
  funext jp
  obtain rfl | here := eq_or_ne jp ip
  · simp [ghost, put]
  · simp [ghost, put, update_of_ne here]

theorem ghost_lock : ghost (st.put ip { st.itable ip with lock := some pid }) share pid = (ghost st share pid).lock ip := by
  rw [Ghost.lock, ← decide_eq_true (rfl : some pid = some pid)]
  exact congrArg (fun locks => (⟨_, locks, _⟩ : Ghost)) locks_put

theorem ghost_unlock : ghost (st.put ip { st.itable ip with lock := none }) share pid = (ghost st share pid).unlock ip := by
  rw [Ghost.unlock, ← decide_eq_false (nofun : none ≠ some pid)]
  exact congrArg (fun locks => (⟨_, locks, _⟩ : Ghost)) locks_put

theorem acquiresleep_does (refers : Refers g.held g.share ip) :
    Does (logic cfg) pid (.acquiresleep ip) g fun _ after => g.locks ip = false ∧ after = g.lock ip := by
  refine does_run (fun st share _ here => ?_) fun st share inv here _ _ choice => ?_
  · subst here
    exact refers
  subst here
  simp only [run, acquiresleep]
  by_cases low : (st.itable ip).ref < 1
  · rw [if_pos low]
    exact halts_fs st _
  rw [if_neg low]
  by_cases free : (st.itable ip).lock = none
  · rw [if_pos free]
    refine ⟨share, inv.setLock fun q here => ?_, fun other different => ?_, ?_, ghost_lock⟩
    · cases here
      exact refers
    · exact ghost_setLock (by simp [free]) (by simpa using different.symm)
    · simp [ghost, free]
  · rw [if_neg free]
    trivial

theorem iunlock_does : Does (logic cfg) pid (.iunlock ip) g fun _ after => after = g.unlock ip := by
  refine does_run (fun _ _ _ _ => trivial) ?_
  rintro st share inv rfl _ _ choice
  simp only [run, iunlock]
  by_cases other : (st.itable ip).lock ≠ some pid ∨ (st.itable ip).ref < 1
  · rw [if_pos other]
    exact halts_fs st _
  rw [if_neg other]
  have mine : (st.itable ip).lock = some pid := by
    by_contra different
    exact other (.inl different)
  refine ⟨share, inv.setLock nofun, fun other different => ?_, ghost_unlock⟩
  exact ghost_setLock (by simpa [mine] using different.symm) (by simp)

end Locks

section References

theorem OwnOk.of_live {ftable : Nat → File} {share : Share} (alive : own.stage = .live)
    (pending : ∀ fd f, share.pending = some (fd, f) → fd < nofile ∧ own.ofile fd = some f)
    (uses : ∀ u ∈ share.uses, u.fd < nofile ∧ own.slot share.pending u.fd = some u.f ∧ (ftable u.f).node = u.node)
    (slots : ∀ fd < nofile, fd < share.closed → own.ofile fd = none) (cwd : share.away = true → own.cwd = none) :
    OwnOk ftable own share := by
  refine ⟨fun rest => absurd alive rest, fun rest => ?_, pending, uses, slots, cwd⟩
  rw [alive] at rest
  rcases rest with none | none
  · cases none
  · cases none

theorem OwnOk.refers {ftable : Nat → File} {own' : Own} {share : Share} (ok : OwnOk ftable own share)
    (alive : own'.stage = .live) (ofile : own'.ofile = own.ofile) (cwd : away = true → own'.cwd = none) :
    OwnOk ftable own' { share with away := away } := by
  refine .of_live alive ?_ (fun u member => ?_) ?_ cwd
  · rw [ofile]
    exact ok.pending
  · rw [Own.slot, ofile]
    exact ok.uses u member
  · rw [ofile]
    exact ok.slots

theorem Inv.counted (inv : Inv cfg st share) (alive : (st.procs pid).stage = .live)
    (count : ∀ jp, (update st.itable ip node jp).ref + (st.procs pid).count jp = (st.itable jp).ref + own.count jp)
    (slot : 0 < node.ref → ip < ninode)
    (unique : 0 < node.ref → ∀ jp, jp ≠ ip → 0 < (st.itable jp).ref → (st.itable jp).inum ≠ node.inum)
    (same : 0 < (st.itable ip).ref → node.inum = (st.itable ip).inum)
    (held : ∀ r ∈ own.held, (update st.itable ip node r.1).inum = r.2) (lock : node.lock = (st.itable ip).lock)
    (locks : ∀ jp, (st.itable jp).lock = some pid → Refers own.held (share pid) jp) (stage : own.stage = .live)
    (ofile : own.ofile = (st.procs pid).ofile) (cwd : away = true → own.cwd = none) :
    Inv cfg ((st.put ip node).own pid own) (update share pid { share pid with away := away }) := by
  have running := inv.procs.runs (by rw [alive]; decide : (st.procs pid).stage ≠ .unused)
  have table := update_part Inode.lock lock
  have shares : ∀ f, own.shares { share pid with away := away } f = (st.procs pid).shares (share pid) f := by
    intro f
    simp only [Own.shares, Own.slots, Own.slot, ofile]
  refine ⟨inv.nodes.moved running count slot unique same held, ?_, ?_, ?_, ?_, inv.running⟩
  · refine inv.files.congr (fun q f => ?_) fun q => ?_
    · obtain rfl | here := eq_or_ne q pid
      · simpa [State.own] using shares f
      · simp [State.own, put, update_of_ne here]
    · exact update_part Share.fresh (by rfl) q
  · exact inv.pipes.congr (update_part Share.ends rfl)
  · exact inv.procs.changed alive ((inv.procs.each pid).refers stage ofile cwd) (fun _ _ _ _ => rfl) rfl
  · refine inv.locks.changed (fun jp r _ locked => ?_) fun jp locked => ?_
    · exact table jp ▸ locked
    · exact locks jp (table jp ▸ locked)

theorem locks_same (lock : node.lock = (st.itable ip).lock) {q : Nat} (jp : Nat) :
    (update st.itable ip node jp).lock = some q ↔ (st.itable jp).lock = some q := by
  rw [update_part Inode.lock lock]

theorem ghost_counted (lock : node.lock = (st.itable ip).lock) :
    ghost ((st.put ip node).own pid own) (update share pid sh) pid = ⟨own.held, (ghost st share pid).locks, sh⟩ := by
  have locks : (ghost ((st.put ip node).own pid own) (update share pid sh) pid).locks = (ghost st share pid).locks := by
    funext jp
    simp only [ghost, State.own, put, locks_same lock]
  rw [← locks]
  simp [ghost, State.own]

theorem ghost_counted_other (lock : node.lock = (st.itable ip).lock) (different : other ≠ pid) :
    ghost ((st.put ip node).own pid own) (update share pid sh) other = ghost st share other := by
  refine ghost_other ?_ (locks_same lock) (update_of_ne different _ _)
  simp [State.own, put, update_of_ne different]

theorem Inv.held_more (inv : Inv cfg st share) (alive : (st.procs pid).stage = .live) {i : Nat}
    (ref : node.ref = (st.itable ip).ref + 1) (slot : ip < ninode) (inum : node.inum = i)
    (unique : ∀ jp, jp ≠ ip → 0 < (st.itable jp).ref → (st.itable jp).inum ≠ i)
    (same : 0 < (st.itable ip).ref → i = (st.itable ip).inum) (lock : node.lock = (st.itable ip).lock) :
    Inv cfg ((st.put ip node).hold pid ip i) share ∧
      (∀ other, other ≠ pid → ghost ((st.put ip node).hold pid ip i) share other = ghost st share other) ∧
      ghost ((st.put ip node).hold pid ip i) share pid = (ghost st share pid).hold ip i := by
  have each := inv.procs.each pid
  have whole : update share pid (share pid) = share := update_id
  have state : (st.put ip node).hold pid ip i = (st.put ip node).own pid ((st.procs pid).hold ip i) := rfl
  have after : Inv cfg ((st.put ip node).own pid ((st.procs pid).hold ip i)) (update share pid (share pid)) := by
    refine inv.counted alive (fun jp => ?_) (fun _ => slot) (fun _ => inum ▸ unique) (inum ▸ same) ?_ lock ?_ alive rfl each.cwd
    · rw [count_hold]
      obtain rfl | here := eq_or_ne jp ip
      · rw [update_self, points_same]
        omega
      · rw [update_of_ne here, points_other fun equal => here (Option.some.inj equal).symm]
        omega
    · intro r member
      rcases mem_cons.mp member with rfl | old
      · rw [update_self, inum]
      have live := inv.nodes.live_held old
      by_cases here : r.1 = ip
      · rw [here, update_self, inum, same (here ▸ live), ← here]
        exact inv.nodes.held pid r old
      · rw [update_of_ne here]
        exact inv.nodes.held pid r old
    · intro jp locked
      rcases inv.locks jp pid locked with ⟨k, member⟩ | use
      · exact .inl ⟨k, mem_cons_of_mem _ member⟩
      · exact .inr use
  rw [state, ← whole]
  refine ⟨after, fun other different => ?_, ?_⟩
  · rw [ghost_counted_other lock different, whole]
  · rw [ghost_counted lock, whole]
    rfl

theorem Inv.held_less (inv : Inv cfg st share) (alive : (st.procs pid).stage = .live) {i : Nat}
    (member : (ip, i) ∈ (st.procs pid).held) (ref : node.ref + 1 = (st.itable ip).ref)
    (inum : node.inum = (st.itable ip).inum) (lock : node.lock = (st.itable ip).lock)
    (still : (st.itable ip).lock = some pid → Refers ((st.procs pid).held.erase (ip, i)) (share pid) ip) :
    Inv cfg ((st.put ip node).release pid ip i) share ∧
      (∀ other, other ≠ pid → ghost ((st.put ip node).release pid ip i) share other = ghost st share other) ∧
      ghost ((st.put ip node).release pid ip i) share pid = (ghost st share pid).unhold ip i := by
  have each := inv.procs.each pid
  have whole : update share pid (share pid) = share := update_id
  have state : (st.put ip node).release pid ip i = (st.put ip node).own pid ((st.procs pid).unhold ip i) := rfl
  have live := inv.nodes.live_held member
  have after : Inv cfg ((st.put ip node).own pid ((st.procs pid).unhold ip i)) (update share pid (share pid)) := by
    refine inv.counted alive (fun jp => ?_) (fun _ => inv.nodes.inside ip live) ?_ (fun _ => inum) ?_ lock ?_ alive rfl
      each.cwd
    · have count : ((st.procs pid).unhold ip i).count jp + points (some ip) jp = (st.procs pid).count jp :=
        count_unhold member
      obtain rfl | here := eq_or_ne jp ip
      · rw [points_same] at count
        rw [update_self]
        omega
      · rw [points_other fun equal => here (Option.some.inj equal).symm] at count
        rw [update_of_ne here]
        omega
    · intro _ jp different also equal
      rw [inum] at equal
      exact different (inv.nodes.unique jp ip also live equal)
    · intro r old
      rw [update_part Inode.inum inum]
      exact inv.nodes.held pid r (mem_of_mem_erase old)
    · intro jp locked
      obtain rfl | here := eq_or_ne jp ip
      · exact still locked
      · rcases inv.locks jp pid locked with ⟨k, found⟩ | use
        · exact .inl ⟨k, (mem_erase_of_ne fun equal => here (congrArg Prod.fst equal)).mpr found⟩
        · exact .inr use
  rw [state, ← whole]
  refine ⟨after, fun other different => ?_, ?_⟩
  · rw [ghost_counted_other lock different, whole]
  · rw [ghost_counted lock, whole]
    rfl

theorem iget_does {inum : Nat} {fresh : Bool} :
    Does (logic cfg) pid (.iget inum fresh) g fun ip after => after = g.hold ip inum := by
  refine does_run (fun _ _ _ _ => trivial) ?_
  rintro st share inv rfl alive _ choice
  simp only [run, iget]
  split
  · rename_i ip found
    have cached := List.find?_some found
    have slot := mem_range.mp (mem_of_find?_eq_some found)
    simp only [decide_eq_true_eq] at cached
    refine ⟨share, inv.held_more alive rfl slot cached.2 (fun jp different live equal => ?_) (fun _ => cached.2.symm) rfl⟩
    exact different (inv.nodes.unique jp ip live cached.1 (equal.trans cached.2.symm))
  rename_i absent
  split
  · rename_i ip found
    have empty := List.find?_some found
    have slot := mem_range.mp (mem_of_find?_eq_some found)
    simp only [decide_eq_true_eq] at empty
    refine ⟨share, inv.held_more alive ?_ slot rfl (fun jp _ live equal => ?_) (fun live => ?_) rfl⟩
    · rw [empty]
    · have none := List.find?_eq_none.mp absent jp (mem_range.mpr (inv.nodes.inside jp live))
      simp [live, equal] at none
    · omega
  · exact halts_fs st _

theorem idupCwd_does : Does (logic cfg) pid .idupCwd g fun ip after => ∃ i, after = g.hold ip i := by
  refine does_run (fun _ _ _ _ => trivial) ?_
  rintro st share inv rfl alive running choice
  simp only [run, idupCwd]
  split
  · rename_i ip cwd
    have live := inv.nodes.live running (count_cwd cwd)
    obtain ⟨after, others, mine⟩ : Inv cfg ((st.put ip { st.itable ip with ref := (st.itable ip).ref + 1 }).hold pid ip
        (st.itable ip).inum) share ∧ _ :=
      inv.held_more alive rfl (inv.nodes.inside ip live) rfl
        (fun jp different also equal => different (inv.nodes.unique jp ip also live equal)) (fun _ => rfl) rfl
    exact ⟨share, after, others, _, mine⟩
  · trivial

theorem Inv.cwd_moved (inv : Inv cfg st share) (alive : (st.procs pid).stage = .live) {cwd : Option Nat}
    {held : List (Nat × Nat)} (count : ∀ jp, points cwd jp + held.countP (fun r => r.1 = jp) = (st.procs pid).count jp)
    (inums : ∀ r ∈ held, (st.itable r.1).inum = r.2)
    (locks : ∀ jp, (st.itable jp).lock = some pid → Refers held (share pid) jp) (empty : away = true → cwd = none) :
    Inv cfg (st.own pid { st.procs pid with cwd := cwd, held := held })
        (update share pid { share pid with away := away }) ∧
      (∀ other, other ≠ pid → ghost (st.own pid { st.procs pid with cwd := cwd, held := held })
        (update share pid { share pid with away := away }) other = ghost st share other) ∧
      ghost (st.own pid { st.procs pid with cwd := cwd, held := held })
        (update share pid { share pid with away := away }) pid =
          ⟨held, (ghost st share pid).locks, { share pid with away := away }⟩ := by
  have state : st.own pid { st.procs pid with cwd := cwd, held := held } =
      (st.put 0 (st.itable 0)).own pid { st.procs pid with cwd := cwd, held := held } := by
    rw [put, update_id]
  rw [state]
  refine ⟨inv.counted alive (fun jp => ?_) (inv.nodes.inside 0) (fun live jp different also equal => ?_) (fun _ => rfl)
    (fun r member => ?_) rfl locks alive rfl empty, fun other different => ghost_counted_other rfl different,
    ghost_counted rfl⟩
  · rw [update_id, ← count jp]
    rfl
  · exact different (inv.nodes.unique jp 0 also live equal)
  · rw [update_id]
    exact inums r member

theorem takeCwd_does : Does (logic cfg) pid .takeCwd g fun ip after =>
    ∃ i, after = (g.hold ip i).gives { g.share with away := true } := by
  refine does_run (fun _ _ _ _ => trivial) ?_
  rintro st share inv rfl alive _ choice
  simp only [run, takeCwd]
  split
  · rename_i ip cwd
    have count : ∀ jp, points none jp + ((ip, (st.itable ip).inum) :: (st.procs pid).held).countP (fun r => r.1 = jp) =
        (st.procs pid).count jp := by
      intro jp
      simp only [Own.count, cwd, points_none, points_some, countP_cons, decide_eq_true_eq]
      omega
    have inums : ∀ r ∈ (ip, (st.itable ip).inum) :: (st.procs pid).held, (st.itable r.1).inum = r.2 := by
      intro r member
      rcases mem_cons.mp member with rfl | old
      · rfl
      · exact inv.nodes.held pid r old
    have locks : ∀ jp, (st.itable jp).lock = some pid →
        Refers ((ip, (st.itable ip).inum) :: (st.procs pid).held) (share pid) jp := by
      intro jp locked
      rcases inv.locks jp pid locked with ⟨k, found⟩ | use
      · exact .inl ⟨k, mem_cons_of_mem _ found⟩
      · exact .inr use
    have empty : true = true → (none : Option Nat) = none := fun _ => rfl
    obtain ⟨after, others, mine⟩ := inv.cwd_moved alive count inums locks empty
    exact ⟨_, after, others, _, mine⟩
  · trivial

theorem setCwd_does (member : (ip, i) ∈ g.held) (free : g.locks ip = false) (away : g.share.away = true) :
    Does (logic cfg) pid (.setCwd ip) g fun _ after => after = (g.unhold ip i).gives { g.share with away := false } := by
  refine does_run (fun _ _ _ _ => trivial) ?_
  rintro st share inv rfl alive _ choice
  have inum : (st.itable ip).inum = i := inv.nodes.held pid (ip, i) member
  have cwd : (st.procs pid).cwd = none := (inv.procs.each pid).cwd away
  simp only [run, setCwd, inum]
  have count : ∀ jp, points (some ip) jp + ((st.procs pid).held.erase (ip, i)).countP (fun r => r.1 = jp) =
      (st.procs pid).count jp := by
    intro jp
    have split := (perm_cons_erase member).countP_eq fun r => decide (r.1 = jp)
    simp only [countP_cons, decide_eq_true_eq] at split
    simp only [Own.count, cwd, points_none, points_some]
    simp only [ghost] at split
    omega
  have inums : ∀ r ∈ (st.procs pid).held.erase (ip, i), (st.itable r.1).inum = r.2 := fun r old =>
    inv.nodes.held pid r (mem_of_mem_erase old)
  have locks : ∀ jp, (st.itable jp).lock = some pid → Refers ((st.procs pid).held.erase (ip, i)) (share pid) jp := by
    intro jp locked
    have other : jp ≠ ip := by
      rintro rfl
      simp [ghost, locked] at free
    rcases inv.locks jp pid locked with ⟨k, found⟩ | use
    · exact .inl ⟨k, (mem_erase_of_ne fun equal => other (congrArg Prod.fst equal)).mpr found⟩
    · exact .inr use
  have empty : false = true → some ip = none := by rintro ⟨⟩
  exact ⟨_, inv.cwd_moved alive count inums locks empty⟩

theorem Inv.shared_with {st : State} {share : Nat → Share} (inv : Inv cfg st share) {q : Nat} (other : q ≠ pid)
    (mine : (ip, i) ∈ (st.procs pid).held) (theirs : Refers (st.procs q).held (share q) ip) : 1 < (st.itable ip).ref := by
  have running := inv.nodes.runs mine
  rcases theirs with ⟨j, member⟩ | ⟨u, used, node⟩
  · exact inv.nodes.two running (inv.nodes.runs member) other (count_pos mine) (count_pos member)
  · obtain ⟨_, _, file⟩ := (inv.procs.each q).uses u used
    have open_ := inv.files.live (inv.procs.runs_use used) (inv.procs.shares_use used)
    exact inv.nodes.one_and_file running (count_pos mine) (inv.files.inside u.f open_) (file.trans node)

theorem lastRef_does (member : (ip, i) ∈ g.held) (free : g.locks ip = false) :
    Does (logic cfg) pid (.lastRef ip) g fun reply after =>
      match reply with
      | none => after = g.unhold ip i
      | some _ => after = g.lock ip := by
  have last : ∀ st share, Inv cfg st share → ghost st share pid = g → (st.itable ip).ref = 1 →
      (st.itable ip).lock = none := by
    intro st share inv here one
    subst here
    by_contra locked
    obtain ⟨q, holder⟩ := Option.ne_none_iff_exists'.mp locked
    have other : q ≠ pid := by
      rintro rfl
      simp [ghost, holder] at free
    have two := inv.shared_with other member (inv.locks ip q holder)
    omega
  refine does_run (fun st share inv here => ?_) fun st share inv here alive _ choice => ?_
  · refine ⟨⟨i, ?_⟩, fun only => last st share inv here only.1⟩
    subst here
    exact member
  simp only [run, lastRef]
  by_cases only : (st.itable ip).ref = 1 ∧ (st.itable ip).valid = true ∧ (st.itable ip).d.nlink = 0
  · have unlocked := last st share inv here only.1
    rw [if_pos only, if_pos unlocked]
    subst here
    refine ⟨share, inv.setLock fun q is => ?_, fun other different => ?_, ghost_lock⟩
    · cases is
      exact .inl ⟨i, member⟩
    · exact ghost_setLock (by simp [unlocked]) (by simpa using different.symm)
  · rw [if_neg only]
    subst here
    have inum : (st.itable ip).inum = i := inv.nodes.held pid (ip, i) member
    subst inum
    have live := inv.nodes.live_held member
    refine ⟨share, inv.held_less alive member ?_ rfl rfl fun locked => ?_⟩
    · exact Nat.sub_add_cancel live
    · simp [ghost, locked] at free

theorem lastRef_twice {j : Nat} (member : (ip, i) ∈ g.held) (also : (ip, j) ∈ g.held.erase (ip, i)) :
    Does (logic cfg) pid (.lastRef ip) g fun reply after => reply = none ∧ after = g.unhold ip i := by
  have more : ∀ st share, Inv cfg st share → ghost st share pid = g → 1 < (st.itable ip).ref := by
    intro st share inv here
    subst here
    have rest : 0 < ((st.procs pid).unhold ip i).count ip := count_pos also
    have count : ((st.procs pid).unhold ip i).count ip + points (some ip) ip = (st.procs pid).count ip :=
      count_unhold member
    have part := le_total (fun q => (st.procs q).count ip) (inv.nodes.runs member)
    have whole := inv.nodes.count ip
    rw [points_same] at count
    omega
  refine does_run (fun st share inv here => ?_) fun st share inv here alive _ choice => ?_
  · refine ⟨⟨i, ?_⟩, fun only => ?_⟩
    · subst here
      exact member
    · have two := more st share inv here
      omega
  have two := more st share inv here
  simp only [run, lastRef]
  rw [if_neg (by omega)]
  subst here
  have inum : (st.itable ip).inum = i := inv.nodes.held pid (ip, i) member
  subst inum
  obtain ⟨after, others, mine⟩ : Inv cfg ((st.put ip { st.itable ip with ref := (st.itable ip).ref - 1 }).release pid ip
      (st.itable ip).inum) share ∧ _ := inv.held_less alive member (Nat.sub_add_cancel (by omega)) rfl rfl fun _ => .inl ⟨j, also⟩
  exact ⟨share, after, others, rfl, mine⟩

theorem drop_does (member : (ip, i) ∈ g.held) (free : g.locks ip = false) :
    Does (logic cfg) pid (.drop ip) g fun _ after => after = g.unhold ip i := by
  refine does_run (fun _ _ _ _ => trivial) ?_
  rintro st share inv rfl alive _ choice
  have inum : (st.itable ip).inum = i := inv.nodes.held pid (ip, i) member
  subst inum
  have live := inv.nodes.live_held member
  refine ⟨share, inv.held_less alive member (Nat.sub_add_cancel live) rfl rfl fun locked => ?_⟩
  simp [ghost, locked] at free

end References

end Xv6.Names
