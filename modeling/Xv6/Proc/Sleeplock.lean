import Xv6.Lib.Guarded
import Xv6.Lib.Transition
import Xv6.Proc.Sleep

/-!
`acquiresleep` and `releasesleep` of any number of processes on any number of sleep locks. A
step is what a process does under one spinlock: the inner lock `lk->lk` is in the state, the
calls of `sleep_prepare`, `sleep` and each visit of `wakeup` are one step each. A process
may also sleep on a channel that is no sleep lock, and `kkill` may visit any process at any
time.
-/

namespace Xv6.Sleeplocks

open Function
open Xv6.Lib
open Xv6.Procs

inductive Chan
  | sleeplock (k : Nat)
  | other (c : Nat)
  deriving DecidableEq

/-- `struct sleeplock`; `inner` is the process that holds `lk->lk`. -/
structure Sleeplock where
  locked : Bool
  pid : Nat
  inner : Option Nat

inductive Pc
  | idle
  /-- before `acquire(&lk->lk)` in `acquiresleep`, the first time or after `sleep` -/
  | acquire (k : Nat)
  /-- at the head of the loop -/
  | test (k : Nat)
  | prepare (k : Nat)
  | release (k : Nat)
  | sleep (k : Nat)
  /-- in the call of `sched` in `sleep` -/
  | sched (k : Nat)
  /-- the lock is taken, before the last `release` -/
  | taken (k : Nat)
  /-- before `acquire(&lk->lk)` in `releasesleep` -/
  | giveUp (k : Nat)
  | clear (k : Nat)
  | wakeup (k visited : Nat)
  | finish (k : Nat)
  /-- registered on another channel, before `sleep` -/
  | waits
  | waitSched
  deriving DecidableEq

def Pc.inner : Pc → Option Nat
  | .test k | .prepare k | .release k | .taken k | .clear k | .wakeup k _ | .finish k => some k
  | .idle | .acquire _ | .sleep _ | .sched _ | .giveUp _ | .waits | .waitSched => none

def Pc.gives : Pc → Option Nat
  | .giveUp k | .clear k => some k
  | _ => none

def Pc.registered : Pc → Option Nat
  | .release k | .sleep k | .sched k => some k
  | _ => none

def Pc.wakes : Pc → Bool
  | .wakeup _ _ => true
  | _ => false

def Pc.drowsy : Pc → Bool
  | .prepare _ | .release _ | .sleep _ | .sched _ | .waits | .waitSched => true
  | _ => false

structure State where
  procs : Nat → Proc Chan
  pcs : Nat → Pc
  locks : Nat → Sleeplock
  /-- history: from the step of `acquiresleep` that locks to the step of `releasesleep` that unlocks -/
  holds : Nat → Nat → Bool

inductive Label
  | acquiresleep (p k : Nat)
  | releasesleep (p k : Nat)
  | run (p : Nat)
  | kkill (target : Nat)
  | schedule (p : Nat)
  | yield (p : Nat)
  /-- `sleep_prepare` on a channel that is no sleep lock, and a visit of `wakeup` for it -/
  | wait (p c : Nat)
  | wakeup (c target : Nat)

namespace State

def setPc (s : State) (p : Nat) (pc : Pc) : State := { s with pcs := update s.pcs p pc }

def setProc (s : State) (p : Nat) (proc : Proc Chan) : State := { s with procs := update s.procs p proc }

def setLock (s : State) (k : Nat) (lock : Sleeplock) : State := { s with locks := update s.locks k lock }

def setInner (s : State) (k : Nat) (inner : Option Nat) : State := s.setLock k { s.locks k with inner := inner }

def setHolds (s : State) (p k : Nat) (value : Bool) : State :=
  { s with holds := update s.holds p (update (s.holds p) k value) }

end State

open State

theorem State.setHolds_apply (s : State) (p k : Nat) (value : Bool) (q l : Nat) :
    (s.setHolds p k value).holds q l = if q = p ∧ l = k then value else s.holds q l := by
  obtain rfl | same := eq_or_ne q p
  · by_cases this : l = k
    · simp [setHolds, this]
    · simp [setHolds, this]
  · simp [setHolds, same]

theorem State.setInner_locked (s : State) (k : Nat) (inner : Option Nat) (l : Nat) :
    ((s.setInner k inner).locks l).locked = (s.locks l).locked := by
  by_cases this : l = k
  all_goals simp [setInner, setLock, this]

section Steps

-- `NPROC`, and the pid of each process
variable (nproc : Nat) (pid : Nat → Nat)

def run (s : State) (p : Nat) : Option State :=
  match s.pcs p with
  | .idle => none
  | .acquire k =>
    if (s.locks k).inner = none then some ((s.setInner k (some p)).setPc p (.test k)) else none
  | .test k =>
    if (s.locks k).locked then some (s.setPc p (.prepare k))
    else some (((s.setLock k { s.locks k with locked := true, pid := pid p }).setHolds p k true).setPc p (.taken k))
  | .prepare k => some ((s.setProc p ((s.procs p).sleepPrepare (.sleeplock k))).setPc p (.release k))
  | .release k => some ((s.setInner k none).setPc p (.sleep k))
  | .sleep k =>
    if (s.procs p).chan.isSome then some ((s.setProc p (s.procs p).sleep).setPc p (.sched k))
    else some (s.setPc p (.acquire k))
  | .sched k => some (s.setPc p (.acquire k))
  | .taken k => some ((s.setInner k none).setPc p .idle)
  | .giveUp k =>
    if (s.locks k).inner = none then some ((s.setInner k (some p)).setPc p (.clear k)) else none
  | .clear k =>
    some (((s.setLock k { s.locks k with locked := false, pid := 0 }).setHolds p k false).setPc p (.wakeup k 0))
  | .wakeup k visited =>
    if visited < nproc then
      some ((s.setProc visited ((s.procs visited).wakeup (.sleeplock k))).setPc p (.wakeup k (visited + 1)))
    else some (s.setPc p (.finish k))
  | .finish k => some ((s.setInner k none).setPc p .idle)
  | .waits =>
    if (s.procs p).chan.isSome then some ((s.setProc p (s.procs p).sleep).setPc p .waitSched)
    else some (s.setPc p .idle)
  | .waitSched => some (s.setPc p .idle)

def step (s : State) : Label → Option State
  | .acquiresleep p k =>
    if p < nproc ∧ (s.procs p).state = .running ∧ s.pcs p = .idle then some (s.setPc p (.acquire k)) else none
  | .releasesleep p k =>
    if p < nproc ∧ (s.procs p).state = .running ∧ s.pcs p = .idle ∧ s.holds p k = true then
      some (s.setPc p (.giveUp k))
    else none
  | .run p => if p < nproc ∧ (s.procs p).state = .running then run nproc pid s p else none
  | .kkill target => some (s.setProc target (s.procs target).kkill)
  | .schedule p =>
    if (s.procs p).state = .runnable then some (s.setProc p { s.procs p with state := .running }) else none
  | .yield p =>
    -- interrupts are off while a process holds a spinlock
    if (s.procs p).state = .running ∧ (s.pcs p).inner = none then
      some (s.setProc p { s.procs p with state := .runnable })
    else none
  | .wait p c =>
    if p < nproc ∧ (s.procs p).state = .running ∧ s.pcs p = .idle then
      some ((s.setProc p ((s.procs p).sleepPrepare (.other c))).setPc p .waits)
    else none
  | .wakeup c target => some (s.setProc target ((s.procs target).wakeup (.other c)))

end Steps

def boot : State where
  procs _ := { state := .runnable, chan := none, killed := false }
  pcs _ := .idle
  locks _ := { locked := false, pid := 0, inner := none }
  holds _ _ := false

def Runs (nproc : Nat) (s : State) (p : Nat) : Prop := p < nproc ∧ (s.procs p).state = .running

/-- What a step is: a move of the process `p`, or a change to the fields that `p->lock` of
`target` protects. -/
inductive Act (nproc : Nat) (pid : Nat → Nat) (s : State) : State → Prop
  | call (p : Nat) (pc : Pc) (runs : Runs nproc s p) (place : s.pcs p = .idle)
      (start : (∃ k, pc = .acquire k) ∨ ∃ k, pc = .giveUp k ∧ s.holds p k = true) : Act nproc pid s (s.setPc p pc)
  | acquire (p k : Nat) (pc : Pc) (runs : Runs nproc s p) (free : (s.locks k).inner = none)
      (place : s.pcs p = .acquire k ∧ pc = .test k ∨ s.pcs p = .giveUp k ∧ pc = .clear k) :
      Act nproc pid s ((s.setInner k (some p)).setPc p pc)
  | busy (p k : Nat) (runs : Runs nproc s p) (place : s.pcs p = .test k) (locked : (s.locks k).locked = true) :
      Act nproc pid s (s.setPc p (.prepare k))
  | take (p k : Nat) (runs : Runs nproc s p) (place : s.pcs p = .test k) (free : (s.locks k).locked = false) :
      Act nproc pid s (((s.setLock k { s.locks k with locked := true, pid := pid p }).setHolds p k true).setPc p (.taken k))
  | prepare (p k : Nat) (runs : Runs nproc s p) (place : s.pcs p = .prepare k) :
      Act nproc pid s ((s.setProc p ((s.procs p).sleepPrepare (.sleeplock k))).setPc p (.release k))
  | release (p k : Nat) (pc : Pc) (runs : Runs nproc s p)
      (place : s.pcs p = .release k ∧ pc = .sleep k ∨ (s.pcs p = .taken k ∨ s.pcs p = .finish k) ∧ pc = .idle) :
      Act nproc pid s ((s.setInner k none).setPc p pc)
  | sleep (p k : Nat) (runs : Runs nproc s p) (place : s.pcs p = .sleep k) :
      Act nproc pid s ((s.setProc p { s.procs p with state := .sleeping }).setPc p (.sched k))
  | again (p k : Nat) (runs : Runs nproc s p) (place : s.pcs p = .sleep k ∨ s.pcs p = .sched k) :
      Act nproc pid s (s.setPc p (.acquire k))
  | clear (p k : Nat) (runs : Runs nproc s p) (place : s.pcs p = .clear k) :
      Act nproc pid s
        (((s.setLock k { s.locks k with locked := false, pid := 0 }).setHolds p k false).setPc p (.wakeup k 0))
  | visit (p k visited : Nat) (runs : Runs nproc s p) (place : s.pcs p = .wakeup k visited) (inside : visited < nproc) :
      Act nproc pid s
        ((s.setProc visited ((s.procs visited).wakeup (.sleeplock k))).setPc p (.wakeup k (visited + 1)))
  | woken (p k visited : Nat) (runs : Runs nproc s p) (place : s.pcs p = .wakeup k visited) (all : nproc ≤ visited) :
      Act nproc pid s (s.setPc p (.finish k))
  | wait (p c : Nat) (runs : Runs nproc s p) (place : s.pcs p = .idle) :
      Act nproc pid s ((s.setProc p ((s.procs p).sleepPrepare (.other c))).setPc p .waits)
  | waitSleep (p : Nat) (runs : Runs nproc s p) (place : s.pcs p = .waits) :
      Act nproc pid s ((s.setProc p { s.procs p with state := .sleeping }).setPc p .waitSched)
  | waited (p : Nat) (runs : Runs nproc s p) (place : s.pcs p = .waits ∨ s.pcs p = .waitSched) :
      Act nproc pid s (s.setPc p .idle)
  | proc (target : Nat) (proc : Proc Chan) (chan : proc.chan = (s.procs target).chan ∨ proc.chan = none)
      (awake : proc.state = .sleeping → (s.procs target).state = .sleeping) :
      Act nproc pid s (s.setProc target proc)

variable {nproc : Nat} {pid : Nat → Nat} {s next : State}

theorem run_act {p : Nat} (runs : Runs nproc s p) (ran : run nproc pid s p = some next) : Act nproc pid s next := by
  unfold run at ran
  split at ran
  case h_1 => cases ran
  case h_2 k place =>
    obtain ⟨free, rfl⟩ := by simpa using ran
    exact .acquire p k (.test k) runs free (.inl ⟨place, rfl⟩)
  case h_3 k place =>
    split at ran
    · rename_i locked
      cases ran
      exact .busy p k runs place locked
    · rename_i free
      cases ran
      exact .take p k runs place (by simpa using free)
  case h_4 k place =>
    cases ran
    exact .prepare p k runs place
  case h_5 k place =>
    cases ran
    exact .release p k (.sleep k) runs (.inl ⟨place, rfl⟩)
  case h_6 k place =>
    split at ran
    · rename_i registered
      cases ran
      rw [Proc.sleep, if_pos registered]
      exact .sleep p k runs place
    · cases ran
      exact .again p k runs (.inl place)
  case h_7 k place =>
    cases ran
    exact .again p k runs (.inr place)
  case h_8 k place =>
    cases ran
    exact .release p k .idle runs (.inr ⟨.inl place, rfl⟩)
  case h_9 k place =>
    obtain ⟨free, rfl⟩ := by simpa using ran
    exact .acquire p k (.clear k) runs free (.inr ⟨place, rfl⟩)
  case h_10 k place =>
    cases ran
    exact .clear p k runs place
  case h_11 k visited place =>
    split at ran
    · rename_i inside
      cases ran
      exact .visit p k visited runs place inside
    · rename_i all
      cases ran
      exact .woken p k visited runs place (Nat.le_of_not_lt all)
  case h_12 k place =>
    cases ran
    exact .release p k .idle runs (.inr ⟨.inr place, rfl⟩)
  case h_13 place =>
    split at ran
    · rename_i registered
      cases ran
      rw [Proc.sleep, if_pos registered]
      exact .waitSleep p runs place
    · cases ran
      exact .waited p runs (.inl place)
  case h_14 place =>
    cases ran
    exact .waited p runs (.inr place)

theorem step_act {label : Label} (stepped : step nproc pid s label = some next) : Act nproc pid s next := by
  cases label with
  | acquiresleep p k =>
    obtain ⟨⟨inside, running, place⟩, rfl⟩ := by simpa [step] using stepped
    exact .call p (.acquire k) ⟨inside, running⟩ place (.inl ⟨k, rfl⟩)
  | releasesleep p k =>
    obtain ⟨⟨inside, running, place, held⟩, rfl⟩ := by simpa [step] using stepped
    exact .call p (.giveUp k) ⟨inside, running⟩ place (.inr ⟨k, rfl, held⟩)
  | run p =>
    obtain ⟨may, stepped⟩ := Option.ite_none_right_eq_some.mp stepped
    exact run_act may stepped
  | kkill target =>
    cases stepped
    exact .proc target _ (.inl rfl) fun asleep => by simp [Proc.kkill] at asleep
  | schedule p | yield p =>
    obtain ⟨_, rfl⟩ := by simpa [step] using stepped
    exact .proc p _ (.inl rfl) nofun
  | wait p c =>
    obtain ⟨⟨inside, running, place⟩, rfl⟩ := by simpa [step] using stepped
    exact .wait p c ⟨inside, running⟩ place
  | wakeup c target =>
    cases stepped
    refine .proc target _ ?_ Proc.sleeping_of_wakeup
    unfold Proc.wakeup
    split
    · exact .inr rfl
    · exact .inl rfl

/-- The inner lock is held by the process in its critical section, and a sleep lock is locked
for the one process that holds it. -/
structure Locking (pid : Nat → Nat) (s : State) : Prop where
  inner : Guarded (fun k => (s.locks k).inner) fun p => (s.pcs p).inner
  owned : ∀ p k, s.holds p k = true → (s.locks k).locked = true ∧ (s.locks k).pid = pid p
  one : ∀ p q k, s.holds p k = true → s.holds q k = true → p = q
  gives : ∀ p k, (s.pcs p).gives = some k → s.holds p k = true

theorem boot_locking : Locking pid boot :=
  ⟨⟨fun _ _ => ⟨nofun, nofun⟩⟩, nofun, nofun, nofun⟩

section Locking

variable {p k : Nat} {pc : Pc} (locking : Locking pid s)
include locking

theorem Locking.move (inner : pc.inner = (s.pcs p).inner) (gives : ∀ k, pc.gives = some k → s.holds p k = true) :
    Locking pid (s.setPc p pc) := by
  refine ⟨locking.inner.keep (fun _ => rfl) fun q => ?_, locking.owned, locking.one, fun q k => ?_⟩
  · obtain rfl | same := eq_or_ne q p
    · simpa [setPc] using inner
    · simp [setPc, same]
  · obtain rfl | same := eq_or_ne q p
    · simpa [setPc] using gives k
    · simpa [setPc, same] using locking.gives q k

theorem Locking.setInner {inner : Option Nat}
    (guarded : Guarded (update (fun k => (s.locks k).inner) k inner) (update (fun p => (s.pcs p).inner) p pc.inner))
    (gives : ∀ k, pc.gives = some k → s.holds p k = true) : Locking pid ((s.setInner k inner).setPc p pc) := by
  refine ⟨?_, fun q l held => ?_, locking.one, fun q l => ?_⟩
  · have locks : (fun l => (update s.locks k { s.locks k with inner := inner } l).inner) =
        update (fun k => (s.locks k).inner) k inner := comp_update Sleeplock.inner s.locks k _
    have places : (fun q => (update s.pcs p pc q).inner) = update (fun p => (s.pcs p).inner) p pc.inner :=
      comp_update Pc.inner s.pcs p pc
    simp only [setPc, State.setInner, setLock]
    rw [locks, places]
    exact guarded
  · have owned := locking.owned q l held
    obtain rfl | same := eq_or_ne l k
    · simpa [setPc, State.setInner, setLock] using owned
    · simpa [setPc, State.setInner, setLock, same] using owned
  · obtain rfl | same := eq_or_ne q p
    · simpa [setPc, State.setInner, setLock] using gives l
    · simpa [setPc, State.setInner, setLock, same] using locking.gives q l

theorem Locking.setLocked {locked : Bool} {owner : Nat} (inner : pc.inner = (s.pcs p).inner) (gives : pc.gives = none)
    (others : ∀ q, q ≠ p → s.holds q k = false) (owned : locked = true → owner = pid p) :
    Locking pid (((s.setLock k { s.locks k with locked := locked, pid := owner }).setHolds p k locked).setPc p pc) := by
  have holds : ∀ q l, (s.setHolds p k locked).holds q l = true →
      l = k ∧ q = p ∧ locked = true ∨ l ≠ k ∧ s.holds q l = true := by
    intro q l held
    rw [setHolds_apply] at held
    obtain rfl | this := eq_or_ne l k
    · by_cases same : q = p
      · rw [if_pos ⟨same, rfl⟩] at held
        exact .inl ⟨rfl, same, held⟩
      · rw [if_neg (fun both => same both.1), others q same] at held
        cases held
    · rw [if_neg (fun both => this both.2)] at held
      exact .inr ⟨this, held⟩
  refine ⟨(locking.move inner fun l same => absurd (gives.symm.trans same) nofun).inner.keep (fun l => ?_) fun _ => rfl,
    fun q l held => ?_, fun q r l first second => ?_, fun q l here => ?_⟩
  · by_cases this : l = k
    all_goals simp [setPc, setHolds, setLock, this]
  · rcases holds q l held with ⟨rfl, rfl, now⟩ | ⟨other, before⟩
    · simpa [setPc, setHolds, setLock, now] using owned now
    · simpa [setPc, setHolds, setLock, other] using locking.owned q l before
  · rcases holds q l first with ⟨rfl, mine, _⟩ | ⟨other, before⟩
    · rcases holds r l second with ⟨_, also, _⟩ | ⟨other, _⟩
      · rw [mine, also]
      · exact absurd rfl other
    · rcases holds r l second with ⟨this, _, _⟩ | ⟨_, also⟩
      · exact absurd this other
      · exact locking.one q r l before also
  · obtain rfl | same := eq_or_ne q p
    · simp [setPc, setHolds, setLock, gives] at here
    · have before : s.holds q l = true := locking.gives q l (by simpa [setPc, setHolds, setLock, same] using here)
      exact (setHolds_apply s p k locked q l).trans (by rw [if_neg fun both => same both.1, before])

theorem Locking.act (act : Act nproc pid s next) : Locking pid next := by
  cases act with
  | call p pc runs place start =>
    refine locking.move ?_ fun k gives => ?_
    · rw [place]
      rcases start with ⟨k, rfl⟩ | ⟨k, rfl, _⟩
      · rfl
      · rfl
    rcases start with ⟨l, rfl⟩ | ⟨l, rfl, held⟩
    · cases gives
    · cases gives
      exact held
  | acquire p k pc runs free place =>
    rcases place with ⟨place, rfl⟩ | ⟨place, rfl⟩
    · exact locking.setInner (locking.inner.take free (place ▸ rfl) rfl rfl) nofun
    · refine locking.setInner (locking.inner.take free (place ▸ rfl) rfl rfl) fun l gives => ?_
      exact locking.gives p l (by rw [place]; exact gives)
  | busy _ _ _ place _ | woken _ _ _ _ place _ => exact locking.move (place ▸ rfl) nofun
  | take p k runs place free =>
    refine locking.setLocked (place ▸ rfl) rfl (fun q _ => ?_) fun _ => rfl
    by_contra held
    rw [Bool.not_eq_false] at held
    rw [(locking.owned q k held).1] at free
    cases free
  | prepare p k runs place =>
    have moved : Locking pid (s.setPc p (.release k)) := locking.move (place ▸ rfl) nofun
    exact ⟨moved.inner, moved.owned, moved.one, moved.gives⟩
  | release p k pc runs place =>
    have inside : (s.pcs p).inner = some k := by
      rcases place with ⟨place, _⟩ | ⟨place | place, _⟩
      all_goals rw [place]; rfl
    rcases place with ⟨_, rfl⟩ | ⟨_, rfl⟩
    all_goals exact locking.setInner (locking.inner.drop inside rfl rfl) nofun
  | sleep p k runs place =>
    have moved : Locking pid (s.setPc p (.sched k)) := locking.move (place ▸ rfl) nofun
    exact ⟨moved.inner, moved.owned, moved.one, moved.gives⟩
  | again _ _ _ place | waited _ _ place =>
    refine locking.move ?_ nofun
    rcases place with place | place
    · rw [place]; rfl
    · rw [place]; rfl
  | clear p k runs place =>
    refine locking.setLocked (place ▸ rfl) rfl (fun q other => ?_) nofun
    have mine := locking.gives p k (place ▸ rfl)
    by_contra held
    rw [Bool.not_eq_false] at held
    exact other (locking.one q p k held mine)
  | visit p k visited runs place inside =>
    have moved : Locking pid (s.setPc p (.wakeup k (visited + 1))) := locking.move (place ▸ rfl) nofun
    exact ⟨moved.inner, moved.owned, moved.one, moved.gives⟩
  | wait p c runs place =>
    have moved : Locking pid (s.setPc p .waits) := locking.move (place ▸ rfl) nofun
    exact ⟨moved.inner, moved.owned, moved.one, moved.gives⟩
  | waitSleep p runs place =>
    have moved : Locking pid (s.setPc p .waitSched) := locking.move (place ▸ rfl) nofun
    exact ⟨moved.inner, moved.owned, moved.one, moved.gives⟩
  | proc target proc chan awake => exact ⟨locking.inner, locking.owned, locking.one, locking.gives⟩

end Locking

def Pending (s : State) (k p : Nat) : Prop :=
  (s.locks k).locked = true ∨ ∃ q visited, s.pcs q = .wakeup k visited ∧ visited ≤ p

structure Waits (s : State) (p : Nat) (pc : Pc) (proc : Proc Chan) : Prop where
  busy : ∀ k, pc = .prepare k → (s.locks k).locked = true
  registered : ∀ k, pc.registered = some k → proc.chan = none ∨ proc.chan = some (.sleeplock k) ∧ Pending s k p
  others : ∀ k, pc = .waits ∨ pc = .waitSched → proc.chan ≠ some (.sleeplock k)
  asleep : proc.state = .sleeping → (∃ k, pc = .sched k) ∨ pc = .waitSched

structure Waiting (nproc : Nat) (s : State) : Prop where
  outside : ∀ p, nproc ≤ p → s.pcs p = .idle
  each : ∀ p, Waits s p (s.pcs p) (s.procs p)

theorem boot_waiting : Waiting nproc boot :=
  ⟨fun _ _ => rfl, fun _ => ⟨nofun, nofun, nofun, nofun⟩⟩

variable {p k : Nat} {pc : Pc} {proc : Proc Chan}

theorem Waits.mono (waits : Waits s p pc proc)
    (locked : ∀ k, pc = .prepare k → (s.locks k).locked = true → (next.locks k).locked = true)
    (pending : ∀ k, pc.registered = some k → proc.chan = some (.sleeplock k) → Pending s k p → Pending next k p) :
    Waits next p pc proc := by
  refine ⟨fun k here => locked k here (waits.busy k here), fun k here => ?_, waits.others, waits.asleep⟩
  rcases waits.registered k here with none | ⟨some, before⟩
  · exact .inl none
  · exact .inr ⟨some, pending k here some before⟩

theorem Waits.awake (running : proc.state = .running) (awake : pc.drowsy = false) : Waits s p pc proc := by
  refine ⟨fun k here => ?_, fun k here => ?_, fun k here => ?_, fun asleep => ?_⟩
  · rw [here] at awake
    cases awake
  · have none : pc.registered = none := by
      revert awake
      cases pc <;> simp [Pc.drowsy, Pc.registered]
    rw [none] at here
    cases here
  · rcases here with here | here
    all_goals
      rw [here] at awake
      cases awake
  · rw [running] at asleep
    cases asleep

theorem Pending.move (pending : Pending s k p) {q : Nat} (place : (s.pcs q).wakes = false)
    (locked : (s.locks k).locked = true → (next.locks k).locked = true) (pcs : next.pcs = update s.pcs q pc) :
    Pending next k p := by
  rcases pending with is | ⟨r, visited, here, before⟩
  · exact .inl (locked is)
  refine .inr ⟨r, visited, ?_, before⟩
  have other : r ≠ q := by
    rintro rfl
    rw [here] at place
    cases place
  rw [pcs, update_of_ne other, here]

section Waiting

variable (waiting : Waiting nproc s)
include waiting

theorem Waiting.change (runs : Runs nproc s p) (pcs : next.pcs = update s.pcs p pc)
    (others : ∀ q, q ≠ p → Waits next q (s.pcs q) (next.procs q)) (own : Waits next p pc (next.procs p)) :
    Waiting nproc next := by
  refine ⟨fun q out => ?_, fun q => ?_⟩
  · have other : q ≠ p := by
      rintro rfl
      have inside := runs.1
      omega
    rw [pcs, update_of_ne other]
    exact waiting.outside q out
  obtain rfl | same := eq_or_ne q p
  · rwa [pcs, update_self]
  · rw [pcs, update_of_ne same]
    exact others q same

theorem Waiting.move (runs : Runs nproc s p) (place : (s.pcs p).wakes = false)
    (locked : ∀ k, (s.locks k).locked = true → (next.locks k).locked = true) (pcs : next.pcs = update s.pcs p pc)
    (procs : next.procs = update s.procs p proc) (own : Waits next p pc proc) : Waiting nproc next := by
  refine waiting.change runs pcs (fun q other => ?_) ?_
  · rw [procs, update_of_ne other]
    exact (waiting.each q).mono (fun k _ => locked k) fun k _ _ pending => pending.move place (locked k) pcs
  · rwa [procs, update_self]

theorem Waiting.stay (runs : Runs nproc s p) (place : (s.pcs p).wakes = false)
    (locked : ∀ k, (s.locks k).locked = true → (next.locks k).locked = true) (pcs : next.pcs = update s.pcs p pc)
    (procs : next.procs = s.procs) (awake : pc.drowsy = false) : Waiting nproc next :=
  waiting.move runs place locked pcs (procs.trans (update_eq_self p s.procs).symm) (Waits.awake runs.2 awake)

theorem Waiting.clear (locking : Locking pid s) (runs : Runs nproc s p) (place : s.pcs p = .clear k) :
    Waiting nproc
      (((s.setLock k { s.locks k with locked := false, pid := 0 }).setHolds p k false).setPc p (.wakeup k 0)) := by
  refine waiting.change runs rfl (fun q other => ?_) (Waits.awake runs.2 rfl)
  refine (waiting.each q).mono (fun l here locked => ?_) fun l _ _ pending => ?_
  · have different : l ≠ k := by
      rintro rfl
      refine other (locking.inner.only (k := l) ?_ ?_)
      · change (s.pcs p).inner = some l
        rw [place]
        rfl
      · change (s.pcs q).inner = some l
        rw [here]
        rfl
    simpa [setPc, setHolds, setLock, different] using locked
  · obtain rfl | same := eq_or_ne l k
    · exact .inr ⟨p, 0, update_self .., Nat.zero_le q⟩
    · refine pending.move (place ▸ rfl) (fun locked => ?_) rfl
      simpa [setPc, setHolds, setLock, same] using locked

theorem Waiting.visit {visited : Nat} (runs : Runs nproc s p) (place : s.pcs p = .wakeup k visited) :
    Waiting nproc
      ((s.setProc visited ((s.procs visited).wakeup (.sleeplock k))).setPc p (.wakeup k (visited + 1))) := by
  have pending : ∀ q l, Pending s l q → ¬ (l = k ∧ q = visited) →
      Pending ((s.setProc visited ((s.procs visited).wakeup (.sleeplock k))).setPc p (.wakeup k (visited + 1))) l q := by
    rintro q l (locked | ⟨r, next, here, before⟩) still
    · exact .inl locked
    obtain rfl | same := eq_or_ne r p
    · rw [place] at here
      cases here
      have later : q ≠ visited := fun this => still ⟨rfl, this⟩
      exact .inr ⟨r, visited + 1, update_self .., by omega⟩
    · exact .inr ⟨r, next, (update_of_ne same ..).trans here, before⟩
  refine waiting.change runs rfl (fun q other => ?_) (Waits.awake ?_ rfl)
  · have waits := waiting.each q
    obtain rfl | same := eq_or_ne q visited
    · have procs : ∀ pc, ((s.setProc q ((s.procs q).wakeup (.sleeplock k))).setPc p pc).procs q =
          (s.procs q).wakeup (.sleeplock k) := fun _ => update_self ..
      rw [procs]
      refine ⟨waits.busy, fun l here => ?_, fun l here registered => ?_, fun asleep => ?_⟩
      · cases chan : ((s.procs q).wakeup (.sleeplock k)).chan with
        | none => exact .inl rfl
        | some c =>
          rcases waits.registered l here with none | ⟨some, before⟩
          · rw [Proc.chan_of_wakeup chan] at none
            cases none
          rw [Proc.chan_of_wakeup chan] at some
          cases some
          refine .inr ⟨rfl, pending q l before fun this => ?_⟩
          rw [this.1] at chan
          exact Proc.wakeup_chan_ne _ _ chan
      · exact waits.others l here (Proc.chan_of_wakeup registered)
      · exact waits.asleep (Proc.sleeping_of_wakeup asleep)
    · have procs : ∀ pc, ((s.setProc visited ((s.procs visited).wakeup (.sleeplock k))).setPc p pc).procs q =
          s.procs q := fun _ => update_of_ne same ..
      rw [procs]
      exact waits.mono (fun _ _ locked => locked) fun l _ _ before => pending q l before fun this => same this.2
  · obtain rfl | same := eq_or_ne p visited
    · simpa [setPc, setProc] using Proc.wakeup_running runs.2
    · simpa [setPc, setProc, same] using runs.2

theorem Waiting.woken {visited : Nat} (runs : Runs nproc s p) (place : s.pcs p = .wakeup k visited)
    (all : nproc ≤ visited) : Waiting nproc (s.setPc p (.finish k)) := by
  refine waiting.change runs rfl (fun q other => ?_) (Waits.awake runs.2 rfl)
  refine (waiting.each q).mono (fun _ _ locked => locked) ?_
  rintro l registered _ (locked | ⟨r, next, here, before⟩)
  · exact .inl locked
  obtain rfl | same := eq_or_ne r p
  · rw [place] at here
    cases here
    rw [waiting.outside q (Nat.le_trans all before)] at registered
    cases registered
  · exact .inr ⟨r, next, (update_of_ne same ..).trans here, before⟩

theorem Waiting.setProc {target : Nat} (chan : proc.chan = (s.procs target).chan ∨ proc.chan = none)
    (awake : proc.state = .sleeping → (s.procs target).state = .sleeping) : Waiting nproc (s.setProc target proc) := by
  refine ⟨waiting.outside, fun q => ?_⟩
  have waits := waiting.each q
  obtain rfl | same := eq_or_ne q target
  · have procs : (s.setProc q proc).procs q = proc := update_self ..
    rw [procs]
    rcases chan with kept | none
    · refine ⟨waits.busy, fun l here => ?_, fun l here => ?_, fun asleep => waits.asleep (awake asleep)⟩
      · rw [kept]
        exact waits.registered l here
      · rw [kept]
        exact waits.others l here
    · refine ⟨waits.busy, fun _ _ => .inl none, fun l _ => ?_, fun asleep => waits.asleep (awake asleep)⟩
      rw [none]
      nofun
  · have procs : (s.setProc target proc).procs q = s.procs q := update_of_ne same ..
    rw [procs]
    exact waits.mono (fun _ _ locked => locked) fun _ _ _ pending => pending

theorem Waiting.act (locking : Locking pid s) (act : Act nproc pid s next) : Waiting nproc next := by
  cases act with
  | call p pc runs place start =>
    rcases start with ⟨k, rfl⟩ | ⟨k, rfl, _⟩
    all_goals exact waiting.stay runs (place ▸ rfl) (fun _ is => is) rfl rfl rfl
  | acquire p k pc runs free place =>
    have kept : ∀ l, (s.locks l).locked = true → ((s.setInner k (some p)).locks l).locked = true := by
      intro l is
      rwa [setInner_locked]
    rcases place with ⟨place, rfl⟩ | ⟨place, rfl⟩
    all_goals exact waiting.stay runs (place ▸ rfl) kept rfl rfl rfl
  | busy p k runs place locked =>
    refine waiting.move runs (place ▸ rfl) (fun _ is => is) rfl (update_eq_self p s.procs).symm ⟨fun l here => ?_, nofun, nofun, ?_⟩
    · cases here
      exact locked
    · exact fun asleep => absurd (runs.2.symm.trans asleep) nofun
  | take p k runs place free =>
    refine waiting.stay runs (place ▸ rfl) (fun l is => ?_) rfl rfl rfl
    by_cases same : l = k
    · simp [setPc, setHolds, setLock, same]
    · simpa [setPc, setHolds, setLock, same] using is
  | prepare p k runs place =>
    refine waiting.move runs (place ▸ rfl) (fun _ is => is) rfl rfl ⟨nofun, fun l here => ?_, nofun, ?_⟩
    · cases here
      exact .inr ⟨rfl, .inl ((waiting.each p).busy k place)⟩
    · exact fun asleep => absurd (runs.2.symm.trans asleep) nofun
  | release p k pc runs place =>
    have kept : ∀ l, (s.locks l).locked = true → ((s.setInner k none).locks l).locked = true := by
      intro l is
      rwa [setInner_locked]
    rcases place with ⟨place, rfl⟩ | ⟨place | place, rfl⟩
    · refine waiting.move runs (place ▸ rfl) kept rfl (update_eq_self p s.procs).symm ⟨nofun, fun l here => ?_, nofun, ?_⟩
      · cases here
        rcases (waiting.each p).registered k (place ▸ rfl) with none | ⟨some, pending⟩
        · exact .inl none
        · exact .inr ⟨some, pending.move (place ▸ rfl) (kept k) rfl⟩
      · exact fun asleep => absurd (runs.2.symm.trans asleep) nofun
    · exact waiting.stay runs (place ▸ rfl) kept rfl rfl rfl
    · exact waiting.stay runs (place ▸ rfl) kept rfl rfl rfl
  | sleep p k runs place =>
    refine waiting.move runs (place ▸ rfl) (fun _ is => is) rfl rfl ⟨nofun, fun l here => ?_, nofun, ?_⟩
    · cases here
      rcases (waiting.each p).registered k (place ▸ rfl) with none | ⟨some, pending⟩
      · exact .inl none
      · exact .inr ⟨some, pending.move (place ▸ rfl) (fun is => is) rfl⟩
    · exact fun _ => .inl ⟨k, rfl⟩
  | again _ _ runs place | waited _ runs place =>
    rcases place with place | place
    all_goals exact waiting.stay runs (place ▸ rfl) (fun _ is => is) rfl rfl rfl
  | clear p k runs place => exact waiting.clear locking runs place
  | visit p k visited runs place inside => exact waiting.visit runs place
  | woken p k visited runs place all => exact waiting.woken runs place all
  | wait p c runs place =>
    refine waiting.move runs (place ▸ rfl) (fun _ is => is) rfl rfl ⟨nofun, nofun, fun l _ => nofun, ?_⟩
    exact fun asleep => absurd (runs.2.symm.trans asleep) nofun
  | waitSleep p runs place =>
    refine waiting.move runs (place ▸ rfl) (fun _ is => is) rfl rfl ⟨nofun, nofun, fun l _ => ?_, fun _ => .inr rfl⟩
    exact (waiting.each p).others l (.inl place)
  | proc target proc chan awake => exact waiting.setProc chan awake

end Waiting

/-- In every state that is reached: a sleep lock has at most one holder, whose pid it has, and
while the inner lock is free and the lock is not locked nobody is asleep on it. -/
theorem sleeplocks_exclude (reached : Reaches (step nproc pid) (fun _ _ => True) boot s) (k : Nat) :
    (∀ p q, s.holds p k = true → s.holds q k = true → p = q) ∧
    (∀ p, s.holds p k = true → (s.locks k).locked = true ∧ (s.locks k).pid = pid p) ∧
    ((s.locks k).inner = none → (s.locks k).locked = false →
      ∀ p, ¬ ((s.procs p).state = .sleeping ∧ (s.procs p).chan = some (.sleeplock k))) := by
  have both : Locking pid s ∧ Waiting nproc s := by
    refine reached.invariant (fun s => Locking pid s ∧ Waiting nproc s) ⟨boot_locking, boot_waiting⟩ ?_
    intro state label next holds _ stepped
    have act := step_act stepped
    exact ⟨holds.1.act act, holds.2.act holds.1 act⟩
  obtain ⟨locking, waiting⟩ := both
  refine ⟨fun p q => locking.one p q k, fun p => locking.owned p k, fun free unlocked p ⟨asleep, chan⟩ => ?_⟩
  rcases (waiting.each p).asleep asleep with ⟨l, place⟩ | place
  · rcases (waiting.each p).registered l (place ▸ rfl) with none | ⟨some, pending⟩
    · rw [none] at chan
      cases chan
    rw [some] at chan
    cases chan
    rcases pending with locked | ⟨q, visited, wakes, _⟩
    · rw [unlocked] at locked
      cases locked
    · refine locking.inner.none_inside free q ?_
      rw [wakes]
      rfl
  · exact (waiting.each p).others k (.inr place) chan

def contention : List Label :=
  [.schedule 0, .schedule 1, .acquiresleep 0 7, .run 0, .run 0, .run 0,
   .acquiresleep 1 7, .run 1, .run 1, .run 1, .run 1, .run 1, .kkill 1, .schedule 1,
   .releasesleep 0 7, .run 0, .run 0, .run 0, .run 0, .run 0, .run 0, .run 1, .run 1, .run 1, .run 1]

theorem sleeplocks_exclude_contention : ∃ s, Reaches (step 2 fun p => p + 1) (fun _ _ => True) boot s ∧
    s.holds 1 7 = true ∧ s.holds 0 7 = false ∧ (s.locks 7).pid = 2 := by
  obtain ⟨s, reached, seen⟩ := reaches_seen (show
    (runLabels (step 2 fun p => p + 1) boot contention).map
      (fun s => (s.holds 1 7, s.holds 0 7)) = some (true, false) by decide +kernel)
  obtain ⟨mine, theirs⟩ := Prod.mk.inj seen
  exact ⟨s, reached, mine, theirs, ((sleeplocks_exclude reached 7).2.1 1 mine).2⟩

end Xv6.Sleeplocks
