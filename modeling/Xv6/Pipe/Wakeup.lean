import Xv6.Pipe.Fifo

/-!
A process asleep on a pipe has a reason to be: a reader that the pipe is empty and may still
be written, a writer that it is full and may still be read. The reason may fail only while
the holder of `pi->lock` is bound to visit that process with a wakeup. The test of `killed`
in `pipewrite` drops the lock without the wakeup that the bytes stored under it owe to the
readers.
-/

namespace Xv6.Pipes

open World Pc

open Function (update update_of_ne update_self)
open Xv6.Lib Xv6.Procs

variable {world next : World} {pid nproc slot : Nat} {pc : Pc} {pipe : Pipe} {chan : Chan}

def Pc.holds : Pc → Bool
  | .loop _ | .copy _ | .wakeFull _ _ | .prepare _ | .release _ | .wake _ _ | .unlock _
  | .closeWake _ _ | .closeUnlock => true
  | .idle | .acquire _ | .sleep _ | .sched _ | .closeAcquire _ => false

def Pc.waits : Pc → Option Call
  | .release call | .sleep call | .sched call => some call
  | _ => none

/-- What a process sleeping on a channel of the pipe is waiting for has not happened. -/
def Pipe.Reason (pipe : Pipe) : Chan → Prop
  | .nread => pipe.empty = true ∧ pipe.writeopen = true
  | .nwrite => pipe.full = true ∧ pipe.readopen = true

/-- Before it drops the lock, the holder at this place visits `slot` with a wakeup. -/
def Pc.WillWake (chan : Chan) (slot : Nat) : Pc → Prop
  | .loop call | .copy call => call.op.peer = chan ∧ 0 < call.fresh
  | .wakeFull call visited | .wake call visited => call.op.peer = chan ∧ visited ≤ slot
  | .closeWake writable visited => closeChan writable = chan ∧ visited ≤ slot
  | _ => False

def Pc.Shape (pipe : Pipe) : Pc → Prop
  | .loop call => 0 < call.fresh → call.op = .write ∧ pipe.readopen = true
  | .copy call => call.op = .read
  | .wakeFull call _ => call.op = .write ∧ pipe.Reason .nwrite
  | .prepare call | .release call => pipe.Reason call.op.chan
  | _ => True

structure Locked (world : World) : Prop where
  owner : ∀ pid, (world.pcs pid).holds = true ↔ world.lock = some pid

theorem Locked.keep (locked : Locked world) (pcs : next.pcs = update world.pcs pid pc) (lock : next.lock = world.lock)
    (same : pc.holds = (world.pcs pid).holds) : Locked next := by
  refine ⟨fun other => ?_⟩
  rw [pcs, lock]
  by_cases here : other = pid
  · subst other
    simpa [same] using locked.owner pid
  · simpa [here] using locked.owner other

theorem Locked.take (locked : Locked world) (free : world.lock = none) (pcs : next.pcs = update world.pcs pid pc)
    (lock : next.lock = some pid) (holds : pc.holds = true) : Locked next := by
  refine ⟨fun other => ?_⟩
  rw [pcs, lock]
  by_cases here : other = pid
  · subst other
    simpa using holds
  · have idle := locked.owner other
    rw [free] at idle
    simpa [here, Ne.symm here] using idle

theorem Locked.drop (locked : Locked world) (held : (world.pcs pid).holds = true)
    (pcs : next.pcs = update world.pcs pid pc) (lock : next.lock = none) (released : pc.holds = false) :
    Locked next := by
  refine ⟨fun other => ?_⟩
  rw [pcs, lock]
  by_cases here : other = pid
  · subst other
    simpa using released
  have owner := (locked.owner pid).mp held
  have idle := locked.owner other
  rw [owner] at idle
  simpa [here, Ne.symm here] using idle

theorem Locked.action (locked : Locked world) (act : Action nproc world pid next) : Locked next := by
  cases act with
  | acquire _ free | close _ free => exact locked.take free rfl rfl rfl
  | refuse place | giveUp place | release place | unlock place | closed place =>
    exact locked.drop (place ▸ rfl) rfl rfl rfl
  | blockFull place | faultIn place | put place | written place | blockEmpty place | ready place
  | drained place | faultOut place | get place | filled place | visitFull place | wokenFull place
  | prepare place | fallAsleep place | stayAwake place | resume place | visit place | woken place
  | visitClose place | wokenClose place => exact locked.keep rfl rfl (place ▸ rfl)

theorem Locked.only (locked : Locked world) {other : Nat} (held : (world.pcs pid).holds = true)
    (different : other ≠ pid) : (world.pcs other).holds = false := by
  have owner := (locked.owner pid).mp held
  have elsewhere := locked.owner other
  rw [owner] at elsewhere
  simpa [Ne.symm different] using elsewhere

theorem Locked.none_holds (locked : Locked world) (free : world.lock = none) (pid : Nat) :
    (world.pcs pid).holds = false := by
  have owner := locked.owner pid
  rw [free] at owner
  simpa using owner

theorem Pc.shape_of_not_holds (outside : pc.holds = false) : pc.Shape pipe := by
  cases pc <;> simp_all [Pc.holds, Shape]

theorem shape_update (shape : ∀ other, (world.pcs other).Shape world.pipe) (pcs : next.pcs = update world.pcs pid pc)
    (pipe : next.pipe = world.pipe) (here : pc.Shape world.pipe) : ∀ other, (next.pcs other).Shape next.pipe := by
  intro other
  rw [pcs, pipe]
  by_cases same : other = pid
  · subst other
    simpa using here
  · simpa [same] using shape other

theorem shape_change (others : ∀ other, other ≠ pid → (world.pcs other).holds = false)
    (pcs : next.pcs = update world.pcs pid pc) (here : pc.Shape next.pipe) :
    ∀ other, (next.pcs other).Shape next.pipe := by
  intro other
  rw [pcs]
  by_cases same : other = pid
  · subst other
    simpa using here
  · simpa [same] using shape_of_not_holds (others other same)

theorem shape_action (locked : Locked world) (shape : ∀ other, (world.pcs other).Shape world.pipe)
    (act : Action nproc world pid next) : ∀ other, (next.pcs other).Shape next.pipe := by
  have here := shape pid
  cases act with
  | acquire place free => exact shape_update shape rfl rfl (by simp [Shape])
  | put place writing _ readopen =>
    exact shape_change (fun _ => locked.only (place ▸ rfl)) rfl
      fun _ => ⟨writing, readopen⟩
  | get place =>
    rw [place] at here
    exact shape_change (fun _ => locked.only (place ▸ rfl)) rfl here
  | close place free =>
    exact shape_change (fun other _ => locked.none_holds free other) rfl trivial
  | blockFull place writing _ readopen full =>
    exact shape_update shape rfl rfl ⟨writing, full, readopen⟩
  | blockEmpty place reading empty writeopen =>
    exact shape_update shape rfl rfl (by simp [Shape, Op.chan, Pipe.Reason, *])
  | ready place reading => exact shape_update shape rfl rfl reading
  | visitFull place | prepare place =>
    rw [place] at here
    exact shape_update shape rfl rfl here
  | wokenFull place =>
    rw [place] at here
    exact shape_update shape rfl rfl (by simpa [Shape, here.1, Op.chan] using here.2)
  | _ => exact shape_update shape rfl rfl trivial

def Owed (world : World) (chan : Chan) (slot : Nat) : Prop :=
  ∃ holder, world.lock = some holder ∧ (world.pcs holder).WillWake chan slot

structure Justified (nproc : Nat) (world : World) : Prop where
  locked : Locked world
  shape : ∀ pid, (world.pcs pid).Shape world.pipe
  bound : ∀ pid, world.pcs pid ≠ .idle → pid < nproc
  registered : ∀ pid call, (world.pcs pid).waits = some call →
    (world.procs pid).chan = none ∨ (world.procs pid).chan = some call.op.chan
  asleep : ∀ pid, (world.procs pid).state = .sleeping →
    ∃ call, world.pcs pid = .sched call ∧ (world.procs pid).chan = some call.op.chan
  reasoned : ∀ pid call, (world.pcs pid).waits = some call →
    (world.procs pid).chan = some call.op.chan →
    world.pipe.Reason call.op.chan ∨ Owed world call.op.chan pid

theorem Owed.holder (locked : Locked world) (pid : Nat) (held : (world.pcs pid).holds = true)
    (owed : Owed world chan slot) : (world.pcs pid).WillWake chan slot := by
  obtain ⟨holder, lock, wakes⟩ := owed
  have owner := (locked.owner pid).mp held
  have same : holder = pid := by simpa [lock] using owner
  exact same ▸ wakes

theorem Owed.not_free (owed : Owed world chan slot) : world.lock ≠ none := by
  obtain ⟨holder, lock, -⟩ := owed
  simp [lock]

theorem Owed.elsewhere (locked : Locked world) (outside : (world.pcs pid).holds = false)
    (pcs : next.pcs = update world.pcs pid pc) (lock : next.lock = world.lock) (owed : Owed world chan slot) :
    Owed next chan slot := by
  obtain ⟨holder, owner, wakes⟩ := owed
  have held := (locked.owner holder).mpr owner
  have different : holder ≠ pid := by
    rintro rfl
    simp [held] at outside
  exact ⟨holder, lock.trans owner, by rw [pcs]; simpa [different] using wakes⟩

theorem Owed.here {pcs : Nat → Pc} (update : next.pcs = update pcs pid pc) (lock : next.lock = some pid)
    (wakes : pc.WillWake chan slot) : Owed next chan slot :=
  ⟨pid, lock, by rw [update]; simpa using wakes⟩

/-- Whoever waits on its channel has a reason to, or is owed a wakeup. -/
abbrev Reasoned (world : World) : Prop :=
  ∀ other call, (world.pcs other).waits = some call → (world.procs other).chan = some call.op.chan →
    world.pipe.Reason call.op.chan ∨ Owed world call.op.chan other

theorem reasoned_step (justified : Justified nproc world) (pcs : next.pcs = update world.pcs pid pc)
    (chans : ∀ other chan, other ≠ pid → (next.procs other).chan = some chan → (world.procs other).chan = some chan)
    (reasons : ∀ other chan, world.pipe.Reason chan → next.pipe.Reason chan ∨ Owed next chan other)
    (debts : ∀ other chan, other ≠ pid → other < nproc → (next.procs other).chan = some chan → Owed world chan other → Owed next chan other)
    (self : ∀ call, pc.waits = some call → (next.procs pid).chan = some call.op.chan → next.pipe.Reason call.op.chan ∨ Owed next call.op.chan pid) : Reasoned next := by
  intro other call waiting onChan
  rw [pcs] at waiting
  by_cases same : other = pid
  · subst other
    exact self call (by simpa using waiting) onChan
  simp only [ne_eq, same, not_false_eq_true, update_of_ne] at waiting
  have busy : world.pcs other ≠ .idle := by
    intro idle
    simp [idle, waits] at waiting
  rcases justified.reasoned other call waiting (chans other _ same onChan) with reason | owed
  · exact reasons other _ reason
  · exact .inr (debts other _ same (justified.bound other busy) onChan owed)

/-- The next action takes the `killed` exit of `pipewrite` although the call has stored
bytes since it last acquired the lock. -/
def losesWakeup (world : World) : Label → Bool
  | .exec pid =>
    match world.pcs pid with
    | .loop call => call.op == .write && decide (call.i < call.n) &&
        (world.procs pid).killed && decide (0 < call.fresh)
    | _ => false
  | _ => false

theorem Pipe.reason_put (room : pipe.full = false) (reason : pipe.Reason chan) : chan = .nread := by
  cases chan with
  | nread => rfl
  | nwrite => simp [Pipe.Reason, room] at reason

theorem Pipe.reason_get (some : pipe.empty = false) (reason : pipe.Reason chan) : chan = .nwrite := by
  cases chan with
  | nread => simp [Pipe.Reason, some] at reason
  | nwrite => rfl

theorem Pipe.reason_close {writable : Bool} (other : closeChan writable ≠ chan) (reason : pipe.Reason chan) :
    (pipe.close writable).Reason chan := by
  cases chan <;> cases writable
  · exact reason
  · simp [closeChan] at other
  · simp [closeChan] at other
  · exact reason

theorem visit_chan {other : Nat} {on : Chan} (registered : ((world.visit chan slot).procs other).chan = some on) :
    (world.procs other).chan = some on ∧ (other = slot → on ≠ chan) := by
  unfold World.visit setProc at registered
  by_cases same : other = slot
  · subst other
    simp only [update_self] at registered
    refine ⟨Proc.chan_of_wakeup registered, fun _ equal => ?_⟩
    exact Proc.wakeup_chan_ne chan _ (equal ▸ registered)
  · simp only [ne_eq, same, not_false_eq_true, update_of_ne] at registered
    exact ⟨registered, fun equal => (same equal).elim⟩

theorem reasoned_hold (justified : Justified nproc world) (held : (world.pcs pid).holds = true)
    (pcs : next.pcs = update world.pcs pid pc) (lock : next.lock = world.lock) (pipe : next.pipe = world.pipe)
    (chans : ∀ other chan, other ≠ pid → (next.procs other).chan = some chan → (world.procs other).chan = some chan)
    (quiet : pc.waits = none)
    (hands : ∀ other chan, other < nproc → (next.procs other).chan = some chan → (world.pcs pid).WillWake chan other → pc.WillWake chan other) : Reasoned next := by
  have owner := (justified.locked.owner pid).mp held
  refine reasoned_step justified pcs chans (fun _ _ reason => .inl (pipe ▸ reason))
    (fun other chan _ bound on owed => ?_) (by simp [quiet])
  exact .here pcs (lock.trans owner)
    (hands other chan bound on (owed.holder justified.locked pid held))

theorem reasoned_drop (justified : Justified nproc world) (held : (world.pcs pid).holds = true)
    (pcs : next.pcs = update world.pcs pid pc) (pipe : next.pipe = world.pipe) (procs : next.procs = world.procs)
    (nothing : ∀ other chan, ¬ (world.pcs pid).WillWake chan other)
    (self : ∀ call, pc.waits = some call → world.pipe.Reason call.op.chan) : Reasoned next := by
  refine reasoned_step justified pcs (fun _ _ _ on => procs ▸ on)
    (fun _ _ reason => .inl (pipe ▸ reason)) (fun other chan _ _ _ owed => ?_)
    (fun call waiting _ => .inl (pipe ▸ self call waiting))
  exact (nothing other chan (owed.holder justified.locked pid held)).elim

theorem reasoned_outside (justified : Justified nproc world) (outside : (world.pcs pid).holds = false)
    (pcs : next.pcs = update world.pcs pid pc) (lock : next.lock = world.lock) (pipe : next.pipe = world.pipe)
    (chans : ∀ other, (next.procs other).chan = (world.procs other).chan)
    (self : ∀ call, pc.waits = some call → (world.pcs pid).waits = some call) : Reasoned next := by
  have kept : ∀ chan slot, Owed world chan slot → Owed next chan slot :=
    fun _ _ owed => owed.elsewhere justified.locked outside pcs lock
  refine reasoned_step justified pcs (fun other _ _ on => (chans other) ▸ on)
    (fun _ _ reason => .inl (pipe ▸ reason)) (fun _ _ _ _ _ owed => kept _ _ owed)
    (fun call waiting on => ?_)
  rw [chans pid] at on
  rcases justified.reasoned pid call (self call waiting) on with reason | owed
  · exact .inl (pipe ▸ reason)
  · exact .inr (kept _ _ owed)

theorem setProc_chan {proc : Proc Chan} (same : proc.chan = (world.procs pid).chan) (other : Nat) :
    ((world.setProc pid proc).procs other).chan = (world.procs other).chan := by
  unfold setProc
  by_cases here : other = pid
  · subst other
    simpa using same
  · simp [here]

theorem reasoned_action (justified : Justified nproc world) (act : Action nproc world pid next)
    (announced : losesWakeup world (.exec pid) = false) : Reasoned next := by
  have locked := justified.locked
  have here := justified.shape pid
  cases act with
  | acquire place free =>
    exact reasoned_step justified rfl (fun _ _ _ on => on) (fun _ _ reason => .inl reason)
      (fun _ _ _ _ _ owed => (owed.not_free free).elim) (by simp [waits])
  | refuse place writing more refused =>
    rw [place] at here
    refine reasoned_drop justified (place ▸ rfl) rfl rfl rfl (fun other chan => ?_)
      (by simp [waits])
    rw [place]
    intro wakes
    rcases refused with closed | killed
    · simp [(here wakes.2).2] at closed
    · simp [losesWakeup, place, writing, more, killed, wakes.2] at announced
  | giveUp place reading =>
    rw [place] at here
    refine reasoned_drop justified (place ▸ rfl) rfl rfl rfl (fun other chan => ?_)
      (by simp [waits])
    rw [place]
    intro wakes
    simp [(here wakes.2).1] at reading
  | unlock place | closed place =>
    exact reasoned_drop justified (place ▸ rfl) rfl rfl rfl (by simp [place, WillWake])
      (by simp [waits])
  | release place =>
    rw [place] at here
    refine reasoned_drop justified (place ▸ rfl) rfl rfl rfl
      (by simp [place, WillWake]) (fun call waiting => ?_)
    cases waiting
    exact here
  | put place writing _ _ room =>
    have lock := (locked.owner pid).mp (place ▸ rfl)
    refine reasoned_step justified rfl (fun _ _ _ on => on) (fun other chan reason => ?_)
      (fun other chan _ _ _ owed => ?_) (by simp [waits])
    · have reader := Pipe.reason_put room reason
      exact .inr (.here rfl lock
        ⟨by simp [Call.move, writing, reader, Op.peer], by simp [Call.move]⟩)
    · have wakes := owed.holder locked pid (place ▸ rfl)
      rw [place] at wakes
      exact .here rfl lock ⟨wakes.1, Nat.succ_pos _⟩
  | get place _ some =>
    have lock := (locked.owner pid).mp (place ▸ rfl)
    rw [place] at here
    refine reasoned_step justified rfl (fun _ _ _ on => on) (fun other chan reason => ?_)
      (fun other chan _ _ _ owed => ?_) (by simp [waits])
    · have writer := Pipe.reason_get some reason
      have reading : _ = Op.read := here
      exact .inr (.here rfl lock
        ⟨by simp [Call.move, reading, writer, Op.peer], by simp [Call.move]⟩)
    · have wakes := owed.holder locked pid (place ▸ rfl)
      rw [place] at wakes
      exact .here rfl lock ⟨wakes.1, Nat.succ_pos _⟩
  | blockFull place | faultIn place | written place | drained place | faultOut place
  | filled place =>
    refine reasoned_hold justified (place ▸ rfl) rfl rfl rfl (fun _ _ _ on => on) rfl
      (fun other chan _ _ wakes => ?_)
    rw [place] at wakes
    exact ⟨wakes.1, Nat.zero_le _⟩
  | blockEmpty place reading =>
    rw [place] at here
    refine reasoned_hold justified (place ▸ rfl) rfl rfl rfl (fun _ _ _ on => on) rfl
      (fun other chan _ _ wakes => ?_)
    rw [place] at wakes
    simp [(here wakes.2).1] at reading
  | ready place reading =>
    refine reasoned_hold justified (place ▸ rfl) rfl rfl rfl (fun _ _ _ on => on) rfl
      (fun other chan _ _ wakes => ?_)
    rw [place] at wakes
    exact wakes
  | visitFull place | visit place | visitClose place =>
    refine reasoned_hold justified (place ▸ rfl) rfl rfl rfl
      (fun _ _ _ on => (visit_chan on).1) rfl (fun other chan _ on wakes => ?_)
    rw [place] at wakes
    have missed : other ≠ _ := fun same => (visit_chan on).2 same wakes.1.symm
    exact ⟨wakes.1, Nat.lt_of_le_of_ne wakes.2 (Ne.symm missed)⟩
  | wokenFull place done | woken place done | wokenClose place done =>
    refine reasoned_hold justified (place ▸ rfl) rfl rfl rfl (fun _ _ _ on => on) rfl
      (fun other chan bound _ wakes => ?_)
    rw [place] at wakes
    have late := wakes.2
    omega
  | prepare place =>
    rw [place] at here
    refine reasoned_step justified rfl (fun other chan different on => ?_)
      (fun _ _ reason => .inl reason) (fun other chan _ _ _ owed => ?_)
      (fun call waiting _ => ?_)
    · simpa [goto, setProc, different] using on
    · have wakes := owed.holder locked pid (place ▸ rfl)
      rw [place] at wakes
      exact wakes.elim
    · cases waiting
      exact .inl here
  | fallAsleep place on =>
    exact reasoned_outside justified (place ▸ rfl) rfl rfl rfl
      (setProc_chan rfl) (by simp [place, waits])
  | stayAwake place =>
    exact reasoned_outside justified (place ▸ rfl) rfl rfl rfl (fun _ => rfl)
      (by simp [waits])
  | resume place =>
    exact reasoned_outside justified (place ▸ rfl) rfl rfl rfl
      (setProc_chan rfl) (by simp [waits])
  | close place free =>
    refine reasoned_step justified rfl (fun _ _ _ on => on) (fun other chan reason => ?_)
      (fun _ _ _ _ _ owed => (owed.not_free free).elim) (by simp [waits])
    rename_i writable _
    by_cases woken : closeChan writable = chan
    · exact .inr (.here rfl rfl ⟨woken, Nat.zero_le _⟩)
    · exact .inl (Pipe.reason_close woken reason)

theorem bound_action (bound : ∀ other, world.pcs other ≠ .idle → other < nproc) (act : Action nproc world pid next) :
    ∀ other, next.pcs other ≠ .idle → other < nproc := by
  have moved : ∃ pc, next.pcs = update world.pcs pid pc ∧ world.pcs pid ≠ .idle := by
    cases act <;> exact ⟨_, rfl, by simp [*]⟩
  obtain ⟨pc, pcs, busy⟩ := moved
  intro other active
  rw [pcs] at active
  by_cases here : other = pid
  · exact here ▸ bound pid busy
  · exact bound other (by simpa [here] using active)

structure Calmed (world next : World) (pid : Nat) : Prop where
  chan : ∀ other, other ≠ pid → (next.procs other).chan = (world.procs other).chan ∨
    (next.procs other).chan = none ∧ (next.procs other).state ≠ .sleeping
  state : ∀ other, other ≠ pid → (next.procs other).state = .sleeping →
    (world.procs other).state = .sleeping

theorem Proc.wakeup_cases (chan : Chan) (proc : Proc Chan) :
    proc.wakeup chan = proc ∨
      (proc.wakeup chan).chan = none ∧ (proc.wakeup chan).state ≠ .sleeping := by
  unfold Proc.wakeup
  split
  · exact .inr ⟨rfl, by simp⟩
  · exact .inl rfl

theorem Calmed.same (others : ∀ other, other ≠ pid → next.procs other = world.procs other) : Calmed world next pid :=
  ⟨fun other different => .inl (by rw [others other different]),
    fun other different asleep => by rwa [others other different] at asleep⟩

theorem visit_procs (world : World) (chan : Chan) (slot other : Nat) :
    (world.visit chan slot).procs other = world.procs other ∨
      ((world.visit chan slot).procs other).chan = none ∧
        ((world.visit chan slot).procs other).state ≠ .sleeping := by
  unfold World.visit setProc
  by_cases here : other = slot
  · subst other
    simpa using Proc.wakeup_cases chan (world.procs slot)
  · simp [here]

theorem Calmed.visit (procs : next.procs = (world.visit chan slot).procs) : Calmed world next pid := by
  constructor
  · intro other _
    rw [procs]
    rcases visit_procs world chan slot other with same | calmed
    · exact .inl (by rw [same])
    · exact .inr calmed
  intro other _ asleep
  rw [procs] at asleep
  rcases visit_procs world chan slot other with same | calmed
  · rwa [same] at asleep
  · exact (calmed.2 asleep).elim

abbrev Registered (world : World) : Prop :=
  (∀ other call, (world.pcs other).waits = some call →
    (world.procs other).chan = none ∨ (world.procs other).chan = some call.op.chan) ∧
  ∀ other, (world.procs other).state = .sleeping →
    ∃ call, world.pcs other = .sched call ∧ (world.procs other).chan = some call.op.chan

theorem sleepers_step (justified : Justified nproc world) (pcs : next.pcs = update world.pcs pid pc)
    (calmed : Calmed world next pid)
    (registered : ∀ call, pc.waits = some call → (next.procs pid).chan = none ∨ (next.procs pid).chan = some call.op.chan)
    (asleep : (next.procs pid).state = .sleeping → ∃ call, pc = .sched call ∧ (next.procs pid).chan = some call.op.chan) : Registered next := by
  rw [Registered, pcs]
  constructor
  · intro other call waiting
    by_cases here : other = pid
    · subst other
      exact registered call (by simpa using waiting)
    have before := justified.registered other call (by simpa [here] using waiting)
    rcases calmed.chan other here with same | lost
    · rwa [same]
    · exact .inl lost.1
  · intro other sleeping
    by_cases here : other = pid
    · subst other
      simpa using asleep sleeping
    obtain ⟨call, place, on⟩ := justified.asleep other (calmed.state other here sleeping)
    rcases calmed.chan other here with same | lost
    · exact ⟨call, by simpa [here] using place, same.trans on⟩
    · exact (lost.2 sleeping).elim

theorem Justified.awake (justified : Justified nproc world) (pid : Nat) (place : ∀ call, world.pcs pid ≠ .sched call) :
    (world.procs pid).state ≠ .sleeping := by
  intro asleep
  obtain ⟨call, at_, -⟩ := justified.asleep pid asleep
  exact place call at_

theorem sleepers_action (justified : Justified nproc world) (act : Action nproc world pid next) : Registered next := by
  have registered := justified.registered pid
  cases act with
  | fallAsleep place on =>
    refine sleepers_step justified rfl (.same fun other different => ?_) ?_ ?_
    · simp [goto, setProc, different]
    · intro call waiting
      cases waiting
      simpa [goto, setProc] using registered _ (place ▸ rfl)
    · intro _
      refine ⟨_, rfl, ?_⟩
      rcases registered _ (by rw [place]; rfl) with none | here
      · simp [none] at on
      · simpa [goto, setProc] using here
  | prepare place =>
    refine sleepers_step justified rfl (.same fun other different => ?_) ?_ ?_
    · simp [goto, setProc, different]
    · intro call waiting
      cases waiting
      simp [goto, setProc, Proc.sleepPrepare]
    · intro asleep
      exact (justified.awake pid (by simp [place])
        (by simpa [goto, setProc, Proc.sleepPrepare] using asleep)).elim
  | resume place =>
    refine sleepers_step justified rfl (.same fun other different => ?_) (by simp [waits]) ?_
    · simp [goto, setProc, different]
    · simp [goto, setProc]
  | visitFull place | visit place | visitClose place =>
    refine sleepers_step justified rfl (.visit rfl) (by simp [waits]) fun asleep => ?_
    have before := justified.awake pid (by simp [place])
    rcases visit_procs world _ _ pid with same | calmed
    · exact (before (same ▸ asleep)).elim
    · exact (calmed.2 asleep).elim
  | release place =>
    refine sleepers_step justified rfl (.same fun _ _ => rfl) (fun call waiting => ?_)
      (fun asleep => (justified.awake pid (by simp [place]) asleep).elim)
    cases waiting
    exact registered _ (place ▸ rfl)
  | acquire place | refuse place | blockFull place | faultIn place | put place | written place
  | giveUp place | blockEmpty place | ready place | drained place | faultOut place | get place
  | filled place | wokenFull place | stayAwake place | woken place | unlock place | close place
  | wokenClose place | closed place =>
    exact sleepers_step justified rfl (.same fun _ _ => rfl) (by simp [waits])
      (fun asleep => (justified.awake pid (by simp [place]) asleep).elim)

theorem Justified.initial (start : world.Initial) :
    Justified nproc world where
  locked := ⟨fun pid => by simp [start.idle, start.lock, Pc.holds]⟩
  shape := fun pid => by rw [start.idle]; trivial
  bound := fun pid busy => (busy (start.idle pid)).elim
  registered := fun pid call waiting => by simp [start.idle, waits] at waiting
  asleep := fun pid asleep => by simp [start.running] at asleep
  reasoned := fun pid call waiting => by simp [start.idle, waits] at waiting

theorem Justified.action (justified : Justified nproc world) (act : Action nproc world pid next)
    (announced : losesWakeup world (.exec pid) = false) : Justified nproc next where
  locked := justified.locked.action act
  shape := shape_action justified.locked justified.shape act
  bound := bound_action justified.bound act
  registered := (sleepers_action justified act).1
  asleep := (sleepers_action justified act).2
  reasoned := reasoned_action justified act announced

theorem Justified.enter (justified : Justified nproc world) (outside : pc.holds = false) (quiet : pc.waits = none)
    (entered : world.enter nproc pid pc = some next) : Justified nproc next := by
  obtain ⟨idle, bound, rfl⟩ := enter_cases entered
  have calmed : Calmed world (world.goto pid pc) pid := .same fun _ _ => rfl
  have sleepers := sleepers_step justified rfl calmed (by simp [quiet])
    (fun asleep => (justified.awake pid (by simp [idle]) asleep).elim)
  refine ⟨justified.locked.keep rfl rfl (by rw [idle, outside]; rfl),
    shape_update justified.shape rfl rfl (shape_of_not_holds outside), ?_,
    sleepers.1, sleepers.2,
    reasoned_outside justified (idle ▸ rfl) rfl rfl rfl (fun _ => rfl) (by simp [quiet])⟩
  intro other busy
  by_cases here : other = pid
  · exact here ▸ bound
  · exact justified.bound other (by simpa [goto, here] using busy)

theorem Justified.kkill (justified : Justified nproc world) (pid : Nat) :
    Justified nproc (world.setProc pid (world.procs pid).kkill) := by
  have chans : ∀ other, ((world.setProc pid (world.procs pid).kkill).procs other).chan =
      (world.procs other).chan := setProc_chan rfl
  refine ⟨⟨justified.locked.owner⟩, justified.shape, justified.bound, ?_, ?_, ?_⟩
  · intro other call waiting
    rw [chans]
    exact justified.registered other call waiting
  · intro other asleep
    rw [chans]
    by_cases here : other = pid
    · subst other
      simp [setProc, Proc.kkill] at asleep
    · exact justified.asleep other (by simpa [setProc, here] using asleep)
  · intro other call waiting on
    rw [chans] at on
    exact justified.reasoned other call waiting on

theorem Justified.step {label : Label} (justified : Justified nproc world) (announced : losesWakeup world label = false)
    (stepped : step nproc world label = some next) : Justified nproc next := by
  cases label with
  | pipewrite _ _ _ | piperead _ _ _ | pipeclose _ _ => exact justified.enter rfl rfl stepped
  | exec pid => exact justified.action (action_of_exec stepped) announced
  | kkill pid =>
    cases stepped
    exact justified.kkill pid

/-- Whenever the lock is free, a reader asleep on the pipe finds it empty with its write
end open, and a writer asleep on it finds it full with its read end open. -/
def NoStuckPeer (world : World) : Prop :=
  world.lock = none → ∀ pid, (world.procs pid).state = .sleeping →
    ((world.procs pid).chan = some .nread →
      world.pipe.empty = true ∧ world.pipe.writeopen = true) ∧
    ((world.procs pid).chan = some .nwrite →
      world.pipe.full = true ∧ world.pipe.readopen = true)

theorem Justified.noStuckPeer (justified : Justified nproc world) : NoStuckPeer world := by
  intro free pid asleep
  obtain ⟨call, place, on⟩ := justified.asleep pid asleep
  have reason : world.pipe.Reason call.op.chan := by
    rcases justified.reasoned pid call (place ▸ rfl) on with reason | owed
    · exact reason
    · exact (owed.not_free free).elim
  constructor
  · intro reader
    have chan : call.op.chan = .nread := by simpa [on] using reader
    rwa [chan] at reason
  · intro writer
    have chan : call.op.chan = .nwrite := by simpa [on] using writer
    rwa [chan] at reason

/-- In a run in which no `pipewrite` is stopped by a kill between storing bytes and
announcing them, no peer is ever stuck. -/
theorem noStuckPeer_of_announced (nproc : Nat) (initial world : World) (start : initial.Initial)
    (reached : Reaches (step nproc) (fun world label => losesWakeup world label = false)
      initial world) : NoStuckPeer world := by
  have justified := reached.invariant (Justified nproc) (Justified.initial start)
    (fun _ _ _ holds announced stepped => holds.step announced stepped)
  exact justified.noStuckPeer

def sleepingReaderRun : List Label :=
  [Label.piperead 1 1 fun _ => some 0] ++ List.replicate 5 (Label.exec 1)

theorem noStuckPeer_sleeping_reader :
    ∃ world, Reaches (step 2) (fun world label => losesWakeup world label = false)
        World.fresh world ∧ (world.procs 1).state = .sleeping ∧ NoStuckPeer world := by
  obtain ⟨world, reached, asleep⟩ := reaches_within
    (show (runWithin (fun world label => losesWakeup world label = false) (step 2) fresh sleepingReaderRun).map (fun world => (world.procs 1).state) =
        some .sleeping by decide +kernel)
  exact ⟨world, reached, asleep,
    noStuckPeer_of_announced 2 fresh world fresh_initial reached⟩

/-! Process 1 sleeps in `piperead`. Process 0 stores a byte and is killed before its
second one, and leaves with the byte in the pipe and process 1 asleep. -/

def killedWriterRun : List Label :=
  [Label.piperead 1 1 fun _ => some 0] ++ List.replicate 5 (Label.exec 1) ++
    [Label.pipewrite 0 2 fun _ => some 7, .exec 0, .exec 0, .kkill 0, .exec 0]

theorem stuck_reader :
    ¬ ∀ (nproc : Nat) (initial world : World), initial.Initial →
      Reaches (step nproc) (fun _ _ => True) initial world → NoStuckPeer world := by
  intro never
  obtain ⟨world, reached, facts⟩ := reaches_seen (show
    (runLabels (step 2) fresh
      killedWriterRun).map (fun world => (world.lock, (world.procs 1).state, (world.procs 1).chan,
        world.pipe.empty)) = some (none, .sleeping, some .nread, false) by decide +kernel)
  simp only [Prod.mk.injEq] at facts
  obtain ⟨free, asleep, on, some⟩ := facts
  have empty := ((never 2 fresh world fresh_initial reached free 1 asleep).1 on).1
  simp [some] at empty

end Xv6.Pipes
