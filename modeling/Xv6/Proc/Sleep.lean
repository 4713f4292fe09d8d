import Mathlib

/-!
The fields of `struct proc` that `p->lock` protects, and what `sleep_prepare`, `sleep` up to
its call of `sched`, one visit of `wakeup` and the visit of `kkill` to its victim do to
them, each in one step. `chan` is `none` where the code stores 0.
-/

namespace Xv6.Procs

inductive ProcState
  | unused
  | used
  | sleeping
  | runnable
  | running
  | zombie
  deriving DecidableEq, Repr

structure Proc (Chan : Type) where
  state : ProcState
  chan : Option Chan
  killed : Bool
  deriving DecidableEq

variable {Chan : Type} [DecidableEq Chan]

def ProcState.rouse : ProcState → ProcState
  | .sleeping => .runnable
  | state => state

def Proc.sleepPrepare (proc : Proc Chan) (chan : Chan) : Proc Chan :=
  { proc with chan := some chan }

def Proc.sleep (proc : Proc Chan) : Proc Chan :=
  -- a process whose wakeup came since sleep_prepare goes on running
  if proc.chan.isSome then { proc with state := .sleeping } else proc

def Proc.wakeup (chan : Chan) (proc : Proc Chan) : Proc Chan :=
  if proc.chan = some chan then { proc with chan := none, state := proc.state.rouse } else proc

def Proc.kkill (proc : Proc Chan) : Proc Chan :=
  { proc with killed := true, state := proc.state.rouse }

@[simp] theorem ProcState.rouse_ne_sleeping (state : ProcState) : state.rouse ≠ .sleeping := by
  cases state <;> simp [ProcState.rouse]

@[simp] theorem Proc.wakeup_killed (chan : Chan) (proc : Proc Chan) :
    (proc.wakeup chan).killed = proc.killed := by
  unfold Proc.wakeup
  split <;> rfl

theorem Proc.wakeup_chan_ne (chan : Chan) (proc : Proc Chan) :
    (proc.wakeup chan).chan ≠ some chan := by
  unfold Proc.wakeup
  split
  · simp
  · assumption

variable {chan : Chan} {proc : Proc Chan}

theorem Proc.chan_of_wakeup {other : Chan}
    (registered : (proc.wakeup chan).chan = some other) : proc.chan = some other := by
  unfold Proc.wakeup at registered
  split at registered
  · simp at registered
  · exact registered

theorem Proc.sleeping_of_wakeup (asleep : (proc.wakeup chan).state = .sleeping) : proc.state = .sleeping := by
  unfold Proc.wakeup at asleep
  split at asleep
  · simp at asleep
  · exact asleep

theorem Proc.wakeup_running (running : proc.state = .running) : (proc.wakeup chan).state = .running := by
  unfold Proc.wakeup
  split
  · simp [running, ProcState.rouse]
  · exact running

end Xv6.Procs
