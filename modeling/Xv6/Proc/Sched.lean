import Xv6.Lib.Transition
import Xv6.Proc.Sleep

/-!
The scheduler loops of any number of CPUs and the kernel threads they run. A CPU is in
`scheduler`, in one of the two calls of `swtch`, taken one register at a time, or on the
kernel stack of a process. A critical section of some `p->lock` that starts and ends in one
thread is one step, enabled while the lock is free; the sections that cross `swtch` keep the
lock in the state.

What a process does between these calls is left open: a running thread may call any of them
at any time, `wakeup` may visit any slot for any channel, and the slot at which the scan of
`kkill` stops is any slot.
-/

namespace Xv6.Sched

open Function
open Xv6.Procs

def contextSize : Nat := 14

abbrev Context := Nat → Nat

inductive Mode
  /-- in `scheduler`, between two slots -/
  | scan
  /-- in `swtch(&c->context, &p->context)`, storing register `reg` -/
  | enterSave (p reg : Nat)
  | enterLoad (p reg : Nat)
  /-- on the kernel stack of `p`, with the `p->lock` that `scheduler` took -/
  | entered (p : Nat)
  | runs (p : Nat)
  /-- in `swtch(&p->context, &mycpu()->context)`, storing register `reg` -/
  | leaveSave (p reg : Nat)
  | leaveLoad (p reg : Nat)
  /-- in `scheduler` again, with the `p->lock` that the thread took -/
  | back (p : Nat)
  deriving DecidableEq

def Mode.slot : Mode → Option Nat
  | .scan => none
  | .enterSave p _ | .enterLoad p _ | .entered p | .runs p => some p
  | .leaveSave p _ | .leaveLoad p _ | .back p => some p

def Mode.locked : Mode → Option Nat
  | .scan | .runs _ => none
  | .enterSave p _ | .enterLoad p _ | .entered p => some p
  | .leaveSave p _ | .leaveLoad p _ | .back p => some p

def Mode.inside : Mode → Option Nat
  | .enterSave p _ | .enterLoad p _ | .entered p | .runs p => some p
  | .scan | .leaveSave _ _ | .leaveLoad _ _ | .back _ => none

def Mode.next : Mode → Mode
  | .enterSave p reg => if reg + 1 < contextSize then .enterSave p (reg + 1) else .enterLoad p 0
  | .enterLoad p reg => if reg + 1 < contextSize then .enterLoad p (reg + 1) else .entered p
  | .leaveSave p reg => if reg + 1 < contextSize then .leaveSave p (reg + 1) else .leaveLoad p 0
  | .leaveLoad p reg => if reg + 1 < contextSize then .leaveLoad p (reg + 1) else .back p
  | mode => mode

structure Cpu where
  mode : Mode
  proc : Option Nat
  context : Context
  regs : Context

/-- The call that a thread comes back to when it is switched in. -/
inductive Parked
  | no
  | forkret
  | yield
  | sleep
  | kexit
  deriving DecidableEq

structure Thread where
  parked : Parked
  /-- the child between the two critical sections of `kfork` -/
  forking : Option Nat
  /-- history: the registers the thread was last switched out with -/
  image : Context

structure State (Chan : Type) where
  cpus : Nat → Cpu
  procs : Nat → Proc Chan
  lock : Nat → Option Nat
  context : Nat → Context
  threads : Nat → Thread

inductive Action (Chan : Type)
  | pick (p : Nat)
  | swtch
  | release
  | unlock
  | compute (regs : Context)
  | yield
  | sleepPrepare (chan : Chan)
  | sleep
  | kexit
  | wakeup (chan : Chan) (target : Nat)
  | kkill (target : Nat)
  | allocproc (target : Nat) (context : Context)
  | allocFails (target : Nat)
  | start
  | reap (target : Nat)

abbrev Label (Chan : Type) := Nat × Action Chan

variable {Chan : Type}

def State.setMode (s : State Chan) (c : Nat) (mode : Mode) : State Chan :=
  { s with cpus := update s.cpus c { s.cpus c with mode := mode } }

def State.setProc (s : State Chan) (p : Nat) (proc : Proc Chan) : State Chan :=
  { s with procs := update s.procs p proc }

def freeproc (_ : Proc Chan) : Proc Chan := { state := .unused, chan := none, killed := false }

def pick (s : State Chan) (c p : Nat) : Option (State Chan) :=
  if (s.cpus c).mode = .scan ∧ s.lock p = none ∧ (s.procs p).state = .runnable then
    some { s with
      lock := update s.lock p (some c)
      procs := update s.procs p { s.procs p with state := .running }
      cpus := update s.cpus c { s.cpus c with mode := .enterSave p 0, proc := some p } }
  else none

def swtch (s : State Chan) (c : Nat) : Option (State Chan) :=
  let cpu := s.cpus c
  match cpu.mode with
  | .enterSave _ reg => some { s with cpus := update s.cpus c { cpu with
      mode := cpu.mode.next, context := update cpu.context reg (cpu.regs reg) } }
  | .enterLoad p reg => some { s with cpus := update s.cpus c { cpu with
      mode := cpu.mode.next, regs := update cpu.regs reg (s.context p reg) } }
  | .leaveSave p reg => some { s with
      cpus := update s.cpus c { cpu with mode := cpu.mode.next }
      context := update s.context p (update (s.context p) reg (cpu.regs reg)) }
  | .leaveLoad _ reg => some { s with cpus := update s.cpus c { cpu with
      mode := cpu.mode.next, regs := update cpu.regs reg (cpu.context reg) } }
  | _ => none

def release (s : State Chan) (c : Nat) : Option (State Chan) :=
  match (s.cpus c).mode with
  | .entered p =>
    if (s.threads p).parked = .kexit then none
    else some { s.setMode c (.runs p) with
      lock := update s.lock p none
      threads := update s.threads p { s.threads p with parked := .no } }
  | _ => none

def unlock (s : State Chan) (c : Nat) : Option (State Chan) :=
  match (s.cpus c).mode with
  | .back p => some { s with
      cpus := update s.cpus c { s.cpus c with mode := .scan, proc := none }
      lock := update s.lock p none }
  | _ => none

def sched (s : State Chan) (c p : Nat) (parked : Parked) (state : ProcState) : State Chan :=
  { s.setMode c (.leaveSave p 0) with
    lock := update s.lock p (some c)
    procs := update s.procs p { s.procs p with state := state }
    threads := update s.threads p
      { s.threads p with parked := parked, image := (s.cpus c).regs } }

def sleep (s : State Chan) (c p : Nat) : State Chan :=
  if (s.procs p).chan.isSome then sched s c p .sleep .sleeping else s

variable [DecidableEq Chan]

def threadStep (s : State Chan) (c p : Nat) : Action Chan → Option (State Chan)
  | .compute regs => some { s with cpus := update s.cpus c { s.cpus c with regs := regs } }
  | .yield => if s.lock p = none then some (sched s c p .yield .runnable) else none
  | .sleepPrepare chan =>
    if s.lock p = none then some (s.setProc p ((s.procs p).sleepPrepare chan)) else none
  | .sleep => if s.lock p = none then some (sleep s c p) else none
  | .kexit =>
    if s.lock p = none ∧ (s.threads p).forking = none then
      some (sched s c p .kexit .zombie)
    else none
  | .wakeup chan target =>
    if s.lock target = none then some (s.setProc target ((s.procs target).wakeup chan)) else none
  | .kkill target =>
    if s.lock target = none then some (s.setProc target (s.procs target).kkill) else none
  | .allocproc target context =>
    if s.lock target = none ∧ (s.procs target).state = .unused ∧ (s.threads p).forking = none then
      some { s.setProc target { s.procs target with state := .used } with
        context := update s.context target context
        threads := update (update s.threads target
            { parked := .forkret, forking := none, image := context })
          p { s.threads p with forking := some target } }
    else none
  | .allocFails target =>
    if s.lock target = none ∧ (s.procs target).state = .unused then
      some (s.setProc target (freeproc (s.procs target)))
    else none
  | .start =>
    match (s.threads p).forking with
    | some target =>
      if s.lock target = none then
        some { s.setProc target { s.procs target with state := .runnable } with
          threads := update s.threads p { s.threads p with forking := none } }
      else none
    | none => none
  | .reap target =>
    if s.lock target = none ∧ (s.procs target).state = .zombie then
      some (s.setProc target (freeproc (s.procs target)))
    else none
  | _ => none

def step (s : State Chan) (label : Label Chan) : Option (State Chan) :=
  match label.2 with
  | .pick p => pick s label.1 p
  | .swtch => swtch s label.1
  | .release => release s label.1
  | .unlock => unlock s label.1
  | action =>
    match (s.cpus label.1).mode with
    | .runs p => threadStep s label.1 p action
    | .scan =>
      -- the window between intr_on and intr_off in scheduler
      match action with
      | .wakeup chan target =>
        if s.lock target = none then
          some (s.setProc target ((s.procs target).wakeup chan))
        else none
      | _ => none
    | _ => none

theorem step_cases {s next : State Chan} {c : Nat} {action : Action Chan}
    (stepped : step s (c, action) = some next) :
    (∃ p, action = .pick p ∧ pick s c p = some next) ∨
    (action = .swtch ∧ swtch s c = some next) ∨
    (action = .release ∧ release s c = some next) ∨
    (action = .unlock ∧ unlock s c = some next) ∨
    (∃ p, (s.cpus c).mode = .runs p ∧ threadStep s c p action = some next) ∨
    (∃ chan target, action = .wakeup chan target ∧ (s.cpus c).mode = .scan ∧
      s.lock target = none ∧ next = s.setProc target ((s.procs target).wakeup chan)) := by
  cases action
  case pick p => exact .inl ⟨p, rfl, stepped⟩
  case swtch => exact .inr (.inl ⟨rfl, stepped⟩)
  case release => exact .inr (.inr (.inl ⟨rfl, stepped⟩))
  case unlock => exact .inr (.inr (.inr (.inl ⟨rfl, stepped⟩)))
  all_goals
    simp only [step] at stepped
    cases mode : (s.cpus c).mode <;> simp only [mode, reduceCtorEq] at stepped
    all_goals try exact .inr (.inr (.inr (.inr (.inl ⟨_, rfl, stepped⟩))))
  case wakeup.scan chan target =>
    obtain ⟨free, rfl⟩ := by simpa using stepped
    exact .inr (.inr (.inr (.inr (.inr ⟨chan, target, rfl, rfl, free, rfl⟩))))

def boot (regs : Nat → Context) (first : Context) : State Chan where
  cpus c := { mode := .scan, proc := none, context := fun _ => 0, regs := regs c }
  procs p := { state := if p = 0 then .runnable else .unused, chan := none, killed := false }
  lock _ := none
  context p := if p = 0 then first else fun _ => 0
  threads p := { parked := .forkret, forking := none, image := if p = 0 then first else fun _ => 0 }

end Xv6.Sched
