import Xv6.Lib.Transition
import Xv6.Proc.Sleep

/-!
`kfork`, `kexit`, `kwait` and `kkill` on a table of `n` slots. `wait_lock` is part of the
state; a critical section of some `p->lock` is one step (the lock that a zombie keeps until
it has left its CPU would only delay the scan that finds it). A process takes its next step
while it is running; the scheduler and the timer move it between running and runnable.

The slots carry some history: which process is making the slot's process in `kfork`, a
number for each process ever made, and whether it was left behind by an exiting parent.
`exits` and `waits` record every exit and every return of `kwait`.
-/

namespace Xv6.Wait

open Function
open Xv6.Lib
open Xv6.Procs

structure Slot where
  /-- a process waits for its children on its own address, here its slot -/
  proc : Proc Nat
  pid : BitVec 32
  xstate : BitVec 32
  parent : Option Nat
  maker : Option Nat
  id : Nat
  orphan : Bool

structure Exit where
  slot : Nat
  id : Nat
  pid : BitVec 32
  status : BitVec 32
  deriving DecidableEq

/-- What `kwait` reaped: the process, its parent at that moment and the status it copied out,
if it was asked to. -/
structure Reaped where
  slot : Nat
  id : Nat
  parent : Option Nat
  status : Option (BitVec 32)

structure Return where
  caller : Nat
  addr : Nat
  value : BitVec 32
  reaped : Option Reaped

inductive Pc
  | user
  /-- `allocproc` looks at slot `k` -/
  | fork (k : Nat)
  /-- the child is made, its parent not set -/
  | forkParent (child : Nat)
  | forkStart (child : Nat)
  /-- before `acquire(&wait_lock)` in `kexit` -/
  | exit (status : BitVec 32)
  | reparent (status : BitVec 32) (k : Nat)
  /-- in `wakeup(initproc)` for the child in slot `k`, about to visit slot `j` -/
  | wakeInit (status : BitVec 32) (k j : Nat)
  | wakeParent (status : BitVec 32) (parent : Option Nat) (j : Nat)
  | zombie (status : BitVec 32)
  | gone
  /-- before `acquire(&wait_lock)` in `kwait`, the first time or after `sleep` -/
  | wait (addr : Nat)
  | scan (addr k : Nat) (havekids : Bool)
  | scanned (addr : Nat) (havekids : Bool)
  | prepare (addr : Nat)
  | release (addr : Nat)
  | sleep (addr : Nat)
  /-- in the call of `sched` in `sleep` -/
  | asleep (addr : Nat)
  | kill (pid : BitVec 32) (k : Nat)
  deriving DecidableEq

def Pc.locked : Pc → Bool
  | .reparent _ _ | .wakeInit _ _ _ | .wakeParent _ _ _ | .zombie _ => true
  | .scan _ _ _ | .scanned _ _ | .prepare _ | .release _ => true
  | _ => false

def Pc.idle : Pc → Bool
  | .user | .gone => true
  | _ => false

structure State where
  slots : Nat → Slot
  pcs : Nat → Pc
  waitLock : Option Nat
  nextpid : BitVec 32
  born : Nat
  exits : List Exit
  waits : List Return

def State.setPc (s : State) (p : Nat) (pc : Pc) : State := { s with pcs := update s.pcs p pc }

def State.setSlot (s : State) (p : Nat) (slot : Slot) : State :=
  { s with slots := update s.slots p slot }

def State.setProc (s : State) (p : Nat) (proc : Proc Nat) : State :=
  s.setSlot p { s.slots p with proc := proc }

/-- One visit of `wakeup(chan)`, for a channel that may be 0. -/
def visit (chan : Option Nat) (proc : Proc Nat) : Proc Nat :=
  if proc.chan = chan then { proc with chan := none, state := proc.state.rouse } else proc

def freeproc (slot : Slot) : Slot :=
  { slot with
    proc := { state := .unused, chan := none, killed := false }
    pid := 0#32
    xstate := 0#32 }

def initproc : Nat := 0

def State.back (s : State) (p addr : Nat) (value : BitVec 32) (reaped : Option Reaped) : State :=
  { s.setPc p .user with
    waitLock := none
    waits := ⟨p, addr, value, reaped⟩ :: s.waits }

/-- The next step of the process `p`. `fails` tells whether memory runs out in `allocproc` or
`uvmcopy`, and whether `copyout` fails. -/
def run (n : Nat) (s : State) (p : Nat) (fails : Bool) : Option State :=
  match s.pcs p with
  | .user | .gone => none
  | .fork k =>
    if n ≤ k then some (s.setPc p .user)
    else if (s.slots k).proc.state = .unused then
      if fails then
        some { (s.setSlot k (freeproc (s.slots k))).setPc p .user with
          nextpid := s.nextpid + 1#32 }
      else
        let slot := s.slots k
        some { ((s.setSlot k { slot with
            proc := { slot.proc with state := .used }
            pid := s.nextpid
            maker := some p
            id := s.born
            orphan := false }).setPc k .user).setPc p (.forkParent k) with
          nextpid := s.nextpid + 1#32
          born := s.born + 1 }
    else some (s.setPc p (.fork (k + 1)))
  | .forkParent child =>
    if s.waitLock = none then
      some ((s.setSlot child { s.slots child with parent := some p }).setPc p (.forkStart child))
    else none
  | .forkStart child =>
    some ((s.setProc child { (s.slots child).proc with state := .runnable }).setPc p .user)
  | .exit status =>
    if s.waitLock = none then
      some { s.setPc p (.reparent status 0) with
        waitLock := some p
        slots := fun q => { s.slots q with
          orphan := (s.slots q).orphan || decide ((s.slots q).parent = some p) } }
    else none
  | .reparent status k =>
    if n ≤ k then some (s.setPc p (.wakeParent status (s.slots p).parent 0))
    else if (s.slots k).parent = some p then
      some ((s.setSlot k { s.slots k with parent := some initproc }).setPc p
        (.wakeInit status k 0))
    else some (s.setPc p (.reparent status (k + 1)))
  | .wakeInit status k j =>
    if n ≤ j then some (s.setPc p (.reparent status (k + 1)))
    else some ((s.setProc j (visit (some initproc) (s.slots j).proc)).setPc p
      (.wakeInit status k (j + 1)))
  | .wakeParent status parent j =>
    if n ≤ j then some (s.setPc p (.zombie status))
    else some ((s.setProc j (visit parent (s.slots j).proc)).setPc p
      (.wakeParent status parent (j + 1)))
  | .zombie status =>
    let slot := s.slots p
    some { (s.setSlot p { slot with
        proc := { slot.proc with state := .zombie }
        xstate := status }).setPc p .gone with
      waitLock := none
      exits := ⟨p, slot.id, slot.pid, status⟩ :: s.exits }
  | .wait addr =>
    if s.waitLock = none then
      some { s.setPc p (.scan addr 0 false) with waitLock := some p }
    else none
  | .scan addr k havekids =>
    if n ≤ k then some (s.setPc p (.scanned addr havekids))
    else if (s.slots k).parent = some p then
      if (s.slots k).proc.state = .zombie then
        if addr ≠ 0 ∧ fails then some (s.back p addr (-1#32) none)
        else
          some ((s.setSlot k (freeproc { s.slots k with parent := none })).back p addr
            (s.slots k).pid (some ⟨k, (s.slots k).id, (s.slots k).parent,
              if addr = 0 then none else some (s.slots k).xstate⟩))
      else some (s.setPc p (.scan addr (k + 1) true))
    else some (s.setPc p (.scan addr (k + 1) havekids))
  | .scanned addr havekids =>
    if havekids = false ∨ (s.slots p).proc.killed then some (s.back p addr (-1#32) none)
    else some (s.setPc p (.prepare addr))
  | .prepare addr =>
    some ((s.setProc p ((s.slots p).proc.sleepPrepare p)).setPc p (.release addr))
  | .release addr => some { s.setPc p (.sleep addr) with waitLock := none }
  | .sleep addr =>
    if (s.slots p).proc.chan.isSome then
      some ((s.setProc p (s.slots p).proc.sleep).setPc p (.asleep addr))
    else some (s.setPc p (.wait addr))
  | .asleep addr => some (s.setPc p (.wait addr))
  | .kill pid k =>
    if n ≤ k then some (s.setPc p .user)
    else if (s.slots k).pid = pid then
      some ((s.setProc k (s.slots k).proc.kkill).setPc p .user)
    else some (s.setPc p (.kill pid (k + 1)))

inductive Call
  | fork
  | exit (status : BitVec 32)
  | wait (addr : Nat)
  | kill (pid : BitVec 32)

def Call.pc : Call → Pc
  | .fork => .fork 0
  | .exit status => .exit status
  | .wait addr => .wait addr
  | .kill pid => .kill pid 0

def Call.isExit : Call → Bool
  | .exit _ => true
  | _ => false

inductive Label
  | call (p : Nat) (call : Call)
  | run (p : Nat) (fails : Bool)
  | schedule (p : Nat)
  | yield (p : Nat)

def step (n : Nat) (s : State) : Label → Option State
  | .call p call =>
    -- an exit of the first process is a panic, which stops the machine
    if (s.slots p).proc.state = .running ∧ s.pcs p = .user ∧
        (p = initproc → call.isExit = false) then
      some (s.setPc p call.pc)
    else none
  | .run p fails => if (s.slots p).proc.state = .running then run n s p fails else none
  | .schedule p =>
    if (s.slots p).proc.state = .runnable then
      some (s.setProc p { (s.slots p).proc with state := .running })
    else none
  | .yield p =>
    if (s.slots p).proc.state = .running ∧ (s.pcs p).locked = false then
      some (s.setProc p { (s.slots p).proc with state := .runnable })
    else none

def boot : State where
  slots q :=
    { proc := { state := if q = initproc then .runnable else .unused, chan := none, killed := false }
      pid := if q = initproc then 1#32 else 0#32
      xstate := 0#32
      parent := none
      maker := none
      id := 0
      orphan := false }
  pcs _ := .user
  waitLock := none
  nextpid := 2#32
  born := 1
  exits := []
  waits := []

end Xv6.Wait
