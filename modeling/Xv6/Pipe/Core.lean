import Xv6.Lib.Ring
import Xv6.Lib.Transition
import Xv6.Proc.Sleep

/-!
The pipe of `kernel/pipe.c` shared by any number of processes. Between taking and
dropping `pi->lock` a process advances one loop iteration, or one visit of a
`wakeup`, at a time; meanwhile every other process may be killed or fall asleep.
-/

namespace Xv6.Pipes

open Function
open Xv6.Lib Xv6.Procs

def pipesize : Nat := 512

structure Pipe where
  data : Nat → UInt8
  nread : BitVec 32
  nwrite : BitVec 32
  readopen : Bool
  writeopen : Bool

/-! `pipewrite` sleeps on `&pi->nwrite` and wakes `&pi->nread`, `piperead` the other way. -/

inductive Chan
  | nread
  | nwrite
  deriving DecidableEq, Repr

inductive Op
  | write
  | read
  deriving DecidableEq, Repr

def Op.chan : Op → Chan
  | .write => .nwrite
  | .read => .nread

def Op.peer : Op → Chan
  | .write => .nread
  | .read => .nwrite

/-- The arguments and locals of `pipewrite` or `piperead`. `user j` is the byte at `addr +
j`, `none` where the copy faults. `moved` records the bytes that this call has accepted or
removed, and `fresh` how many of them since it last acquired the lock. -/
structure Call where
  op : Op
  n : Int
  user : Nat → Option UInt8
  i : Int
  moved : List UInt8
  fresh : Nat

def Call.start (op : Op) (n : Int) (user : Nat → Option UInt8) : Call :=
  { op, n, user, i := 0, moved := [], fresh := 0 }

/-- Where a process stands in the code of `pipe.c`. From `loop` up to the next release
of the lock it holds `pi->lock`. -/
inductive Pc
  | idle
  | acquire (call : Call)
  | loop (call : Call)
  | copy (call : Call)
  | wakeFull (call : Call) (slot : Nat)
  | prepare (call : Call)
  | release (call : Call)
  | sleep (call : Call)
  | sched (call : Call)
  | wake (call : Call) (slot : Nat)
  | unlock (call : Call)
  | closeAcquire (writable : Bool)
  | closeWake (writable : Bool) (slot : Nat)
  | closeUnlock

/-! A call that has returned is recorded with its result and with whether the pipe
was then empty and its write end closed. -/

structure Return where
  pid : Nat
  call : Call
  value : Int
  eof : Bool

/-- One pipe and the processes that use it. `accepted` and `delivered` record the
bytes stored into and taken out of the ring, in order. -/
structure World where
  pipe : Pipe
  lock : Option Nat
  freed : Bool
  procs : Nat → Proc Chan
  pcs : Nat → Pc
  accepted : List UInt8
  delivered : List UInt8
  returns : List Return

inductive Label
  | pipewrite (pid : Nat) (n : Int) (addr : Nat → Option UInt8)
  | piperead (pid : Nat) (n : Int) (addr : Nat → Option UInt8)
  | pipeclose (pid : Nat) (writable : Bool)
  | exec (pid : Nat)
  | kkill (pid : Nat)

def Pipe.empty (pipe : Pipe) : Bool :=
  pipe.nread == pipe.nwrite

def Pipe.full (pipe : Pipe) : Bool :=
  pipe.nwrite == pipe.nread + BitVec.ofNat 32 pipesize

def Pipe.put (pipe : Pipe) (ch : UInt8) : Pipe :=
  { pipe with
    data := update pipe.data (Ring.index pipesize pipe.nwrite) ch
    nwrite := pipe.nwrite + BitVec.ofNat 32 1 }

def Pipe.front (pipe : Pipe) : UInt8 :=
  pipe.data (Ring.index pipesize pipe.nread)

def Pipe.advance (pipe : Pipe) : Pipe :=
  { pipe with nread := pipe.nread + BitVec.ofNat 32 1 }

def Pipe.close (pipe : Pipe) (writable : Bool) : Pipe :=
  if writable then { pipe with writeopen := false } else { pipe with readopen := false }

def closeChan (writable : Bool) : Chan :=
  if writable then .nread else .nwrite

def Pipe.contents (pipe : Pipe) : List UInt8 :=
  Ring.contents pipesize pipe.data pipe.nread pipe.nwrite

def World.goto (world : World) (pid : Nat) (pc : Pc) : World :=
  { world with pcs := update world.pcs pid pc }

def World.setProc (world : World) (pid : Nat) (proc : Proc Chan) : World :=
  { world with procs := update world.procs pid proc }

def World.visit (world : World) (chan : Chan) (slot : Nat) : World :=
  world.setProc slot ((world.procs slot).wakeup chan)

/-- Take a lock that is free and go on at `pc`. The page of a pipe with both ends closed
has been given back, and no file refers to it any more. -/
def World.take (world : World) (pid : Nat) (pc : Pc) : Option World :=
  if world.lock = none ∧ world.freed = false then
    some { world with lock := some pid, pcs := update world.pcs pid pc }
  else none

def World.leave (world : World) (pid : Nat) (call : Call) (value : Int) : World :=
  { world with
    lock := none
    pcs := update world.pcs pid .idle
    returns := world.returns ++
      [{ pid, call, value, eof := world.pipe.empty && !world.pipe.writeopen }] }

/-! One iteration of the loop of `pipewrite`, of the loop in which `piperead` waits for
data, and of the loop in which `piperead` copies it out. -/

def pipewriteLoop (world : World) (pid : Nat) (call : Call) : World :=
  if call.i < call.n then
    if !world.pipe.readopen || (world.procs pid).killed then
      world.leave pid call (-1)
    else if world.pipe.full then
      world.goto pid (.wakeFull call 0)
    else
      match call.user call.i.toNat with
      | none => world.goto pid (.wake { call with i := if call.i = 0 then -1 else call.i } 0)
      | some ch =>
        { world with
          pipe := world.pipe.put ch
          accepted := world.accepted ++ [ch]
          pcs := update world.pcs pid (.loop { call with
            i := call.i + 1, moved := call.moved ++ [ch], fresh := call.fresh + 1 }) }
  else
    world.goto pid (.wake call 0)

def pipereadLoop (world : World) (pid : Nat) (call : Call) : World :=
  if world.pipe.empty && world.pipe.writeopen then
    if (world.procs pid).killed then
      world.leave pid call (-1)
    else
      world.goto pid (.prepare call)
  else
    world.goto pid (.copy call)

def pipereadCopy (world : World) (pid : Nat) (call : Call) : World :=
  if call.i < call.n then
    if world.pipe.empty then
      world.goto pid (.wake call 0)
    else
      match call.user call.i.toNat with
      | none => world.goto pid (.wake { call with i := if call.i = 0 then -1 else call.i } 0)
      | some _ =>
        { world with
          pipe := world.pipe.advance
          delivered := world.delivered ++ [world.pipe.front]
          pcs := update world.pcs pid (.copy { call with
            i := call.i + 1, moved := call.moved ++ [world.pipe.front],
            fresh := call.fresh + 1 }) }
  else
    world.goto pid (.wake call 0)

def exec (nproc : Nat) (world : World) (pid : Nat) : Option World :=
  match world.pcs pid with
  | .idle => none
  | .acquire call => world.take pid (.loop { call with fresh := 0 })
  | .loop call =>
    match call.op with
    | .write => some (pipewriteLoop world pid call)
    | .read => some (pipereadLoop world pid call)
  | .copy call => some (pipereadCopy world pid call)
  | .wakeFull call slot =>
    if slot < nproc then
      some ((world.visit call.op.peer slot).goto pid (.wakeFull call (slot + 1)))
    else some (world.goto pid (.prepare call))
  | .prepare call =>
    some ((world.setProc pid ((world.procs pid).sleepPrepare call.op.chan)).goto pid
      (.release call))
  | .release call => some { world.goto pid (.sleep call) with lock := none }
  | .sleep call =>
    if (world.procs pid).chan.isSome then
      some ((world.setProc pid (world.procs pid).sleep).goto pid (.sched call))
    else some (world.goto pid (.acquire call))
  | .sched call =>
    if (world.procs pid).state = .runnable then
      some ((world.setProc pid { world.procs pid with state := .running }).goto pid
        (.acquire call))
    else none
  | .wake call slot =>
    if slot < nproc then
      some ((world.visit call.op.peer slot).goto pid (.wake call (slot + 1)))
    else some (world.goto pid (.unlock call))
  | .unlock call => some (world.leave pid call call.i)
  | .closeAcquire writable =>
    (world.take pid (.closeWake writable 0)).map fun next =>
      { next with pipe := next.pipe.close writable }
  | .closeWake writable slot =>
    if slot < nproc then
      some ((world.visit (closeChan writable) slot).goto pid (.closeWake writable (slot + 1)))
    else some (world.goto pid .closeUnlock)
  | .closeUnlock =>
    some { world.goto pid .idle with
      lock := none
      freed := !world.pipe.readopen && !world.pipe.writeopen }

def World.enter (nproc : Nat) (world : World) (pid : Nat) (pc : Pc) : Option World :=
  match world.pcs pid with
  | .idle => if pid < nproc then some (world.goto pid pc) else none
  | _ => none

def step (nproc : Nat) (world : World) : Label → Option World
  | .pipewrite pid n addr => world.enter nproc pid (.acquire (Call.start .write n addr))
  | .piperead pid n addr => world.enter nproc pid (.acquire (Call.start .read n addr))
  | .pipeclose pid writable => world.enter nproc pid (.closeAcquire writable)
  | .exec pid => exec nproc world pid
  | .kkill pid => some (world.setProc pid (world.procs pid).kkill)

/-- What `pipealloc` leaves: an open, empty pipe that no process is using yet. -/
structure World.Initial (world : World) : Prop where
  nread : world.pipe.nread = 0
  nwrite : world.pipe.nwrite = 0
  readopen : world.pipe.readopen = true
  writeopen : world.pipe.writeopen = true
  lock : world.lock = none
  freed : world.freed = false
  running : ∀ pid, (world.procs pid).state = .running
  idle : ∀ pid, world.pcs pid = .idle
  accepted : world.accepted = []
  delivered : world.delivered = []
  returns : world.returns = []

def World.fresh : World where
  pipe := { data := fun _ => 0, nread := 0, nwrite := 0, readopen := true, writeopen := true }
  lock := none
  freed := false
  procs := fun _ => { state := .running, chan := none, killed := false }
  pcs := fun _ => .idle
  accepted := []
  delivered := []
  returns := []

theorem World.fresh_initial : World.fresh.Initial := by
  constructor <;> intros <;> rfl

end Xv6.Pipes
