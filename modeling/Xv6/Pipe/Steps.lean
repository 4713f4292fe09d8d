import Xv6.Pipe.Core

/-!
What one action of a process does to the world, one case for each place in the code, and
that the process between an acquire and a release is the one that holds `pi->lock` and a
call's index counts the bytes it has moved.
-/

namespace Xv6.Pipes

open Xv6.Lib Xv6.Procs

def Call.fault (call : Call) : Call :=
  { call with i := if call.i = 0 then -1 else call.i }

def Call.move (call : Call) (ch : UInt8) : Call :=
  { call with i := call.i + 1, moved := call.moved ++ [ch], fresh := call.fresh + 1 }

/-- The actions of process `pid`, each with the tests that lead to it. -/
inductive Action (nproc : Nat) (world : World) (pid : Nat) : World → Prop
  | acquire {call} : world.pcs pid = .acquire call → world.lock = none → world.freed = false →
      Action nproc world pid
        { world.goto pid (.loop { call with fresh := 0 }) with lock := some pid }
  | refuse {call} : world.pcs pid = .loop call → call.op = .write → call.i < call.n →
      world.pipe.readopen = false ∨ (world.procs pid).killed = true →
      Action nproc world pid (world.leave pid call (-1))
  | blockFull {call} : world.pcs pid = .loop call → call.op = .write → call.i < call.n →
      world.pipe.readopen = true → world.pipe.full = true →
      Action nproc world pid (world.goto pid (.wakeFull call 0))
  | faultIn {call} : world.pcs pid = .loop call → call.op = .write → call.i < call.n →
      world.pipe.readopen = true → world.pipe.full = false → call.user call.i.toNat = none →
      Action nproc world pid (world.goto pid (.wake call.fault 0))
  | put {call ch} : world.pcs pid = .loop call → call.op = .write → call.i < call.n →
      world.pipe.readopen = true → world.pipe.full = false → call.user call.i.toNat = some ch →
      Action nproc world pid { world.goto pid (.loop (call.move ch)) with
        pipe := world.pipe.put ch, accepted := world.accepted ++ [ch] }
  | written {call} : world.pcs pid = .loop call → call.op = .write → call.n ≤ call.i →
      Action nproc world pid (world.goto pid (.wake call 0))
  | giveUp {call} : world.pcs pid = .loop call → call.op = .read → world.pipe.empty = true →
      world.pipe.writeopen = true → (world.procs pid).killed = true →
      Action nproc world pid (world.leave pid call (-1))
  | blockEmpty {call} : world.pcs pid = .loop call → call.op = .read → world.pipe.empty = true →
      world.pipe.writeopen = true → Action nproc world pid (world.goto pid (.prepare call))
  | ready {call} : world.pcs pid = .loop call → call.op = .read →
      world.pipe.empty = false ∨ world.pipe.writeopen = false →
      Action nproc world pid (world.goto pid (.copy call))
  | drained {call} : world.pcs pid = .copy call → call.i < call.n → world.pipe.empty = true →
      Action nproc world pid (world.goto pid (.wake call 0))
  | faultOut {call} : world.pcs pid = .copy call → call.i < call.n → world.pipe.empty = false →
      call.user call.i.toNat = none → Action nproc world pid (world.goto pid (.wake call.fault 0))
  | get {call ch} : world.pcs pid = .copy call → call.i < call.n → world.pipe.empty = false →
      call.user call.i.toNat = some ch →
      Action nproc world pid { world.goto pid (.copy (call.move world.pipe.front)) with
        pipe := world.pipe.advance, delivered := world.delivered ++ [world.pipe.front] }
  | filled {call} : world.pcs pid = .copy call → call.n ≤ call.i →
      Action nproc world pid (world.goto pid (.wake call 0))
  | visitFull {call slot} : world.pcs pid = .wakeFull call slot → slot < nproc →
      Action nproc world pid
        ((world.visit call.op.peer slot).goto pid (.wakeFull call (slot + 1)))
  | wokenFull {call slot} : world.pcs pid = .wakeFull call slot → nproc ≤ slot →
      Action nproc world pid (world.goto pid (.prepare call))
  | prepare {call} : world.pcs pid = .prepare call →
      Action nproc world pid ((world.setProc pid
        ((world.procs pid).sleepPrepare call.op.chan)).goto pid (.release call))
  | release {call} : world.pcs pid = .release call →
      Action nproc world pid { world.goto pid (.sleep call) with lock := none }
  | fallAsleep {call chan} : world.pcs pid = .sleep call → (world.procs pid).chan = some chan →
      Action nproc world pid
        ((world.setProc pid { world.procs pid with state := .sleeping }).goto pid (.sched call))
  | stayAwake {call} : world.pcs pid = .sleep call → (world.procs pid).chan = none →
      Action nproc world pid (world.goto pid (.acquire call))
  | resume {call} : world.pcs pid = .sched call → (world.procs pid).state = .runnable →
      Action nproc world pid
        ((world.setProc pid { world.procs pid with state := .running }).goto pid (.acquire call))
  | visit {call slot} : world.pcs pid = .wake call slot → slot < nproc →
      Action nproc world pid ((world.visit call.op.peer slot).goto pid (.wake call (slot + 1)))
  | woken {call slot} : world.pcs pid = .wake call slot → nproc ≤ slot →
      Action nproc world pid (world.goto pid (.unlock call))
  | unlock {call} : world.pcs pid = .unlock call →
      Action nproc world pid (world.leave pid call call.i)
  | close {writable} : world.pcs pid = .closeAcquire writable → world.lock = none →
      world.freed = false →
      Action nproc world pid { world.goto pid (.closeWake writable 0) with
        lock := some pid, pipe := world.pipe.close writable }
  | visitClose {writable slot} : world.pcs pid = .closeWake writable slot → slot < nproc →
      Action nproc world pid
        ((world.visit (closeChan writable) slot).goto pid (.closeWake writable (slot + 1)))
  | wokenClose {writable slot} : world.pcs pid = .closeWake writable slot → nproc ≤ slot →
      Action nproc world pid (world.goto pid .closeUnlock)
  | closed : world.pcs pid = .closeUnlock →
      Action nproc world pid { world.goto pid .idle with
        lock := none, freed := !world.pipe.readopen && !world.pipe.writeopen }

variable {nproc pid : Nat} {world : World} {call : Call}

theorem action_of_pipewriteLoop (place : world.pcs pid = .loop call) (writing : call.op = .write) :
    Action nproc world pid (pipewriteLoop world pid call) := by
  unfold pipewriteLoop
  split
  next more =>
    split
    next refused =>
      exact .refuse place writing more (by simpa using refused)
    next open_ =>
      have readopen : world.pipe.readopen = true := by
        cases isOpen : world.pipe.readopen <;> simp_all
      split
      next full => exact .blockFull place writing more readopen full
      next room =>
        have notFull : world.pipe.full = false := by simpa using room
        split
        next fault => exact .faultIn place writing more readopen notFull fault
        next ch found => exact .put place writing more readopen notFull found
  next done => exact .written place writing (by omega)

theorem action_of_pipereadLoop (place : world.pcs pid = .loop call) (reading : call.op = .read) :
    Action nproc world pid (pipereadLoop world pid call) := by
  unfold pipereadLoop
  split
  next waiting =>
    simp only [Bool.and_eq_true] at waiting
    split
    next killed => exact .giveUp place reading waiting.1 waiting.2 killed
    next => exact .blockEmpty place reading waiting.1 waiting.2
  next available =>
    refine .ready place reading ?_
    cases isEmpty : world.pipe.empty <;> cases isOpen : world.pipe.writeopen <;> simp_all

theorem action_of_pipereadCopy (place : world.pcs pid = .copy call) :
    Action nproc world pid (pipereadCopy world pid call) := by
  unfold pipereadCopy
  split
  next more =>
    split
    next empty => exact .drained place more empty
    next some =>
      have notEmpty : world.pipe.empty = false := by simpa using some
      split
      next fault => exact .faultOut place more notEmpty fault
      next ch found => exact .get place more notEmpty found
  next done => exact .filled place (by omega)

theorem action_of_exec {next : World}
    (executed : exec nproc world pid = some next) : Action nproc world pid next := by
  unfold exec at executed
  split at executed
  next => simp at executed
  next call place =>
    unfold World.take at executed
    split at executed
    next free =>
      cases executed
      exact .acquire place free.1 free.2
    next => simp at executed
  next call place =>
    split at executed <;> cases executed
    next writing => exact action_of_pipewriteLoop place writing
    next reading => exact action_of_pipereadLoop place reading
  next call place =>
    cases executed
    exact action_of_pipereadCopy place
  next call slot place =>
    split at executed <;> cases executed
    next more => exact .visitFull place more
    next done => exact .wokenFull place (by omega)
  next call place =>
    cases executed
    exact .prepare place
  next call place =>
    cases executed
    exact .release place
  next call place =>
    split at executed
    next registered =>
      have slept : (world.procs pid).sleep = { world.procs pid with state := .sleeping } :=
        if_pos registered
      obtain ⟨chan, onChan⟩ := Option.isSome_iff_exists.mp registered
      rw [slept] at executed
      cases executed
      exact .fallAsleep place onChan
    next woken =>
      cases executed
      exact .stayAwake place (by simpa using woken)
  next call place =>
    split at executed
    next runnable =>
      cases executed
      exact .resume place runnable
    next => simp at executed
  next call slot place =>
    split at executed <;> cases executed
    next more => exact .visit place more
    next done => exact .woken place (by omega)
  next call place =>
    cases executed
    exact .unlock place
  next writable place =>
    unfold World.take at executed
    split at executed
    next free =>
      cases executed
      exact .close place free.1 free.2
    next => simp at executed
  next writable slot place =>
    split at executed <;> cases executed
    next more => exact .visitClose place more
    next done => exact .wokenClose place (by omega)
  next place =>
    cases executed
    exact .closed place

end Xv6.Pipes
