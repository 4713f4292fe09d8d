import Xv6.Lib.Transition
import Xv6.Proc.Sleep

/-!
`kkill` against the five loops that test `killed` before they sleep. Each loop holds its
lock from the head to the release before `sleep`; the data it reads changes in any way while
its lock is free, and `wakeup` visits any slot for any channel at any time.
-/

namespace Xv6.Kill

open Function
open Xv6.Lib
open Xv6.Procs

def pipesize : BitVec 32 := 512#32

inductive Lock
  | pipe (i : Nat)
  | wait
  | cons
  | ticks
  deriving DecidableEq

inductive Chan
  | nread (i : Nat)
  | nwrite (i : Nat)
  | proc (p : Nat)
  | cons
  | ticks
  deriving DecidableEq

structure Pipe where
  nread : BitVec 32
  nwrite : BitVec 32
  readopen : Bool
  writeopen : Bool

structure Family where
  havekids : Bool
  zombie : Bool

structure Data where
  pipes : Nat → Pipe
  families : Nat → Family
  consR : BitVec 32
  consW : BitVec 32
  ticks : BitVec 32

/-- The loop a process is in, with the arguments and locals that its tests read; the
value of `ticks` at the start of `sys_pause` may be any. -/
inductive Loop
  | piperead (pipe : Nat)
  | pipewrite (pipe : Nat) (i n : Nat)
  | kwait
  | consoleread (n : Nat)
  | pause (ticks0 n : BitVec 32)
  deriving DecidableEq

def Loop.lock : Loop → Lock
  | .piperead pipe | .pipewrite pipe _ _ => .pipe pipe
  | .kwait => .wait
  | .consoleread _ => .cons
  | .pause _ _ => .ticks

def Loop.chan (p : Nat) : Loop → Chan
  | .piperead pipe => .nread pipe
  | .pipewrite pipe _ _ => .nwrite pipe
  | .kwait => .proc p
  | .consoleread _ => .cons
  | .pause _ _ => .ticks

inductive Pc
  | user
  /-- before `acquire` of the loop's lock, the first time or after `sleep` -/
  | acquire (loop : Loop)
  | head (loop : Loop)
  /-- about to call `killed` -/
  | test (loop : Loop)
  /-- `killed` returned 0 -/
  | tested (loop : Loop)
  | prepared (loop : Loop)
  | released (loop : Loop)
  /-- in the call of `sched` in `sleep` -/
  | asleep (loop : Loop)
  /-- out of the loop, about to release its lock -/
  | leave (loop : Loop)
  deriving DecidableEq

def Pc.window : Pc → Bool
  | .tested _ | .prepared _ | .released _ => true
  | _ => false

def Pc.locked : Pc → Bool
  | .head _ | .test _ | .tested _ | .prepared _ | .leave _ => true
  | _ => false

structure State where
  procs : Nat → Proc Chan
  pcs : Nat → Pc
  locks : Lock → Option Nat
  data : Data
  /-- history: a `kkill` has visited the process in its present window -/
  late : Nat → Bool

inductive Label
  /-- `stop` tells how a test on data outside this model falls out -/
  | run (p : Nat) (stop : Bool)
  | call (p : Nat) (loop : Loop)
  | kkill (target : Nat)
  | wakeup (chan : Chan) (target : Nat)
  | schedule (p : Nat)
  | yield (p : Nat)
  | pipe (i : Nat) (pipe : Pipe)
  | family (p : Nat) (family : Family)
  | console (r w : BitVec 32)
  | tick (ticks : BitVec 32)

def State.setPc (s : State) (p : Nat) (pc : Pc) : State := { s with pcs := update s.pcs p pc }

def State.setProc (s : State) (p : Nat) (proc : Proc Chan) : State :=
  { s with procs := update s.procs p proc }

def head (s : State) (p : Nat) (stop : Bool) : Loop → State
  | .piperead i =>
    if (s.data.pipes i).nread = (s.data.pipes i).nwrite ∧ (s.data.pipes i).writeopen then
      s.setPc p (.test (.piperead i))
    else s.setPc p (.leave (.piperead i))
  | .pipewrite i done n =>
    if done < n ∧ (s.data.pipes i).readopen then s.setPc p (.test (.pipewrite i done n))
    else s.setPc p (.leave (.pipewrite i done n))
  | .kwait =>
    if (s.data.families p).havekids ∧ (s.data.families p).zombie = false then
      s.setPc p (.test .kwait)
    else s.setPc p (.leave .kwait)
  | .consoleread n =>
    if n = 0 then s.setPc p (.leave (.consoleread n))
    else if s.data.consR = s.data.consW then s.setPc p (.test (.consoleread n))
    else
      -- one character taken; end of file, a newline or a failed copy leaves the loop
      let taken := { s with data := { s.data with consR := s.data.consR + 1#32 } }
      taken.setPc p (if stop then .leave (.consoleread n) else .head (.consoleread (n - 1)))
  | .pause ticks0 n =>
    if s.data.ticks - ticks0 < n then s.setPc p (.test (.pause ticks0 n))
    else s.setPc p (.leave (.pause ticks0 n))

/-- From the return of `killed` to the end of the call of `sleep_prepare`, or past one
byte of `pipewrite` that finds room. -/
def prepare (s : State) (p : Nat) (stop : Bool) : Loop → State
  | .pipewrite i done n =>
    if (s.data.pipes i).nwrite = (s.data.pipes i).nread + pipesize then
      (s.setProc p ((s.procs p).sleepPrepare (.nwrite i))).setPc p (.prepared (.pipewrite i done n))
    else if stop then s.setPc p (.leave (.pipewrite i done n))
    else
      let pipe := s.data.pipes i
      let stored := { s with data := { s.data with
        pipes := update s.data.pipes i { pipe with nwrite := pipe.nwrite + 1#32 } } }
      stored.setPc p (.head (.pipewrite i (done + 1) n))
  | loop =>
    (s.setProc p ((s.procs p).sleepPrepare (loop.chan p))).setPc p (.prepared loop)

def run (s : State) (p : Nat) (stop : Bool) : Option State :=
  match s.pcs p with
  | .user => none
  | .acquire loop =>
    if s.locks loop.lock = none then
      some { s.setPc p (.head loop) with locks := update s.locks loop.lock (some p) }
    else none
  | .head loop => some (head s p stop loop)
  | .test loop =>
    if (s.procs p).killed then some (s.setPc p (.leave loop))
    else some { s.setPc p (.tested loop) with late := update s.late p false }
  | .tested loop => some (prepare s p stop loop)
  | .prepared loop =>
    some { s.setPc p (.released loop) with locks := update s.locks loop.lock none }
  | .released loop =>
    if (s.procs p).chan.isSome then
      some ((s.setProc p (s.procs p).sleep).setPc p (.asleep loop))
    else some (s.setPc p (.acquire loop))
  | .asleep loop => some (s.setPc p (.acquire loop))
  | .leave loop => some { s.setPc p .user with locks := update s.locks loop.lock none }

def step (s : State) : Label → Option State
  | .run p stop => if (s.procs p).state = .running then run s p stop else none
  | .call p loop =>
    if (s.procs p).state = .running ∧ s.pcs p = .user then some (s.setPc p (.acquire loop))
    else none
  | .kkill target => some { s.setProc target (s.procs target).kkill with
      late := update s.late target (s.late target || (s.pcs target).window) }
  | .wakeup chan target => some (s.setProc target ((s.procs target).wakeup chan))
  | .schedule p =>
    if (s.procs p).state = .runnable then
      some (s.setProc p { s.procs p with state := .running })
    else none
  | .yield p =>
    -- interrupts are off while a process holds a spinlock
    if (s.procs p).state = .running ∧ (s.pcs p).locked = false then
      some (s.setProc p { s.procs p with state := .runnable })
    else none
  | .pipe i pipe =>
    if s.locks (.pipe i) = none then
      some { s with data := { s.data with pipes := update s.data.pipes i pipe } }
    else none
  | .family p family =>
    if s.locks .wait = none then
      some { s with data := { s.data with families := update s.data.families p family } }
    else none
  | .console r w =>
    if s.locks .cons = none then some { s with data := { s.data with consR := r, consW := w } }
    else none
  | .tick ticks =>
    if s.locks .ticks = none then some { s with data := { s.data with ticks := ticks } }
    else none

def boot (running : Nat → Bool) (data : Data) : State where
  procs p := { state := if running p then .running else .runnable, chan := none, killed := false }
  pcs _ := .user
  locks _ := none
  data := data
  late _ := false

def Past (s : State) (p : Nat) : Prop :=
  (s.pcs p).window = true ∨ ∃ loop, s.pcs p = .asleep loop ∧ (s.procs p).state = .sleeping

def Marked (s : State) (p : Nat) : Prop := Past s p → (s.procs p).killed = s.late p

variable {s next : State} {p : Nat}

theorem Marked.congr (marked : Marked s p) (past : Past next p → Past s p)
    (killed : (next.procs p).killed = (s.procs p).killed) (late : next.late p = s.late p) :
    Marked next p := by
  intro reached
  rw [killed, late]
  exact marked (past reached)

theorem head_eq (s : State) (p : Nat) (stop : Bool) (loop : Loop) : ∃ data pc,
    head s p stop loop = { s.setPc p pc with data := data } ∧ pc.window = false ∧
      ∀ inside, pc ≠ .asleep inside := by
  unfold head
  split <;> (repeat' split) <;> exact ⟨_, _, rfl, rfl, by simp⟩

open State

theorem prepare_eq (s : State) (p : Nat) (stop : Bool) (loop : Loop) : ∃ data pc proc,
    prepare s p stop loop = { (s.setProc p proc).setPc p pc with data := data } ∧
      proc.killed = (s.procs p).killed := by
  have same : s.setProc p (s.procs p) = s := by simp [setProc]
  unfold prepare
  split
  · split
    · exact ⟨_, _, _, rfl, rfl⟩
    · split
      · exact ⟨_, _, s.procs p, by rw [same], rfl⟩
      · exact ⟨_, _, s.procs p, by rw [same]; rfl, rfl⟩
  · exact ⟨_, _, _, rfl, rfl⟩

theorem run_eq {stop : Bool} (ran : run s p stop = some next) :
    ∃ proc pc late, next.procs = update s.procs p proc ∧ next.pcs = update s.pcs p pc ∧
      next.late = update s.late p late ∧ proc.killed = (s.procs p).killed ∧
      (pc.window = true ∨ (∃ loop, pc = .asleep loop) →
        late = s.late p ∧ (s.pcs p).window = true ∨ late = false ∧ proc.killed = false) := by
  unfold run at ran
  split at ran
  · simp at ran
  · obtain ⟨_, rfl⟩ := by simpa using ran
    refine ⟨s.procs p, _, s.late p, by simp [setPc], rfl, by simp [setPc], rfl, ?_⟩
    simp [Pc.window]
  · rename_i loop _
    cases ran
    obtain ⟨data, pc, shape, outside, awake⟩ := head_eq s p stop loop
    rw [shape]
    refine ⟨s.procs p, pc, s.late p, by simp [setPc], rfl, by simp [setPc], rfl, ?_⟩
    simp [outside, awake]
  · split at ran <;> cases ran
    · refine ⟨s.procs p, _, s.late p, by simp [setPc], rfl, by simp [setPc], rfl, ?_⟩
      simp [Pc.window]
    · rename_i alive
      refine ⟨s.procs p, _, false, by simp [setPc], rfl, rfl, rfl, fun _ => ?_⟩
      exact .inr ⟨rfl, by simpa using alive⟩
  · rename_i loop pc
    cases ran
    obtain ⟨data, place, proc, shape, killed⟩ := prepare_eq s p stop loop
    rw [shape]
    refine ⟨proc, place, s.late p, rfl, rfl, by simp [setPc, setProc], killed, ?_⟩
    exact fun _ => .inl ⟨rfl, by rw [pc]; rfl⟩
  · rename_i loop pc
    cases ran
    refine ⟨s.procs p, _, s.late p, by simp [setPc], rfl, by simp [setPc], rfl, ?_⟩
    exact fun _ => .inl ⟨rfl, by rw [pc]; rfl⟩
  · rename_i loop pc
    split at ran <;> cases ran
    · rename_i registered
      refine ⟨(s.procs p).sleep, _, s.late p, rfl, rfl, by simp [setPc, setProc], ?_, ?_⟩
      · simp [Proc.sleep, registered]
      · exact fun _ => .inl ⟨rfl, by rw [pc]; rfl⟩
    · refine ⟨s.procs p, _, s.late p, by simp [setPc], rfl, by simp [setPc], rfl, ?_⟩
      simp [Pc.window]
  · cases ran
    refine ⟨s.procs p, _, s.late p, by simp [setPc], rfl, by simp [setPc], rfl, ?_⟩
    simp [Pc.window]
  · cases ran
    refine ⟨s.procs p, _, s.late p, by simp [setPc], rfl, by simp [setPc], rfl, ?_⟩
    simp [Pc.window]

theorem run_marked {q : Nat} {stop : Bool} (marked : Marked s q)
    (ran : run s p stop = some next) : Marked next q := by
  obtain ⟨proc, pc, late, procs, pcs, lates, killed, place⟩ := run_eq ran
  obtain rfl | same := eq_or_ne q p
  · intro past
    simp only [Past, procs, pcs, lates, update_self] at past ⊢
    have inside : pc.window = true ∨ ∃ loop, pc = .asleep loop := by
      obtain window | ⟨loop, asleep, _⟩ := past
      · exact .inl window
      · exact .inr ⟨loop, asleep⟩
    obtain ⟨kept, window⟩ | ⟨fresh, alive⟩ := place inside
    · rw [killed, kept]
      exact marked (.inl window)
    · rw [fresh, alive]
  · apply marked.congr
    · simp [Past, procs, pcs, same]
    · simp [procs, same]
    · simp [lates, same]

theorem Marked.visit {target : Nat} {proc : Proc Chan} (marked : Marked s p)
    (killed : proc.killed = (s.procs target).killed)
    (asleep : proc.state = .sleeping → (s.procs target).state = .sleeping) :
    Marked (s.setProc target proc) p := by
  obtain rfl | same := eq_or_ne p target
  · apply marked.congr
    · rintro (window | ⟨loop, pc, sleeping⟩)
      · exact .inl window
      · exact .inr ⟨loop, pc, asleep (by simpa [setProc] using sleeping)⟩
    · simp [setProc, killed]
    · rfl
  apply marked.congr
  · simp [Past, setProc, same]
  · simp [setProc, same]
  · rfl

theorem Marked.kkill {target : Nat} (marked : Marked s p) : Marked { s.setProc target (s.procs target).kkill with
      late := update s.late target (s.late target || (s.pcs target).window) } p := by
  obtain rfl | same := eq_or_ne p target
  · rintro (window | ⟨loop, _, sleeping⟩)
    · have window : (s.pcs p).window = true := window
      simp [setProc, Proc.kkill, window]
    · simp [setProc, Proc.kkill] at sleeping
  apply marked.congr
  · simp [Past, setProc, same]
  · simp [setProc, same]
  · simp [same]

theorem step_marked {label : Label} (marked : Marked s p)
    (stepped : step s label = some next) : Marked next p := by
  cases label with
  | run q stop =>
    obtain ⟨_, ran⟩ := by simpa [step] using stepped
    exact run_marked marked ran
  | call q loop =>
    obtain ⟨⟨_, pc⟩, rfl⟩ := by simpa [step] using stepped
    obtain rfl | same := eq_or_ne p q
    · intro past
      simp [Past, setPc, Pc.window] at past
    apply marked.congr
    · simp [Past, setPc, same]
    · rfl
    · rfl
  | kkill target =>
    cases stepped
    exact marked.kkill
  | wakeup chan target =>
    cases stepped
    exact marked.visit (Proc.wakeup_killed chan _) Proc.sleeping_of_wakeup
  | schedule _ | yield _ =>
    obtain ⟨_, rfl⟩ := by simpa [step] using stepped
    exact marked.visit rfl (by simp)
  | pipe _ _ | family _ _ | console _ _ | tick _ =>
    obtain ⟨_, rfl⟩ := by simpa [step] using stepped
    exact marked

/-- A process asleep in one of the loops is marked killed exactly if a `kkill` visited it
between its test of `killed` and its call of `sleep`. -/
theorem killed_sleeper_iff {running : Nat → Bool} {data : Data} {s : State}
    (reached : Reaches step (fun _ _ => True) (boot running data) s) {p : Nat} {loop : Loop}
    (inside : s.pcs p = .asleep loop) (asleep : (s.procs p).state = .sleeping) :
    (s.procs p).killed = true ↔ s.late p = true := by
  have marked : Marked s p := by
    apply reached.invariant (fun s => Marked s p)
    · intro _
      rfl
    · intro s label next marked _ stepped
      exact step_marked marked stepped
  rw [marked (.inr ⟨loop, inside, asleep⟩)]

def sampleData : Data where
  pipes i :=
    { nread := 0#32
      nwrite := if i = 0 then 0#32 else pipesize
      readopen := true
      writeopen := true }
  families _ := { havekids := true, zombie := false }
  consR := 0#32
  consW := 0#32
  ticks := 0#32

def sleepRun (loop : Loop) (visits : List Label) : List Label :=
  [.call 0 loop, .run 0 false, .run 0 false, .run 0 false] ++ visits ++
    [.run 0 false, .run 0 false, .run 0 false]

theorem killed_sleeper_iff_alive : ∃ s : State,
    Reaches step (fun _ _ => True) (boot (fun _ => true) sampleData) s ∧
    s.pcs 0 = .asleep .kwait ∧ (s.procs 0).state = .sleeping ∧ (s.procs 0).killed = false ∧
    ((s.procs 0).killed = true ↔ s.late 0 = true) := by
  obtain ⟨s, reached, seen⟩ := reaches_seen (show
    (runLabels step (boot (fun _ => true) sampleData) (sleepRun .kwait [])).map
        (fun s => (s.pcs 0, (s.procs 0).state, (s.procs 0).killed)) =
      some (.asleep .kwait, .sleeping, false) by decide +kernel)
  simp only [Prod.mk.injEq] at seen
  obtain ⟨inside, asleep, alive⟩ := seen
  exact ⟨s, reached, inside, asleep, alive, killed_sleeper_iff reached inside asleep⟩

def Lost (loop : Loop) : Prop := ∃ s : State,
  Reaches step (fun _ _ => True) (boot (fun _ => true) sampleData) s ∧
  s.pcs 0 = .asleep loop ∧ (s.procs 0).state = .sleeping ∧ (s.procs 0).killed = true

theorem lost_of_run {loop : Loop}
    (ran : (runLabels step (boot (fun _ => true) sampleData) (sleepRun loop [.kkill 0])).map
        (fun s => (s.pcs 0, (s.procs 0).state, (s.procs 0).killed)) =
      some (.asleep loop, .sleeping, true)) : Lost loop := by
  obtain ⟨s, reached, seen⟩ := reaches_seen ran
  simp only [Prod.mk.injEq] at seen
  exact ⟨s, reached, seen⟩

/-- In each of the five loops a `kkill` just after the test leaves a killed process asleep. -/
theorem kill_lost : Lost (.piperead 0) ∧ Lost (.pipewrite 1 0 1) ∧ Lost .kwait ∧
    Lost (.consoleread 1) ∧ Lost (.pause 0#32 1#32) := by
  refine ⟨?_, ?_, ?_, ?_, ?_⟩
  all_goals
    apply lost_of_run
    decide +kernel

end Xv6.Kill
