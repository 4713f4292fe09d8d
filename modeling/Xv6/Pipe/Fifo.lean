import Xv6.Pipe.Steps

/-!
A pipe is a first-in first-out queue of bytes. The bytes delivered so far followed by those
in the ring are the bytes accepted so far.
-/

namespace Xv6.Pipes

open Function
open Xv6.Lib Xv6.Procs

variable {world next : World} {nproc pid : Nat} {call : Call} {pc : Pc}

theorem pipesize_dvd : pipesize ∣ 2 ^ 32 := by decide

theorem Pipe.empty_iff (pipe : Pipe) :
    pipe.empty = true ↔ Ring.count pipe.nread pipe.nwrite = 0 := by
  rw [Ring.count_eq_zero, Pipe.empty, beq_iff_eq]

theorem Pipe.full_iff (pipe : Pipe) :
    pipe.full = true ↔ Ring.count pipe.nread pipe.nwrite = pipesize := by
  rw [Ring.count_eq_iff _ _ _ (by decide), Pipe.full, beq_iff_eq]

@[simp] theorem Pipe.length_contents (pipe : Pipe) :
    pipe.contents.length = Ring.count pipe.nread pipe.nwrite :=
  Ring.length_contents _ _ _

@[simp] theorem Pipe.contents_close (pipe : Pipe) (writable : Bool) :
    (pipe.close writable).contents = pipe.contents := by
  cases writable <;> rfl

theorem Pipe.count_put (pipe : Pipe) (ch : UInt8)
    (bounded : Ring.count pipe.nread pipe.nwrite ≤ pipesize) :
    Ring.count (pipe.put ch).nread (pipe.put ch).nwrite =
      Ring.count pipe.nread pipe.nwrite + 1 := by
  have fits : pipesize + 1 < 2 ^ 32 := by decide
  exact Ring.count_push pipe.nread pipe.nwrite (by omega)

theorem Pipe.contents_put (pipe : Pipe) (ch : UInt8) (room : pipe.full = false)
    (bounded : Ring.count pipe.nread pipe.nwrite ≤ pipesize) :
    (pipe.put ch).contents = pipe.contents ++ [ch] := by
  have below : Ring.count pipe.nread pipe.nwrite ≠ pipesize := by
    rw [Ne, ← Pipe.full_iff]
    simp [room]
  have fits : pipesize + 1 < 2 ^ 32 := by decide
  exact Ring.contents_push pipesize_dvd pipe.data pipe.nread pipe.nwrite ch (by omega) (by omega)

theorem Pipe.contents_advance (pipe : Pipe) (some : pipe.empty = false) :
    pipe.contents = pipe.front :: pipe.advance.contents := by
  have different : pipe.nread ≠ pipe.nwrite := by simpa [Pipe.empty] using some
  exact Ring.contents_pop pipesize_dvd _ _ _ different

structure Fifo (world : World) : Prop where
  stream : world.delivered ++ world.pipe.contents = world.accepted
  bounded : Ring.count world.pipe.nread world.pipe.nwrite ≤ pipesize

theorem Fifo.initial (start : world.Initial) : Fifo world := by
  constructor
  · simp [start.delivered, start.accepted, Pipe.contents, start.nread, start.nwrite]
  · simp [start.nread, start.nwrite]

theorem Fifo.of_put {ch : UInt8} (fifo : Fifo world) (room : world.pipe.full = false)
    (pipe : next.pipe = world.pipe.put ch) (accepted : next.accepted = world.accepted ++ [ch])
    (delivered : next.delivered = world.delivered) : Fifo next := by
  have below : Ring.count world.pipe.nread world.pipe.nwrite ≠ pipesize := by
    rw [Ne, ← Pipe.full_iff]
    simp [room]
  have bounded := fifo.bounded
  constructor
  · rw [pipe, accepted, delivered, Pipe.contents_put _ _ room bounded, ← fifo.stream,
      List.append_assoc]
  · rw [pipe, Pipe.count_put _ _ bounded]
    omega

theorem Fifo.of_get (fifo : Fifo world) (some : world.pipe.empty = false) (pipe : next.pipe = world.pipe.advance)
    (accepted : next.accepted = world.accepted) (delivered : next.delivered = world.delivered ++ [world.pipe.front]) :
    Fifo next := by
  have stream := fifo.stream
  have bounded := fifo.bounded
  have split := Pipe.contents_advance world.pipe some
  have length := congrArg List.length split
  rw [split] at stream
  simp only [Pipe.length_contents, List.length_cons] at length
  constructor
  · rw [pipe, accepted, delivered, ← stream, List.append_assoc, List.singleton_append]
  · rw [pipe]
    omega

theorem Fifo.action (fifo : Fifo world) (act : Action nproc world pid next) : Fifo next := by
  cases act with
  | put _ _ _ _ room _ => exact fifo.of_put room rfl rfl rfl
  | get _ _ some _ => exact fifo.of_get some rfl rfl rfl
  | close _ _ _ =>
    rename_i writable _ _ _
    exact ⟨by simpa [World.goto] using fifo.stream, by cases writable <;> exact fifo.bounded⟩
  | _ => exact ⟨fifo.stream, fifo.bounded⟩

/-! A call under way has counted the bytes it moved; once it broke off at a fault it
holds that count or -1. -/

def Pc.Counted : Pc → Prop
  | .acquire call | .loop call | .copy call | .wakeFull call _ | .prepare call | .release call
  | .sleep call | .sched call => call.i = call.moved.length
  | .wake call _ | .unlock call => 0 ≤ call.i → call.i = call.moved.length
  | .idle | .closeAcquire _ | .closeWake _ _ | .closeUnlock => True

structure Counted (world : World) : Prop where
  calls : ∀ pid, (world.pcs pid).Counted
  returned : ∀ record ∈ world.returns, 0 ≤ record.value →
    record.value = record.call.moved.length

theorem Counted.initial (start : world.Initial) : Counted world := by
  constructor
  · intro pid
    rw [start.idle]
    trivial
  · simp [start.returns]

theorem Call.counted_fault (counted : call.i = call.moved.length) (valid : 0 ≤ call.fault.i) :
    call.fault.i = call.fault.moved.length := by
  unfold Call.fault at valid ⊢
  by_cases first : call.i = 0
  · simp [first] at valid
  · simpa [first] using counted

theorem counted_update {pcs : Nat → Pc} (counted : ∀ pid, (pcs pid).Counted) (pid : Nat) (fresh : pc.Counted) :
    ∀ other, (update pcs pid pc other).Counted := by
  intro other
  by_cases same : other = pid
  · subst other
    simpa using fresh
  · simpa [same] using counted other

theorem Counted.goto (counted : Counted world) (pcs : next.pcs = update world.pcs pid pc)
    (returns : next.returns = world.returns) (fresh : pc.Counted) : Counted next :=
  ⟨pcs ▸ counted_update counted.calls pid fresh, returns ▸ counted.returned⟩

theorem Counted.leave {value : Int} (counted : Counted world) (result : 0 ≤ value → value = call.moved.length) :
    Counted (world.leave pid call value) := by
  refine ⟨counted_update counted.calls pid trivial, ?_⟩
  intro record member valid
  simp only [World.leave, List.mem_append, List.mem_singleton] at member
  rcases member with old | new
  · exact counted.returned record old valid
  · subst record
    exact result valid

theorem Counted.action (counted : Counted world) (act : Action nproc world pid next) : Counted next := by
  have here := counted.calls pid
  cases act with
  | refuse | giveUp => exact counted.leave (by omega)
  | unlock place =>
    rw [place] at here
    exact counted.leave here
  | faultIn place | faultOut place =>
    rw [place] at here
    exact counted.goto rfl rfl (Call.counted_fault here)
  | put place | get place =>
    rw [place] at here
    exact counted.goto rfl rfl (by simpa [Pc.Counted, Call.move] using here)
  | close _ | visitClose _ | wokenClose _ | closed _ => exact counted.goto rfl rfl trivial
  | written place | drained place | filled place =>
    rw [place] at here
    exact counted.goto rfl rfl fun _ => here
  | acquire place | blockFull place | blockEmpty place | ready place | visitFull place
  | wokenFull place | prepare place | release place | fallAsleep place | stayAwake place
  | resume place | visit place | woken place =>
    rw [place] at here
    exact counted.goto rfl rfl here

theorem enter_cases (entered : world.enter nproc pid pc = some next) :
    world.pcs pid = .idle ∧ pid < nproc ∧ next = world.goto pid pc := by
  unfold World.enter at entered
  split at entered
  next idle =>
    split at entered
    next bound =>
      cases entered
      exact ⟨idle, bound, rfl⟩
    next => simp at entered
  next => simp at entered

theorem fifo_step {label : Label} (invariant : Fifo world ∧ Counted world)
    (stepped : step nproc world label = some next) : Fifo next ∧ Counted next := by
  obtain ⟨fifo, counted⟩ := invariant
  cases label with
  | pipewrite _ _ _ | piperead _ _ _ =>
    obtain ⟨-, -, rfl⟩ := enter_cases stepped
    exact ⟨⟨fifo.stream, fifo.bounded⟩, counted.goto rfl rfl rfl⟩
  | pipeclose pid writable =>
    obtain ⟨-, -, rfl⟩ := enter_cases stepped
    exact ⟨⟨fifo.stream, fifo.bounded⟩, counted.goto rfl rfl trivial⟩
  | exec pid =>
    have act := action_of_exec stepped
    exact ⟨fifo.action act, counted.action act⟩
  | kkill pid =>
    cases stepped
    exact ⟨⟨fifo.stream, fifo.bounded⟩, ⟨counted.calls, counted.returned⟩⟩

/-! No call moves more bytes than it was asked for, and a negative count is none. -/

structure Call.Within (call : Call) : Prop where
  index : call.i ≤ max call.n 0
  moved : (call.moved.length : Int) ≤ max call.n 0

def Pc.Within : Pc → Prop
  | .acquire call | .loop call | .copy call | .wakeFull call _ | .prepare call | .release call
  | .sleep call | .sched call | .wake call _ | .unlock call => call.Within
  | .idle | .closeAcquire _ | .closeWake _ _ | .closeUnlock => True

structure Limited (world : World) : Prop where
  calls : ∀ pid, (world.pcs pid).Within
  returned : ∀ record ∈ world.returns, record.call.Within ∧ record.value ≤ max record.call.n 0

theorem Call.Within.start (op : Op) (n : Int) (user : Nat → Option UInt8) : (Call.start op n user).Within :=
  ⟨Int.le_max_right n 0, Int.le_max_right n 0⟩

theorem Call.Within.move (counted : call.i = call.moved.length) (more : call.i < call.n) (ch : UInt8) :
    (call.move ch).Within := by
  have next : call.i + 1 ≤ max call.n 0 := by omega
  refine ⟨next, ?_⟩
  simp only [Call.move, List.length_append, List.length_singleton, Int.natCast_add, Int.natCast_one]
  omega

theorem Call.Within.fault (within : call.Within) : call.fault.Within := by
  refine ⟨?_, within.moved⟩
  have index := within.index
  simp only [Call.fault]
  split
  · omega
  · exact index

theorem Limited.goto (limited : Limited world) (pcs : next.pcs = update world.pcs pid pc)
    (returns : next.returns = world.returns) (fresh : pc.Within) : Limited next := by
  refine ⟨fun other => ?_, returns ▸ limited.returned⟩
  rw [pcs]
  by_cases same : other = pid
  · rw [same, update_self]
    exact fresh
  · rw [update_of_ne same]
    exact limited.calls other

theorem Limited.leave {value : Int} (limited : Limited world) (within : call.Within) (result : value ≤ max call.n 0) :
    Limited (world.leave pid call value) := by
  have idle : Limited { world with pcs := update world.pcs pid .idle } := limited.goto rfl rfl trivial
  refine ⟨idle.calls, fun record member => ?_⟩
  rcases List.mem_append.mp member with old | new
  · exact limited.returned record old
  · rw [List.mem_singleton.mp new]
    exact ⟨within, result⟩

theorem Limited.action (counted : Counted world) (limited : Limited world) (act : Action nproc world pid next) :
    Limited next := by
  have here := limited.calls pid
  have count := counted.calls pid
  cases act with
  | refuse place | giveUp place =>
    rw [place] at here
    exact limited.leave here (by omega)
  | unlock place =>
    rw [place] at here
    exact limited.leave here here.index
  | faultIn place | faultOut place =>
    rw [place] at here
    exact limited.goto rfl rfl (Call.Within.fault here)
  | put place _ more | get place more =>
    rw [place] at count
    exact limited.goto rfl rfl (Call.Within.move count more _)
  | acquire place =>
    rw [place] at here
    exact limited.goto rfl rfl ⟨here.index, here.moved⟩
  | close place | visitClose place | wokenClose place | closed place => exact limited.goto rfl rfl trivial
  | written place | drained place | filled place | blockFull place | blockEmpty place | ready place | visitFull place
  | wokenFull place | prepare place | release place | fallAsleep place | stayAwake place
  | resume place | visit place | woken place =>
    rw [place] at here
    exact limited.goto rfl rfl here

theorem limited_step {label : Label} (counted : Counted world) (limited : Limited world)
    (stepped : step nproc world label = some next) : Limited next := by
  cases label with
  | pipewrite pid n addr | piperead pid n addr =>
    obtain ⟨-, -, rfl⟩ := enter_cases stepped
    exact limited.goto rfl rfl (Call.Within.start ..)
  | pipeclose pid writable =>
    obtain ⟨-, -, rfl⟩ := enter_cases stepped
    exact limited.goto rfl rfl trivial
  | exec pid => exact limited.action counted (action_of_exec stepped)
  | kkill pid =>
    cases stepped
    exact ⟨limited.calls, limited.returned⟩

theorem pipe_limited {initial : World} (start : initial.Initial)
    (reached : Reaches (step nproc) (fun _ _ => True) initial world) : Limited world := by
  have first : Limited initial := by
    refine ⟨fun pid => ?_, fun record member => ?_⟩
    · rw [start.idle]
      trivial
    · rw [start.returns] at member
      exact absurd member List.not_mem_nil
  refine (reached.invariant (fun world => (Fifo world ∧ Counted world) ∧ Limited world)
    ⟨⟨Fifo.initial start, Counted.initial start⟩, first⟩ fun _ _ _ holds _ stepped => ?_).2
  exact ⟨fifo_step holds.1 stepped, limited_step holds.1.2 holds.2 stepped⟩

/-- In every state of every run the delivered bytes followed by the bytes of the ring are
the accepted bytes, the ring never holds more than `PIPESIZE`, and a call that returned
a count moved exactly that many bytes. -/
theorem pipe_fifo (nproc : Nat) (initial world : World) (start : initial.Initial)
    (reached : Reaches (step nproc) (fun _ _ => True) initial world) :
    world.delivered ++ world.pipe.contents = world.accepted ∧
      Ring.count world.pipe.nread world.pipe.nwrite ≤ pipesize ∧
      ∀ record ∈ world.returns, 0 ≤ record.value →
        record.value = record.call.moved.length := by
  have invariant := reached.invariant (fun world => Fifo world ∧ Counted world)
    ⟨Fifo.initial start, Counted.initial start⟩
    (fun _ _ _ holds _ stepped => fifo_step holds stepped)
  exact ⟨invariant.1.stream, invariant.1.bounded, invariant.2.returned⟩

def oneByteRun : List Label :=
  [Label.pipewrite 0 1 fun _ => some 7] ++ List.replicate 7 (Label.exec 0) ++
    [Label.piperead 1 1 fun _ => some 0] ++ List.replicate 8 (Label.exec 1)

theorem pipe_fifo_one_byte :
    ∃ world, Reaches (step 2) (fun _ _ => True) World.fresh world ∧
      (world.accepted, world.delivered, world.returns.length) = ([7], [7], 2) ∧
      world.delivered ++ world.pipe.contents = world.accepted := by
  obtain ⟨world, reached, facts⟩ := reaches_seen (show
    (runLabels (step 2) World.fresh
      oneByteRun).map (fun world => (world.accepted, world.delivered, world.returns.length)) =
        some ([7], [7], 2) by decide +kernel)
  exact ⟨world, reached, facts, (pipe_fifo 2 World.fresh world World.fresh_initial reached).1⟩

end Xv6.Pipes
